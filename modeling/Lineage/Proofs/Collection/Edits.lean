import Lineage.Catalog.Collection
import Lineage.Proofs.Registry.Calls
import Lineage.Proofs.Registry.Editing

/-!
Edits of a collection: what adding an entry and deleting one do in a world, step by step, and runs of
calls on a collection that each come down to one of them.
-/
namespace Lineage

open World Action Registry
open Component (IsName)

namespace Collection

/-! ### Names and places -/

/-- Every place of an index is the name of a child. -/
def Children (index : Params) : Prop := ∀ field ∈ index, ∃ place, field.2 = .str place ∧ IsName place

theorem Children.insert {index : Params} (h : Children index) (name : String) {place : String}
    (hp : IsName place) : Children (Table.insert index name (.str place)) := by
  intro field hf
  rcases Table.mem_insert hf with rfl | hf
  · exact ⟨place, rfl, hp⟩
  · exact h field hf

theorem Children.erase {index : Params} (h : Children index) (name : String) :
    Children (Table.erase index name) :=
  fun field hf => h field (List.mem_filter.mp hf).1

theorem Children.get? {index : Params} (h : Children index) {name : String} {value : Json}
    (hv : Table.get? index name = some value) : ∃ place, value = .str place ∧ IsName place :=
  h _ (Table.mem_of_get? hv)

theorem indexOf_insert (own index : Params) :
    indexOf (Table.insert own indexKey (.obj index)) = index := by
  rw [indexOf, Table.get?_insert_self]
  rfl

/-- A name that is not refused and neither `.` nor `..` is that of a child. -/
theorem isName_of_accepted {name : String} (accepted : ¬ (name = "" ∨ name.toList.contains '/' = true))
    (ordinary : name ≠ "." ∧ name ≠ "..") : IsName name := by
  obtain ⟨some, whole⟩ := not_or.mp accepted
  refine ⟨?_, ordinary.2, by simpa using whole⟩
  simp only [trivialSegment, beq_eq_false_iff_ne.mpr some, beq_eq_false_iff_ne.mpr ordinary.1,
    Bool.or_self]

theorem id_ne_of_join {c e : Entry} {name : String} (normal : c.path.normalize = c.path)
    (hn : IsName name) (proper : c.Proper e) (place : e.path = c.path.join name) : e.id ≠ c.id := by
  intro same
  obtain rfl := proper same
  exact Path.join_ne normal hn place.symm

/-! ### Edits as actions -/

/-- A change of the disk that fails for the reason it is refused for. -/
def onDiskOr (reason : DiskError → String) (act : DiskAction Unit) : Action Unit := do
  match ← tryOnDisk act with
  | .ok () => return ()
  | .error e => throw (.failed (reason e))

def storing (r : Registry) (c : Entry) (index : Params) : Action Unit := do
  r.setParameter c indexKey (.obj index)
  r.persist c

def insertion (r : Registry) (c : Entry) (name : String) (data : Params) : Action Outcome := do
  if name = "" ∨ name.toList.contains '/' then
    throw (.failed s!"'{name}' is not a valid entry name")
  else
    let own ← r.own c
    if Table.contains (indexOf own) name then
      throw (.failed s!"'{name}' is already in collection '{c.name}'")
    else
      onDiskOr (fun e => s!"cannot create {(c.path.join name).text}: {e.message}")
        (Disk.makeDirs (c.path.join name))
      let e ← byPath (c.path.join name)
      r.updateParameters e data
      r.persist e
      storing r c (Table.insert (indexOf own) name (.str name))
      return .entry e

def erasure (r : Registry) (c : Entry) (name : String) : Action Outcome := do
  let own ← r.own c
  match Table.get? (indexOf own) name with
  | none => throw (.entryNotFound name)
  | some (.str place) =>
    storing r c (Table.erase (indexOf own) name)
    if (← get).disk.exists? (c.path.join place) then
      onDiskOr (fun e => s!"cannot remove {(c.path.join place).text}: {e.message}")
        (Disk.removeDirs (c.path.join place))
    return .data (.str name)
  | some _ => throw (.failed s!"index path of '{name}' is not a string")

variable {r : Registry}

theorem realizes_storeIndex (c : Entry) (index : Params) :
    r.Realizes (storeIndex c index) (storing r c index) :=
  .request_bind fun _ => .request (.persist c)

section

variable {β : Type} {next other : Script β} {act act' : Action β}

theorem realizes_orRefused (reason : DiskError → String) {change : DiskAction Unit}
    {changes : Script (Except DiskError Unit)} (h : r.Realizes changes (tryOnDisk change))
    (rest : r.Realizes next act) :
    r.Realizes (do Script.orRefused reason (← changes); next) (do onDiskOr reason change; act) := by
  rw [onDiskOr, bind_assoc]
  refine h.bind fun changed => ?_
  cases changed <;> first | exact rest | exact .fail _

theorem realizes_makeDirs (reason : DiskError → String) (path : Path) (rest : r.Realizes next act) :
    r.Realizes (do Script.orRefused reason (← Script.makeDirs path); next)
      (do onDiskOr reason (Disk.makeDirs path); act) :=
  realizes_orRefused reason (.request (.makeDirs path)) rest

theorem realizes_removeDirs (reason : DiskError → String) (path : Path) (rest : r.Realizes next act) :
    r.Realizes (do Script.orRefused reason (← Script.removeDirs path); next)
      (do onDiskOr reason (Disk.removeDirs path); act) :=
  realizes_orRefused reason (.request (.removeDirs path)) rest

theorem realizes_ifExists (path : Path) (there : r.Realizes next act) (gone : r.Realizes other act') :
    r.Realizes (do if ← Script.pathExists path then next else other)
      (do if (← get).disk.exists? path then act else act') := by
  intro w
  have answered : r.answer (.pathExists path) w = result (.ok (w.disk.exists? path)) w := rfl
  refine .ask answered ?_
  cases found : w.disk.exists? path with
  | true =>
      have taken : (do if (← get).disk.exists? path then act else act' : Action β) w = act w := by
        rw [bind_of_ok (get_apply w), found]
        rfl
      rw [value, after, taken]
      exact there w
  | false =>
      have taken : (do if (← get).disk.exists? path then act else act' : Action β) w = act' w := by
        rw [bind_of_ok (get_apply w), found]
        rfl
      rw [value, after, taken]
      exact gone w

end

theorem realizes_insertEntry (c : Entry) (name : String) (data : Params) :
    r.Realizes (insertEntry c name data) (insertion r c name data) := by
  rw [insertEntry, insertion]
  split
  · exact .fail _
  · refine .request_bind fun own => ?_
    dsimp only
    split
    · exact .fail _
    · refine realizes_makeDirs _ (c.path.join name) ?_
      refine .request_bind fun e => .request_bind fun _ => .request_bind fun _ => ?_
      exact (realizes_storeIndex c _).bind fun _ => .done _

theorem realizes_eraseEntry (c : Entry) (name : String) :
    r.Realizes (eraseEntry c name) (erasure r c name) := by
  rw [eraseEntry, erasure]
  refine .request_bind fun (own : Params) => ?_
  dsimp only
  rcases Table.get? (indexOf own) name with _ | found
  · exact .fail _
  · cases found with
    | str place =>
        refine (realizes_storeIndex c _).bind fun _ => ?_
        exact realizes_ifExists (c.path.join place)
          (realizes_removeDirs _ (c.path.join place) (.done (Outcome.data (.str name))))
          (.done (Outcome.data (.str name)))
    | null | bool _ | int _ | float _ | arr _ | obj _ => exact .fail _

section

variable {c e : Entry} {name : String} {data : Params} {outcome : Outcome} {w w' : World}

theorem onDiskOr_eq_ok {reason : DiskError → String} {act : DiskAction Unit} :
    onDiskOr reason act w = .ok () w' ↔ ∃ d, act w.disk = .ok () d ∧ w' = { w with disk := d } := by
  rw [onDiskOr, bind_apply, tryOnDisk]
  cases act w.disk with
  | ok u d => simp [pure_apply, eq_comm]
  | error err d => simp [throw_apply]

/-- Adding an entry succeeds in these steps and no others. -/
theorem insertion_eq_ok_iff : insertion r c name data w = .ok outcome w' ↔
    ¬ (name = "" ∨ name.toList.contains '/' = true) ∧ ∃ own w₁ d e w₂ w₃ w₄,
      r.own c w = .ok own w₁ ∧ Table.contains (indexOf own) name = false ∧
      Disk.makeDirs (c.path.join name) w₁.disk = .ok () d ∧
      byPath (c.path.join name) { w₁ with disk := d } = .ok e w₂ ∧
      r.updateParameters e data w₂ = .ok () w₃ ∧ r.persist e w₃ = .ok () w₄ ∧
      storing r c (Table.insert (indexOf own) name (.str name)) w₄ = .ok () w' ∧
      outcome = .entry e := by
  rw [insertion]
  split
  · rename_i refused
    constructor
    · intro h
      cases h
    · intro h
      exact absurd refused h.1
  · rename_i accepted
    constructor
    · intro h
      obtain ⟨own, w₁, known, h⟩ := bind_eq_ok_iff.mp h
      split at h
      · cases h
      · rename_i new
        obtain ⟨_, _, changed, h⟩ := bind_eq_ok_iff.mp h
        obtain ⟨d, made, rfl⟩ := onDiskOr_eq_ok.mp changed
        obtain ⟨e, w₂, found, h⟩ := bind_eq_ok_iff.mp h
        obtain ⟨_, w₃, updated, h⟩ := bind_eq_ok_iff.mp h
        obtain ⟨_, w₄, written, h⟩ := bind_eq_ok_iff.mp h
        obtain ⟨_, w₅, stored, h⟩ := bind_eq_ok_iff.mp h
        cases h
        exact ⟨accepted, own, w₁, d, e, w₂, w₃, w₄, known, Bool.eq_false_iff.mpr new, made, found,
          updated, written, stored, rfl⟩
    · rintro ⟨-, own, w₁, d, e, w₂, w₃, w₄, known, new, made, found, updated, written, stored, rfl⟩
      rw [bind_of_ok known, new, if_neg Bool.false_ne_true,
        bind_of_ok (onDiskOr_eq_ok.mpr ⟨d, made, rfl⟩), bind_of_ok found, bind_of_ok updated,
        bind_of_ok written, bind_of_ok stored]
      rfl

/-- Deleting an entry succeeds if it is listed, and takes away what is at its place. -/
theorem erasure_eq_ok_iff : erasure r c name w = .ok outcome w' ↔ ∃ own w₁ place w₂,
    r.own c w = .ok own w₁ ∧ Table.get? (indexOf own) name = some (.str place) ∧
    storing r c (Table.erase (indexOf own) name) w₁ = .ok () w₂ ∧ outcome = .data (.str name) ∧
    (w₂.disk.exists? (c.path.join place) = false ∧ w' = w₂ ∨
      w₂.disk.exists? (c.path.join place) = true ∧
        ∃ d, Disk.removeDirs (c.path.join place) w₂.disk = .ok () d ∧ w' = { w₂ with disk := d }) := by
  rw [erasure]
  constructor
  · intro h
    obtain ⟨own, w₁, known, h⟩ := bind_eq_ok_iff.mp h
    cases listed : Table.get? (indexOf own) name with
    | none =>
        rw [listed] at h
        cases h
    | some place =>
        rw [listed] at h
        cases place with
        | str place =>
            obtain ⟨_, w₂, stored, h⟩ := bind_eq_ok_iff.mp h
            rw [bind_of_ok (get_apply w₂)] at h
            refine ⟨own, w₁, place, w₂, known, listed, stored, ?_⟩
            split at h
            · rename_i there
              obtain ⟨_, _, changed, h⟩ := bind_eq_ok_iff.mp h
              obtain ⟨d, removed, rfl⟩ := onDiskOr_eq_ok.mp changed
              cases h
              exact ⟨rfl, .inr ⟨there, d, removed, rfl⟩⟩
            · rename_i gone
              cases h
              exact ⟨rfl, .inl ⟨Bool.eq_false_iff.mpr gone, rfl⟩⟩
        | null | bool _ | int _ | float _ | arr _ | obj _ => cases h
  · rintro ⟨own, w₁, place, w₂, known, listed, stored, rfl, left⟩
    rw [bind_of_ok known, listed]
    dsimp only
    rw [bind_of_ok stored, bind_of_ok (get_apply w₂)]
    rcases left with ⟨gone, rfl⟩ | ⟨there, d, removed, rfl⟩
    · rw [gone, if_neg Bool.false_ne_true]
      rfl
    · rw [there, if_pos rfl, bind_of_ok (onDiskOr_eq_ok.mpr ⟨d, removed, rfl⟩)]
      rfl

end

/-! ### Calls -/

/-- An edit with what its operation is handed. -/
inductive Edit where
  | add (args : Args)
  | delete (args : Args)

namespace Edit

def operation : Edit → Operation
  | add _ => addEntry
  | delete _ => deleteEntry

def args : Edit → Args
  | add args | delete args => args

def name (edit : Edit) : Except Error String := edit.args.requireText "entry_name"

/-- What the body of the operation does. -/
def act (r : Registry) (c : Entry) : Edit → Action Outcome
  | add args => do
    let name ← Script.known (args.requireText "entry_name")
    let data ← Script.known (dataOf args)
    insertion r c name data
  | delete args => do
    let name ← Script.known (args.requireText "entry_name")
    erasure r c name

/-- Nothing is added under `.` or `..`. -/
def Ordinary : Edit → Prop
  | add args => ∀ name, args.requireText "entry_name" = .ok name → name ≠ "." ∧ name ≠ ".."
  | delete _ => True

theorem realizes (edit : Edit) (c : Entry) (method : String) :
    r.Realizes (edit.operation.body ⟨c, method, edit.args⟩) (edit.act r c) := by
  cases edit with
  | add args =>
      refine (Registry.Realizes.ofExcept _).bind fun name => ?_
      exact (Registry.Realizes.ofExcept _).bind fun data => realizes_insertEntry c name data
  | delete args => exact (Registry.Realizes.ofExcept _).bind fun name => realizes_eraseEntry c name

end Edit

theorem Edit.act_unnamed {edit : Edit} {err : Error} (r : Registry) (c : Entry) (w : World)
    (h : edit.name = .error err) : edit.act r c w = .error err w := by
  cases edit with
  | add args | delete args =>
      rw [act, show args.requireText "entry_name" = .error err from h]
      rfl

theorem Edit.act_add (r : Registry) (c : Entry) {args : Args} {name : String} {data : Params}
    (given : args.requireText "entry_name" = .ok name) (map : dataOf args = .ok data) :
    (Edit.add args).act r c = insertion r c name data := by
  rw [act, given, map]
  rfl

theorem Edit.act_delete (r : Registry) (c : Entry) {args : Args} {name : String}
    (given : args.requireText "entry_name" = .ok name) :
    (Edit.delete args).act r c = erasure r c name := by
  rw [act, given]
  rfl

/-- An invocation on a collection that comes down to an edit. -/
def Calls (r : Registry) (c : Entry) (edit : Edit) (answer : Except Error Outcome) (w w' : World) :
    Prop :=
  ∃ method positional named bag w₁,
    r.received c method positional named w = .ok ⟨edit.operation, edit.args, bag⟩ w₁ ∧
      r.invoke c method positional named w = result answer w'

/-- Invocations on a collection one after another, each of which comes down to an edit that is
allowed or is refused before that. -/
inductive Run (r : Registry) (c : Entry) (Allowed : World → Edit → Except Error Outcome → Prop) :
    World → List (Edit × Except Error Outcome) → World → Prop
  | done (w : World) : Run r c Allowed w [] w
  | edit {edit answer w w₁ log w'} (call : Calls r c edit answer w w₁)
      (allowed : Allowed w edit answer) (rest : Run r c Allowed w₁ log w') :
      Run r c Allowed w ((edit, answer) :: log) w'
  | refused {method positional named err w w₁ log w'}
      (call : r.received c method positional named w = .error err w₁)
      (rest : Run r c Allowed w₁ log w') : Run r c Allowed w log w'

variable {c : Entry} {edit : Edit} {answer : Except Error Outcome} {w w' : World}

/-- A call that comes down to an edit answers as this does, its errors with the call around them. -/
theorem Calls.of_act {method : String} {positional : List Json} {named bag : Params} {w₁ : World}
    {inner : Except Error Outcome}
    (received : r.received c method positional named w = .ok ⟨edit.operation, edit.args, bag⟩ w₁)
    (act : edit.act r c w₁ = result inner w') :
    Calls r c edit (inner.mapError (Error.within method c.name bag)) w w' := by
  refine ⟨method, positional, named, bag, w₁, received, ?_⟩
  obtain ⟨answered, left⟩ := result_inj.mp ((eq_result _ _).symm.trans act)
  rw [invoke, bind_of_ok received, runBody_eq, (edit.realizes c method).run, answered, left]

/-- A call looks up what its edit is handed, and then nothing comes after the edit. -/
theorem Calls.parts (h : Calls r c edit answer w w') :
    ∃ method positional named call w₁ inner, r.received c method positional named w = .ok call w₁ ∧
      edit.act r c w₁ = result inner w' ∧ ∀ outcome, answer = .ok outcome ↔ inner = .ok outcome := by
  obtain ⟨method, positional, named, bag, w₁, received, invoked⟩ := h
  rw [invoke, bind_of_ok received] at invoked
  obtain ⟨answered, left⟩ := result_inj.mp ((runBody_eq ..).symm.trans invoked)
  rw [(edit.realizes c method).run] at answered left
  refine ⟨method, positional, named, _, w₁, value (edit.act r c) w₁, received,
    left ▸ eq_result _ w₁, fun outcome => ?_⟩
  rw [← answered]
  cases value (edit.act r c) w₁ <;> simp [Except.mapError]

/-- Up to the edit the collection stays as it was. -/
theorem Calls.acts (h : Calls r c edit answer w w') (hosts : r.Hosts c w) :
    ∃ w₁ inner, r.Same c w w₁ ∧ edit.act r c w₁ = result inner w' ∧
      ∀ outcome, answer = .ok outcome ↔ inner = .ok outcome := by
  obtain ⟨method, positional, named, call, w₁, inner, received, act, answered⟩ := h.parts
  have same := ((received_leaves (fun _ => rfl) method positional named).of_ok hosts received).1
  exact ⟨w₁, inner, same, act, answered⟩

/-! ### A collection with nothing in it -/

namespace Sample

def shelf : Entry := ⟨0, ⟨"shelf"⟩, "shelf"⟩

def registry : Registry where
  base := ⟨"."⟩
  config := { collections := [⟨"shelf", ⟨"shelf"⟩⟩] }
  roots := [shelf]
  catalog := .ofList [Catalog.collection]
  builtins := []

/-- The document that holds the parameters of an entry. -/
def page (own : Params) : FileNode := .file (DocumentFormat.json.write (.obj own))

/-- The collection has been looked at once; besides there are other entries, and other nodes on the
disk. -/
def world (own : Params) (others : List (Entry × Cells)) (nodes : List (Location × FileNode)) :
    World where
  disk := ⟨["room"], (["room"], .dir) :: (["room", "shelf"], .dir) :: nodes⟩
  cells := { own, parent := some none, operations := some (some Catalog.collection) } ::
    others.map Prod.snd
  byPath := ([.name "shelf"], shelf) :: others.map fun other => (other.1.path.components, other.1)
  byName := [("shelf", shelf)]

/-- A call with a name by position and no more. -/
def given (op : Operation) (name : String) : Args := ⟨op.shape, ⟨[.str name], []⟩⟩

theorem isName_parameters : Component.IsName registry.config.parameters.file :=
  ⟨by decide, by decide, by decide⟩

/-- Where the registry starts, nothing has been looked at. -/
theorem start : ofConfig registry.config registry.base registry.catalog registry.builtins
    { disk := (world [] [] []).disk } =
      .ok registry ((world [] [] []).setCells shelf {}) := rfl

theorem hosts : registry.Hosts shelf (world [] [] []) := by
  have begun : registry.Hosts shelf ((world [] [] []).setCells shelf {}) :=
    hosts_of_later start (List.nodup_singleton _) .refl rfl
  have alone (p : Entry) (h : ((world [] [] []).cellsOf shelf).parent = some (some p)) :
      shelf.Proper p := by cases h
  exact begun.setCells shelf alone

theorem leads : (world [] [] []).disk.Leads shelf.path ["room", "shelf"] := ⟨rfl, rfl, rfl⟩

/-! #### A child, added and deleted -/

def child : Entry := ⟨1, ⟨"shelf/x"⟩, "x"⟩

def childIndexed : Params := [(indexKey, .obj [("x", .str "x")])]

def emptied : Params := [(indexKey, .obj [])]

def childAdded : World := world childIndexed [(child, { own := some [] })]
  [(["room", "shelf", "x"], .dir), (["room", "shelf", "x", "parameters.json"], page []),
    (["room", "shelf", "parameters.json"], page childIndexed)]

def childDeleted : World := world emptied [(child, { own := some [] })]
  [(["room", "shelf", "parameters.json"], page emptied)]

section

variable {name : String} {bag : Params} {outcome : Outcome} {w w' : World}

theorem adds (received : registry.received shelf "add_entry" [.str name] [] w =
      .ok ⟨addEntry, given addEntry name, bag⟩ w)
    (ok : insertion registry shelf name [] w = .ok outcome w') :
    Calls registry shelf (.add (given addEntry name)) (.ok outcome) w w' := by
  have act : (Edit.add (given addEntry name)).act registry shelf w = result (.ok outcome) w' := by
    rw [Edit.act_add registry shelf rfl rfl, ok, result]
  exact .of_act received act

theorem deletes (received : registry.received shelf "delete_entry" [.str name] [] w =
      .ok ⟨deleteEntry, given deleteEntry name, bag⟩ w)
    (ok : erasure registry shelf name w = .ok outcome w') :
    Calls registry shelf (.delete (given deleteEntry name)) (.ok outcome) w w' := by
  have act : (Edit.delete (given deleteEntry name)).act registry shelf w =
      result (.ok outcome) w' := by
    rw [Edit.act_delete registry shelf rfl, ok, result]
  exact .of_act received act

end

theorem adds_child : Calls registry shelf (.add (given addEntry "x")) (.ok (.entry child))
    (world [] [] []) childAdded := by
  refine adds (received_of_top rfl rfl rfl rfl rfl) (insertion_eq_ok_iff.mpr ⟨by decide, [], world [] [] [],
    (world [] [] [(["room", "shelf", "x"], .dir)]).disk, child,
    world [] [(child, {})] [(["room", "shelf", "x"], .dir)],
    world [] [(child, { own := some [] })] [(["room", "shelf", "x"], .dir)],
    world [] [(child, { own := some [] })] [(["room", "shelf", "x"], .dir),
      (["room", "shelf", "x", "parameters.json"], page [])], ?_⟩)
  exact ⟨rfl, rfl, rfl, rfl, rfl, rfl, rfl, rfl⟩

theorem deletes_child : Calls registry shelf (.delete (given deleteEntry "x"))
    (.ok (.data (.str "x"))) childAdded childDeleted := by
  refine deletes (received_of_top rfl rfl rfl rfl rfl) (erasure_eq_ok_iff.mpr ⟨childIndexed, childAdded, "x",
    world emptied [(child, { own := some [] })]
      [(["room", "shelf", "x"], .dir), (["room", "shelf", "x", "parameters.json"], page []),
        (["room", "shelf", "parameters.json"], page emptied)], ?_⟩)
  exact ⟨rfl, rfl, rfl, rfl, .inr ⟨rfl, childDeleted.disk, rfl, rfl⟩⟩

end Sample

end Collection
end Lineage
