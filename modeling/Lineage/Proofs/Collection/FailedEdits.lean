import Lineage.Catalog.Builtin
import Lineage.Proofs.Collection.Index
import Lineage.Proofs.Disk.Texts

/-!
Edits that fail. Own parameters are edited in memory, then stored, and a directory is removed last of
all; nothing is taken back. So an edit that fails leaves an entry as it was up to where its own document
is written, and can fail in two steps from there on.
-/
namespace Lineage

open World Action Registry
open Component (IsName)
open Disk (Grown)

/-- The text of the document that an entry has its own parameters in, if there is one. -/
def Registry.documentText (r : Registry) (c : Entry) (d : Disk) : Option String :=
  d.text? (c.path.join r.config.parameters.file)

/-- A change of the disk that leaves the document of an entry, where that is a file of the directory of
the entry. Elsewhere a directory that is made can open the way to another file. -/
def Registry.KeepsDocument (r : Registry) (c : Entry) (d d' : Disk) : Prop :=
  IsName r.config.parameters.file → r.documentText c d' = r.documentText c d

namespace Collection

/-! ### Changes -/

/-- A call by which the own parameters of an entry are changed and stored. -/
inductive Change where
  | update (args : Args)
  | edit (inner : Edit)

namespace Change

def operation : Change → Operation
  | update _ => Builtin.update
  | edit inner => inner.operation

def args : Change → Args
  | update args => args
  | edit inner => inner.args

def Ordinary : Change → Prop
  | update _ => True
  | edit inner => inner.Ordinary

/-- What the body of the operation does. -/
def act (r : Registry) (c : Entry) : Change → Action Outcome
  | update args => do
    let data ← Script.known (dataOf args)
    r.updateParameters c data
    r.persist c
    return .data (.obj (← r.own c))
  | edit inner => inner.act r c

/-- What a change makes of own parameters. -/
inductive Makes (own : Params) : Change → Params → Prop
  | update {args data} (given : dataOf args = .ok data) :
      Makes own (update args) (Table.overlay own data)
  | add {args name} (given : args.requireText "entry_name" = .ok name) :
      Makes own (edit (.add args))
        (Table.insert own indexKey (.obj (Table.insert (indexOf own) name (.str name))))
  | delete {args name} (given : args.requireText "entry_name" = .ok name) :
      Makes own (edit (.delete args))
        (Table.insert own indexKey (.obj (Table.erase (indexOf own) name)))

theorem realizes (r : Registry) (change : Change) (c : Entry) (method : String) :
    r.Realizes (change.operation.body ⟨c, method, change.args⟩) (change.act r c) := by
  cases change with
  | edit inner => exact inner.realizes c method
  | update args =>
      refine (Registry.Realizes.ofExcept _).bind fun data => ?_
      exact .request_bind fun _ => .request_bind fun _ => .request_bind fun _ => .done _

end Change

variable {r : Registry} {c e : Entry} {change : Change} {w w' : World} {own index data : Params}
  {name : String} {err : Error}

/-- What a failed change leaves behind. Own parameters and their document are as they were; or the
document could not be written, and only the own parameters are changed; or both are, and a directory
could not be removed. -/
inductive Failure (r : Registry) (c : Entry) (change : Change) (w w' : World) : Prop
  | untouched (memory : value (r.own c) w' = value (r.own c) w)
      (document : r.KeepsDocument c w.disk w'.disk)
  | unsaved {own made err w₁} (read : value (r.own c) w = .ok own) (makes : change.Makes own made)
      (refused : r.persist c w₁ = .error err w') (memory : value (r.own c) w' = .ok made)
      (document : r.KeepsDocument c w.disk w'.disk)
  | unremoved {own made args name place err d} (delete : change = .edit (.delete args))
      (read : value (r.own c) w = .ok own) (makes : change.Makes own made)
      (given : args.requireText "entry_name" = .ok name)
      (listed : Table.get? (indexOf own) name = some (.str place))
      (document : IsName r.config.parameters.file → ∃ rest dir, r.Stored c made d rest dir)
      (refused : Disk.removeDirs (c.path.join place) d = .error err w'.disk)
      (memory : value (r.own c) w' = .ok made)
      (kept : IsName r.config.parameters.file → IsName place → w'.disk = d)

theorem Failure.of_same (same : r.Same c w w') : Failure r c change w w' :=
  .untouched same.own fun _ => by rw [same.disk]

/-! ### Writes that are refused -/

theorem loaded_of_refused (loaded : r.OwnLoaded c own w)
    (refused : r.persist c w = .error err w') : r.OwnLoaded c own w' := by
  have kept := loaded.persist fun _ => rfl
  rwa [after_of_error refused] at kept

theorem documentText_of_refused (plain : IsName r.config.parameters.file)
    (loaded : r.OwnLoaded c own w) (refused : r.persist c w = .error err w') :
    ∃ d, Grown w.disk d ∧ r.documentText c w'.disk = r.documentText c d := by
  rcases persist_error loaded.known refused with rfl | ⟨whole, stored, -⟩
  · exact ⟨w'.disk, .refl _, rfl⟩
  · exact Disk.text?_of_store_error loaded.hosts.normal plain stored

theorem keepsDocument_of_refused (solid : w.disk.Solid) (loaded : r.OwnLoaded c own w)
    (refused : r.persist c w = .error err w') : r.KeepsDocument c w.disk w'.disk := by
  intro plain
  obtain ⟨d, grown, text⟩ := documentText_of_refused plain loaded refused
  exact text.trans (grown.text? loaded.hosts.normal plain solid)

theorem documentText_of_refused_of_leads {dir : Location} (plain : IsName r.config.parameters.file)
    (loaded : r.OwnLoaded c own w) (leads : w.disk.Leads c.path dir)
    (refused : r.persist c w = .error err w') :
    r.documentText c w'.disk = r.documentText c w.disk := by
  obtain ⟨d, grown, text⟩ := documentText_of_refused plain loaded refused
  exact text.trans (grown.text?_of_leads loaded.hosts.normal plain leads)

/-- To store an entry, or to fail to, changes the document of the entry around it no more than making
directories does. -/
theorem documentText_of_child (plain : IsName r.config.parameters.file)
    (loaded : r.OwnLoaded c own w) (proper : c.Proper e) (hn : IsName name)
    (place : e.path = c.path.join name) :
    ∃ d, Grown w.disk d ∧ r.documentText c (after (r.persist e) w).disk = r.documentText c d := by
  have normal := loaded.hosts.normal
  have disk := (loaded.own_other proper).2
  rcases after_persist r e w with same | ⟨whole, stored⟩
  · rw [same, disk]
    exact ⟨w.disk, .refl _, rfl⟩
  · obtain ⟨d, grown, left | ⟨inner, leads, within⟩⟩ :=
      Disk.store_grown (place ▸ Path.normalize_join normal hn) plain whole w.disk
    · refine ⟨d, grown, ?_⟩
      rw [stored, disk]
      exact congrArg _ left
    · obtain ⟨dir, outer, -, rfl⟩ := (place ▸ leads).of_join normal hn
      refine ⟨d, grown, ?_⟩
      rw [stored, disk]
      exact within.text? normal plain outer

theorem onDiskOr_eq_error {reason : DiskError → String} {act : DiskAction Unit} :
    onDiskOr reason act w = .error err w' ↔
      ∃ e d, act w.disk = .error e d ∧ err = .failed (reason e) ∧ w' = { w with disk := d } := by
  rw [onDiskOr, bind_apply, tryOnDisk]
  cases act w.disk with
  | ok u d => simp [pure_apply]
  | error e d => simp [throw_apply, eq_comm]

theorem own_error (hosts : r.Hosts c w) (failed : r.own c w = .error err w') : r.Same c w w' :=
  (own_leaves fun _ => rfl).of_error hosts failed

theorem byPath_ne_error (p : Path) (w : World) : byPath p w ≠ .error err w' := by
  intro failed
  cases listed : Table.get? w.byPath p.normalize.components with
  | some e => cases (byPath_of_known listed).symm.trans failed
  | none => cases (byPath_of_unknown listed).symm.trans failed

theorem updateParameters_ok (hosts : r.Hosts c w) (ok : r.updateParameters c data w = .ok () w') :
    ∃ own, value (r.own c) w = .ok own ∧ r.OwnLoaded c (Table.overlay own data) w' ∧
      w'.disk = w.disk := by
  obtain ⟨own, w₁, load, changed⟩ := bind_eq_ok_iff.mp ok
  cases changed
  obtain ⟨loaded, disk, read⟩ := loaded_of_own hosts load
  exact ⟨own, read, loaded.setOwn_self _, disk⟩

theorem updateParameters_error (hosts : r.Hosts c w)
    (failed : r.updateParameters c data w = .error err w') : r.Same c w w' := by
  rcases bind_eq_error_iff.mp failed with failed | ⟨_, _, -, failed⟩
  · exact own_error hosts failed
  · cases failed

/-- An index that is not stored is known all the same. -/
theorem storing_error (loaded : r.OwnLoaded c own w) (failed : storing r c index w = .error err w') :
    ∃ w₁, r.OwnLoaded c (Table.insert own indexKey (.obj index)) w₁ ∧ w₁.disk = w.disk ∧
      r.persist c w₁ = .error err w' := by
  obtain ⟨w₁, set, loaded₁, disk⟩ := loaded.setParameter indexKey (.obj index)
  rw [storing, bind_of_ok set] at failed
  exact ⟨w₁, loaded₁, disk, failed⟩

/-! ### Changes that fail -/

theorem update_failure {args : Args} (hosts : r.Hosts c w) (solid : w.disk.Solid)
    (given : dataOf args = .ok data) (failed : (Change.update args).act r c w = .error err w') :
    Failure r c (.update args) w w' := by
  rw [Change.act, given] at failed
  replace failed : (do
    r.updateParameters c data
    r.persist c
    return .data (.obj (← r.own c)) : Action Outcome) w = .error err w' := failed
  rcases bind_eq_error_iff.mp failed with failed | ⟨_, w₁, updated, failed⟩
  · exact .of_same (updateParameters_error hosts failed)
  obtain ⟨own, read, loaded, disk⟩ := updateParameters_ok hosts updated
  rcases bind_eq_error_iff.mp failed with refused | ⟨_, w₂, written, failed⟩
  · exact .unsaved read (.update given) refused (loaded_of_refused loaded refused).value
      (disk ▸ keepsDocument_of_refused (disk ▸ solid) loaded refused)
  · -- The own parameters are loaded, so they can be answered with.
    have kept := loaded.persist fun _ => rfl
    rw [after_of_ok written] at kept
    rw [bind_of_ok kept.own_ok] at failed
    cases failed

theorem insertion_failure {args : Args} (hosts : r.Hosts c w) (solid : w.disk.Solid)
    (given : args.requireText "entry_name" = .ok name) (ordinary : name ≠ "." ∧ name ≠ "..")
    (failed : insertion r c name data w = .error err w') :
    Failure r c (.edit (.add args)) w w' := by
  rw [insertion] at failed
  split at failed
  · cases failed
    exact .of_same (.refl hosts)
  rename_i accepted
  have hn := isName_of_accepted accepted ordinary
  rcases bind_eq_error_iff.mp failed with failed | ⟨own, w₁, load, failed⟩
  · exact .of_same (own_error hosts failed)
  obtain ⟨loaded, disk, read⟩ := loaded_of_own hosts load
  -- Up to where the collection is stored there are more directories, and what the child has.
  have untouched {w' : World} (kept : r.OwnLoaded c own w') (text : IsName r.config.parameters.file →
      ∃ d, Grown w.disk d ∧ r.documentText c w'.disk = r.documentText c d) :
      Failure r c (.edit (.add args)) w w' := by
    refine .untouched (kept.value.trans read.symm) fun plain => ?_
    obtain ⟨d, grown, text⟩ := text plain
    exact text.trans (grown.text? hosts.normal plain solid)
  split at failed
  · cases failed
    exact untouched loaded fun _ => ⟨w.disk, .refl _, by rw [disk]⟩
  have grown := Disk.makeDirs_grown (c.path.join name) w₁.disk
  rcases bind_eq_error_iff.mp failed with failed | ⟨_, w₂, made, failed⟩
  · obtain ⟨e, d, refused, -, rfl⟩ := onDiskOr_eq_error.mp failed
    rw [Disk.left, refused, disk] at grown
    exact untouched (loaded.onDisk d) fun _ => ⟨d, grown, rfl⟩
  obtain ⟨d, created, rfl⟩ := onDiskOr_eq_ok.mp made
  rw [Disk.left_of_ok created, disk] at grown
  rcases bind_eq_error_iff.mp failed with failed | ⟨e, w₂, found, failed⟩
  · exact absurd failed (byPath_ne_error _ _)
  obtain ⟨loaded₂, disk₂, proper, place⟩ := (loaded.onDisk d).byPath found
  rw [Path.normalize_join hosts.normal hn] at place
  obtain ⟨edited, disk₃⟩ := loaded₂.updateParameters (id_ne_of_join hosts.normal hn proper place) data
  rw [disk₂] at disk₃
  rcases bind_eq_error_iff.mp failed with failed | ⟨_, w₃, updated, failed⟩
  · rw [after_of_error failed] at edited disk₃
    exact untouched edited fun _ => ⟨d, grown, by rw [disk₃]⟩
  rw [after_of_ok updated] at edited disk₃
  have stored := edited.persist proper
  have text (plain : IsName r.config.parameters.file) : ∃ d, Grown w.disk d ∧
      r.documentText c (after (r.persist e) w₃).disk = r.documentText c d := by
    obtain ⟨d₄, grown₄, text₄⟩ := documentText_of_child plain edited proper hn place
    rw [disk₃] at grown₄
    exact ⟨d₄, grown.trans grown₄, text₄⟩
  rcases bind_eq_error_iff.mp failed with failed | ⟨_, w₄, written, failed⟩
  · rw [after_of_error failed] at text stored
    exact untouched stored text
  rw [after_of_ok written] at text stored
  rcases bind_eq_error_iff.mp failed with failed | ⟨_, w₅, -, failed⟩
  · obtain ⟨w₅, indexed, disk₅, refused⟩ := storing_error stored failed
    refine .unsaved read (.add given) refused (loaded_of_refused indexed refused).value fun plain => ?_
    -- The child is stored, so the way to the directory of the collection is open already.
    obtain ⟨_, leads⟩ := leads_of_persist plain (place ▸ Path.normalize_join hosts.normal hn) written
    obtain ⟨dir, outer, -⟩ := (place ▸ leads).of_join hosts.normal hn
    obtain ⟨d, grown, text₄⟩ := text plain
    calc r.documentText c w'.disk
      _ = r.documentText c w₅.disk :=
        documentText_of_refused_of_leads plain indexed (disk₅ ▸ outer) refused
      _ = r.documentText c w₄.disk := by rw [disk₅]
      _ = r.documentText c d := text₄
      _ = r.documentText c w.disk := grown.text? hosts.normal plain solid
  · cases failed

theorem erasure_failure {args : Args} (hosts : r.Hosts c w) (solid : w.disk.Solid)
    (given : args.requireText "entry_name" = .ok name)
    (failed : erasure r c name w = .error err w') : Failure r c (.edit (.delete args)) w w' := by
  rw [erasure] at failed
  rcases bind_eq_error_iff.mp failed with failed | ⟨own, w₁, load, failed⟩
  · exact .of_same (own_error hosts failed)
  obtain ⟨loaded, disk, read⟩ := loaded_of_own hosts load
  have unlisted : Failure r c (.edit (.delete args)) w w₁ :=
    .untouched (loaded.value.trans read.symm) fun _ => by rw [disk]
  cases listed : Table.get? (indexOf own) name with
  | none =>
      rw [listed] at failed
      cases failed
      exact unlisted
  | some place =>
      rw [listed] at failed
      cases place with
      | null | bool _ | int _ | float _ | arr _ | obj _ =>
          cases failed
          exact unlisted
      | str place =>
          rcases bind_eq_error_iff.mp failed with failed | ⟨_, w₂, stored, failed⟩
          · obtain ⟨w₂, indexed, disk₂, refused⟩ := storing_error loaded failed
            rw [disk] at disk₂
            exact .unsaved read (.delete given) refused (loaded_of_refused indexed refused).value
              (disk₂ ▸ keepsDocument_of_refused (disk₂ ▸ solid) indexed refused)
          · rw [bind_of_ok (get_apply w₂)] at failed
            split at failed
            · rcases bind_eq_error_iff.mp failed with failed | ⟨_, _, -, failed⟩
              · obtain ⟨e, d, refused, -, rfl⟩ := onDiskOr_eq_error.mp failed
                have kept := storing_loaded loaded stored
                refine .unremoved rfl read (.delete given) given listed
                  (fun plain => (storing_ok plain loaded stored).stored) refused
                  (kept.onDisk d).value fun plain hp => ?_
                -- What is refused for a name in the directory is refused before anything is removed.
                obtain ⟨rest, dir, document⟩ := (storing_ok plain loaded stored).stored
                rcases Disk.removeDirs_join hosts.normal hp document.leads with ⟨_, same⟩ | ⟨-, gone⟩
                · cases same.symm.trans refused
                  rfl
                · cases gone.symm.trans refused
              · cases failed
            · cases failed

theorem act_failure (hosts : r.Hosts c w) (solid : w.disk.Solid) (ordinary : change.Ordinary)
    (failed : change.act r c w = .error err w') : Failure r c change w w' := by
  -- An argument that is missing or unfit is all that an edit can fail for before the entry is read.
  have unfit {α : Type} {a : Except Error α} {next : α → Action Outcome}
      (failed : (Script.known a >>= next) w = .error err w')
      (fit : ∀ b, a = .ok b → next b w = .error err w' → Failure r c change w w') :
      Failure r c change w w' := by
    cases a with
    | error err =>
        cases failed
        exact .of_same (.refl hosts)
    | ok b => exact fit b rfl failed
  cases change with
  | update args =>
      exact unfit failed fun data given _ => update_failure hosts solid given failed
  | edit inner =>
      cases inner with
      | add args =>
          exact unfit failed fun name given failed => unfit failed fun data _ failed =>
            insertion_failure hosts solid given (ordinary name given) failed
      | delete args =>
          exact unfit failed fun name given failed => erasure_failure hosts solid given failed

/-! ### Calls that fail -/

/-- What was so before a lookup can be said of the world before that. -/
theorem Failure.of_later {w₁ : World} (same : r.Same c w w₁) (h : Failure r c change w₁ w') :
    Failure r c change w w' := by
  have read {own : Params} (read : value (r.own c) w₁ = .ok own) : value (r.own c) w = .ok own :=
    same.own.symm.trans read
  cases h with
  | untouched memory document => exact .untouched (memory.trans same.own) (same.disk ▸ document)
  | unsaved read₁ makes refused memory document =>
      exact .unsaved (read read₁) makes refused memory (same.disk ▸ document)
  | unremoved delete read₁ makes given listed document refused memory kept =>
      exact .unremoved delete (read read₁) makes given listed document refused memory kept

variable {method : String} {positional : List Json} {named : Params}

/-- A call fails as its change does, with the call around the error. -/
theorem invoke_of_act_error (change : Change) {bag : Params} {w₁ : World}
    (received : r.received c method positional named w =
      .ok ⟨change.operation, change.args, bag⟩ w₁)
    (act : change.act r c w₁ = .error err w') :
    r.invoke c method positional named w = .error (err.within method c.name bag) w' := by
  rw [invoke, bind_of_ok received, runBody_eq, (change.realizes r c method).run, value, after, act]
  rfl

/-- A call that fails, at whatever step, has changed nothing of an entry and its document but for two
steps after which nothing is taken back. Where the document cannot be written, the change stays in memory.
Where a directory cannot be removed, the entry stays deleted in memory and in the document. -/
theorem failed_change (hosts : r.Hosts c w) (solid : w.disk.Solid) (ordinary : change.Ordinary)
    (comes : ∀ call w₁, r.received c method positional named w = .ok call w₁ →
      call.operation = change.operation ∧ call.args = change.args)
    (failed : r.invoke c method positional named w = .error err w') : Failure r c change w w' := by
  rw [invoke] at failed
  have looks := received_leaves (r := r) (c := c) (fun _ => rfl) method positional named
  rcases bind_eq_error_iff.mp failed with failed | ⟨call, w₁, received, failed⟩
  · exact .of_same (looks.of_error hosts failed)
  · obtain ⟨operation, args⟩ := comes call w₁ received
    have same := (looks.of_ok hosts received).1
    rw [runBody_eq, operation, args, (change.realizes r c method).run] at failed
    obtain ⟨answered, left⟩ := error_eq_result.mp failed.symm
    refine .of_later same ?_
    cases refused : value (change.act r c) w₁ with
    | ok outcome =>
        rw [refused] at answered
        cases answered
    | error inner =>
        have act : change.act r c w₁ = .error inner w' := by
          rw [eq_result (change.act r c) w₁, refused, left]
          rfl
        exact act_failure same.hosts (same.disk ▸ solid) ordinary act

namespace Sample

/-! #### A child is added, and its collection cannot be written -/

def temporary : Location := ["room", "shelf", "parameters.json.tmp"]

def jammed : World := world [] [] [(temporary, .dir)]

/-- The child beside a collection that does not have it yet. -/
def begun (own : Option Params) (nodes : List (Location × FileNode)) : World :=
  world [] [(child, { own })] ((temporary, .dir) :: (["room", "shelf", "x"], .dir) :: nodes)

def childPage : Location × FileNode := (["room", "shelf", "x", "parameters.json"], page [])

def halfAdded : World := world childIndexed [(child, { own := some [] })]
  [(temporary, .dir), (["room", "shelf", "x"], .dir), childPage]

theorem insertion_jams : insertion registry shelf "x" [] jammed =
    .error (.storage ⟨"shelf/parameters.json.tmp"⟩ "cannot write: os error 21") halfAdded := by
  have load : registry.own shelf jammed = .ok [] jammed := rfl
  have made (reason : DiskError → String) :
      onDiskOr reason (Disk.makeDirs (shelf.path.join "x")) jammed =
        .ok () { jammed with disk := (begun none []).disk } :=
    onDiskOr_eq_ok.mpr ⟨_, rfl, rfl⟩
  have found : byPath (shelf.path.join "x") { jammed with disk := (begun none []).disk } =
      .ok child (begun none []) := rfl
  have updated : registry.updateParameters child [] (begun none []) = .ok () (begun (some []) []) :=
    rfl
  have written : registry.persist child (begun (some []) []) = .ok () (begun (some []) [childPage]) :=
    rfl
  have refused : storing registry shelf [("x", .str "x")] (begun (some []) [childPage]) =
      .error (.storage ⟨"shelf/parameters.json.tmp"⟩ "cannot write: os error 21") halfAdded := rfl
  rw [insertion, if_neg (by decide), bind_of_ok load, if_neg (by decide), bind_of_ok (made _),
    bind_of_ok found, bind_of_ok updated, bind_of_ok written]
  exact bind_of_error refused _

/-! #### A child is deleted, and a file stands in the place of its directory -/

def stuck (index : Params) : World := world index []
  [(["room", "shelf", "x"], .file "in the way"), (["room", "shelf", "parameters.json"], page index)]

theorem erasure_sticks : erasure registry shelf "x" (stuck childIndexed) =
    .error (.failed "cannot remove shelf/x: os error 20") (stuck emptied) := by
  have load : registry.own shelf (stuck childIndexed) = .ok childIndexed (stuck childIndexed) := rfl
  have listed : Table.get? (indexOf childIndexed) "x" = some (.str "x") := rfl
  have stored : storing registry shelf (Table.erase (indexOf childIndexed) "x") (stuck childIndexed) =
      .ok () (stuck emptied) := rfl
  have refused (reason : DiskError → String) :
      onDiskOr reason (Disk.removeDirs (shelf.path.join "x")) (stuck emptied) =
        .error (.failed (reason .notDirectory)) (stuck emptied) :=
    onDiskOr_eq_error.mpr ⟨_, _, rfl, rfl, rfl⟩
  have there : (stuck emptied).disk.exists? (shelf.path.join "x") = true := rfl
  rw [erasure, bind_of_ok load, listed]
  dsimp only
  rw [bind_of_ok stored, bind_of_ok (get_apply _), if_pos there]
  exact bind_of_error (refused _) _

theorem adding_received : registry.received shelf "add_entry" [.str "x"] [] jammed =
    .ok ⟨addEntry, given addEntry "x", []⟩ jammed :=
  received_of_top rfl rfl rfl rfl rfl

theorem deleting_received :
    registry.received shelf "delete_entry" [.str "x"] [] (stuck childIndexed) =
      .ok ⟨deleteEntry, given deleteEntry "x", childIndexed⟩ (stuck childIndexed) :=
  received_of_top rfl rfl rfl rfl rfl

theorem adding_fails : registry.invoke shelf "add_entry" [.str "x"] [] jammed =
    .error (.within "add_entry" "shelf" []
      (.storage ⟨"shelf/parameters.json.tmp"⟩ "cannot write: os error 21")) halfAdded := by
  refine invoke_of_act_error (.edit (.add (given addEntry "x"))) adding_received ?_
  exact (congrFun (Edit.act_add registry shelf rfl rfl) jammed).trans insertion_jams

theorem deleting_fails :
    registry.invoke shelf "delete_entry" [.str "x"] [] (stuck childIndexed) =
      .error (.within "delete_entry" "shelf" childIndexed
        (.failed "cannot remove shelf/x: os error 20")) (stuck emptied) := by
  refine invoke_of_act_error (.edit (.delete (given deleteEntry "x"))) deleting_received ?_
  exact (congrFun (Edit.act_delete registry shelf rfl) _).trans erasure_sticks

/-! #### A document that is not in the directory of its entry -/

/-- The way to the parameters is by a directory that need not be there. -/
def sideways : Registry :=
  { registry with config := { registry.config with parameters := ⟨"y/../parameters.json", []⟩ } }

def barred : World := world childIndexed []
  [(temporary, .dir), (["room", "shelf", "parameters.json"], page [])]

def opened : World := world emptied []
  [(temporary, .dir), (["room", "shelf", "parameters.json"], page []), (["room", "shelf", "y"], .dir)]

theorem erasure_opens : erasure sideways shelf "x" barred =
    .error (.storage ⟨"shelf/y/../parameters.json.tmp"⟩ "cannot write: os error 21") opened := by
  have load : sideways.own shelf barred = .ok childIndexed barred := rfl
  have listed : Table.get? (indexOf childIndexed) "x" = some (.str "x") := rfl
  have refused : storing sideways shelf (Table.erase (indexOf childIndexed) "x") barred =
      .error (.storage ⟨"shelf/y/../parameters.json.tmp"⟩ "cannot write: os error 21") opened := rfl
  rw [erasure, bind_of_ok load, listed]
  exact bind_of_error refused _

theorem sideways_received : sideways.received shelf "delete_entry" [.str "x"] [] barred =
    .ok ⟨deleteEntry, given deleteEntry "x", childIndexed⟩ barred :=
  received_of_top rfl rfl rfl rfl rfl

theorem sideways_fails : sideways.invoke shelf "delete_entry" [.str "x"] [] barred =
    .error (.within "delete_entry" "shelf" childIndexed
      (.storage ⟨"shelf/y/../parameters.json.tmp"⟩ "cannot write: os error 21")) opened := by
  refine invoke_of_act_error (.edit (.delete (given deleteEntry "x"))) sideways_received ?_
  exact (congrFun (Edit.act_delete sideways shelf rfl) _).trans erasure_opens

/-- A child that could not be added is in the index in memory. One that could not be deleted is in the
index no more, neither in memory nor in the document. And a write that is refused can have opened the
way to a document, where the parameters file is no plain name. -/
theorem failed_edits_leave_traces :
    ((∃ err, registry.invoke shelf "add_entry" [.str "x"] [] jammed = .error err halfAdded) ∧
      value (registry.own shelf) jammed = .ok [] ∧
      value (registry.own shelf) halfAdded = .ok childIndexed) ∧
    ((∃ err, registry.invoke shelf "delete_entry" [.str "x"] [] (stuck childIndexed) =
        .error err (stuck emptied)) ∧
      value (registry.own shelf) (stuck childIndexed) = .ok childIndexed ∧
      value (registry.own shelf) (stuck emptied) = .ok emptied ∧ childIndexed ≠ emptied ∧
      registry.documentText shelf (stuck childIndexed).disk =
        some (DocumentFormat.json.write (.obj childIndexed)) ∧
      registry.documentText shelf (stuck emptied).disk =
        some (DocumentFormat.json.write (.obj emptied))) ∧
    (∃ err, sideways.invoke shelf "delete_entry" [.str "x"] [] barred = .error err opened) ∧
      sideways.documentText shelf barred.disk = none ∧
      sideways.documentText shelf opened.disk = some (DocumentFormat.json.write (.obj [])) :=
  ⟨⟨⟨_, adding_fails⟩, rfl, rfl⟩,
    ⟨⟨_, deleting_fails⟩, rfl, rfl, by simp [childIndexed, emptied], rfl, rfl⟩,
    ⟨_, sideways_fails⟩, rfl, rfl⟩

theorem solid_jammed : jammed.disk.Solid :=
  Disk.solid_of_nodes (by decide) (by decide)

theorem adding_keeps_document :
    Failure registry shelf (.edit (.add (given addEntry "x"))) jammed halfAdded := by
  refine failed_change (hosts.onDisk _) solid_jammed (fun name h => ?_)
    (fun call w₁ received => ?_) adding_fails
  · cases h
    decide
  · cases adding_received.symm.trans received
    exact ⟨rfl, rfl⟩

end Sample

end Collection
end Lineage
