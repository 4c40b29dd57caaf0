import Lineage.Proofs.Collection.Edits

/-!
Where edits of a collection reach. The index of a collection that began without one names children of
its directory only, so what is added and deleted by name stays within that directory.
-/
namespace Lineage

open World Action Registry
open Component (IsName)
open Disk (Within Below Leads)

namespace Collection

/-- A collection in a directory, the index of which names children only. -/
structure Placed (r : Registry) (c : Entry) (dir : Location) (w : World) : Prop where
  hosts : r.Hosts c w
  leads : w.disk.Leads c.path dir
  index : ∀ own, value (r.own c) w = .ok own → Children (indexOf own)

variable {r : Registry} {c e : Entry} {dir : Location} {own : Params} {w w' : World} {name : String}

/-- A change within the directory of a collection, which is in its place as before. -/
structure Contained (r : Registry) (c : Entry) (dir : Location) (w w' : World) : Prop where
  disk : Within dir (dir ++ [r.config.parameters.file]) w.disk w'.disk
  placed : Placed r c dir w'

theorem Contained.refl (h : Placed r c dir w) : Contained r c dir w w := ⟨.refl _ _ _, h⟩

theorem Contained.trans {w'' : World} (h : Contained r c dir w w') (h' : Contained r c dir w' w'') :
    Contained r c dir w w'' :=
  ⟨h.disk.trans h'.disk, h'.placed⟩

namespace Placed

theorem children (h : Placed r c dir w) (loaded : r.OwnLoaded c own w) : Children (indexOf own) :=
  h.index own loaded.value

/-- Lookups leave a collection in its place. -/
theorem same (h : Placed r c dir w) (same : r.Same c w w') : Contained r c dir w w' := by
  refine ⟨same.disk ▸ .refl _ _ _, same.hosts, same.disk ▸ h.leads, fun own hv => ?_⟩
  exact h.index own (same.own ▸ hv)

theorem step (h : Placed r c dir w)
    (disk : Within dir (dir ++ [r.config.parameters.file]) w.disk w'.disk)
    (loaded : r.OwnLoaded c own w') (children : Children (indexOf own)) : Contained r c dir w w' := by
  refine ⟨disk, loaded.hosts, h.leads.within h.hosts.normal disk, fun own' hv => ?_⟩
  cases hv.symm.trans loaded.value
  exact children

end Placed

/-- An action that does no more than that wherever it starts with `P`, and answers with `Q`. -/
def Contains {α : Type} (r : Registry) (c : Entry) (dir : Location) (P : World → Prop)
    (act : Action α) (Q : α → World → Prop) : Prop :=
  ∀ w, Placed r c dir w → P w →
    Contained r c dir w (after act w) ∧ ∀ a w', act w = .ok a w' → Q a w'

section

variable {α β : Type} {P : World → Prop} {Q : α → World → Prop} {S : β → World → Prop}

theorem contains_pure {a : α} (h : ∀ w, P w → Q a w) : Contains r c dir P (pure a) Q := by
  intro w placed hp
  refine ⟨.refl placed, fun b w' hb => ?_⟩
  cases hb
  exact h w hp

theorem contains_throw (e : Error) : Contains r c dir P (throw e : Action α) Q :=
  fun _ placed _ => ⟨.refl placed, fun _ _ h => nomatch h⟩

/-- What does not depend on the world can be known beforehand. -/
theorem contains_of_fact {p : Prop} {act : Action α} (h : p → Contains r c dir P act Q) :
    Contains r c dir (fun w => P w ∧ p) act Q :=
  fun w placed hp => h hp.2 w placed hp.1

theorem Contains.bind {act : Action α} {next : α → Action β} (h : Contains r c dir P act Q)
    (hn : ∀ a, Contains r c dir (Q a) (next a) S) : Contains r c dir P (act >>= next) S := by
  intro w placed hp
  obtain ⟨contained, answers⟩ := h w placed hp
  refine bind_rule contained fun a w₁ ha => ?_
  rw [after_of_ok ha] at contained
  obtain ⟨contained', answers'⟩ := hn a w₁ contained.placed (answers a w₁ ha)
  exact ⟨contained.trans contained', answers'⟩

theorem Contains.get_bind {next : World → Action α} (h : ∀ w, Contains r c dir P (next w) Q) :
    Contains r c dir P (get >>= next) Q :=
  fun w => h w w

end

/-! ### The steps of an edit -/

theorem known_contains {α : Type} {P : World → Prop} (a : Except Error α) :
    Contains r c dir P (Script.known a) fun b w => a = .ok b ∧ P w := by
  intro w placed hp
  cases a with
  | ok a =>
      refine ⟨.refl placed, fun b w' hb => ?_⟩
      cases hb
      exact ⟨rfl, hp⟩
  | error e =>
      refine ⟨.refl placed, fun _ _ h => ?_⟩
      cases h

theorem own_contains : Contains r c dir any (r.own c) fun own w => r.OwnLoaded c own w := by
  intro w placed _
  refine ⟨placed.same (own_leaves (fun _ => rfl) w placed.hosts).1, fun own w' ho => ?_⟩
  exact (loaded_of_own placed.hosts ho).1

/-- A change of the disk within the directory of a collection. -/
theorem onDiskOr_contains (reason : DiskError → String) {act : DiskAction Unit}
    {D : Disk → Prop} (h : ∀ d, d.Leads c.path dir →
      Within dir (dir ++ [r.config.parameters.file]) d (Disk.left act d) ∧
        ∀ d', act d = .ok () d' → D d') :
    Contains r c dir (r.OwnLoaded c own) (onDiskOr reason act)
      fun _ w => r.OwnLoaded c own w ∧ D w.disk := by
  intro w placed loaded
  obtain ⟨within, done⟩ := h w.disk placed.leads
  have step (d : Disk) (hd : Disk.left act w.disk = d) :
      Contained r c dir w { w with disk := d } :=
    placed.step (hd ▸ within) (loaded.onDisk d) (placed.children loaded)
  rw [after, onDiskOr, bind_apply, tryOnDisk]
  cases ha : act w.disk with
  | ok u d =>
      refine ⟨step d (Disk.left_of_ok ha), fun _ w' hw => ?_⟩
      cases hw
      exact ⟨loaded.onDisk d, done d ha⟩
  | error e d =>
      refine ⟨step d (by rw [Disk.left, ha]), fun _ w' hw => ?_⟩
      cases hw

theorem byPath_contains (path : Path) {D : Disk → Prop} :
    Contains r c dir (fun w => r.OwnLoaded c own w ∧ D w.disk) (byPath path) fun e w =>
      (r.OwnLoaded c own w ∧ D w.disk) ∧ c.Proper e ∧ e.path = path.normalize := by
  intro w placed ⟨loaded, hd⟩
  refine ⟨placed.same (byPath_leaves path w placed.hosts).1, fun e w' he => ?_⟩
  obtain ⟨loaded', disk, proper, place⟩ := loaded.byPath he
  exact ⟨⟨loaded', disk ▸ hd⟩, proper, place⟩

theorem updateParameters_contains (ne : e.id ≠ c.id) (data : Params) {D : Disk → Prop} :
    Contains r c dir (fun w => r.OwnLoaded c own w ∧ D w.disk) (r.updateParameters e data)
      fun _ w => r.OwnLoaded c own w ∧ D w.disk := by
  intro w placed ⟨loaded, hd⟩
  obtain ⟨loaded', disk⟩ := loaded.updateParameters ne data
  refine ⟨placed.step (disk ▸ .refl _ _ _) loaded' (placed.children loaded), fun _ w' h => ?_⟩
  rw [after_of_ok h] at loaded' disk
  exact ⟨loaded', disk ▸ hd⟩

/-- The directory of a child is there. -/
def HasChild (c : Entry) (dir : Location) (name : String) (d : Disk) : Prop :=
  d.Leads (c.path.join name) (dir ++ [name])

/-- An entry of a child is written in the directory of the child. -/
theorem persist_contains (plain : IsName r.config.parameters.file) (hn : IsName name)
    (proper : c.Proper e) (place : e.path = c.path.join name) :
    Contains r c dir (fun w => r.OwnLoaded c own w ∧ HasChild c dir name w.disk) (r.persist e)
      fun _ w => r.OwnLoaded c own w := by
  intro w placed ⟨loaded, leads⟩
  obtain ⟨loaded₁, disk⟩ := loaded.own_other proper
  have normal := Path.normalize_join placed.hosts.normal hn
  have loaded' := loaded.persist proper
  have disk' : Within dir (dir ++ [r.config.parameters.file]) w.disk
      (after (r.persist e) w).disk := by
    rcases after_persist r e w with same | ⟨whole, stored⟩
    · rw [same, disk]
      exact .refl _ _ _
    · rw [stored, disk, place]
      exact (Disk.store_within normal plain leads whole).outward (Disk.not_below_sibling dir _ _)
  refine ⟨placed.step disk' loaded' (placed.children loaded), fun _ w' h => ?_⟩
  rwa [after_of_ok h] at loaded'

theorem storing_contains (plain : IsName r.config.parameters.file) {index : Params}
    (children : Children index) :
    Contains r c dir (r.OwnLoaded c own) (storing r c index)
      fun _ w => r.OwnLoaded c (Table.insert own indexKey (.obj index)) w := by
  intro w placed loaded
  obtain ⟨w₁, set, loaded₁, disk₁⟩ := loaded.setParameter indexKey (.obj index)
  have loaded' := loaded₁.persist fun _ => rfl
  have disk' : Within dir (dir ++ [r.config.parameters.file]) w.disk
      (after (r.persist c) w₁).disk := by
    rcases after_persist r c w₁ with same | ⟨whole, stored⟩
    · rw [same, after_of_ok loaded₁.own_ok, disk₁]
      exact .refl _ _ _
    · rw [stored, after_of_ok loaded₁.own_ok, disk₁]
      exact Disk.store_within placed.hosts.normal plain placed.leads whole
  have ran := bind_of_ok set fun _ => r.persist c
  have hafter : after (storing r c index) w = after (r.persist c) w₁ := by
    rw [after, after, storing, ran]
  rw [hafter]
  refine ⟨placed.step disk' loaded' ((indexOf_insert own index).symm ▸ children), fun _ w' h => ?_⟩
  rw [storing, ran] at h
  rwa [after_of_ok h] at loaded'

/-- The index of a collection that is loaded names children. -/
theorem contains_of_children {α : Type} {act : Action α} {Q : α → World → Prop}
    (h : Children (indexOf own) → Contains r c dir (r.OwnLoaded c own) act Q) :
    Contains r c dir (r.OwnLoaded c own) act Q :=
  fun w placed loaded => h (placed.children loaded) w placed loaded

/-! ### Edits -/

theorem insertion_contains (plain : IsName r.config.parameters.file)
    (normal : c.path.normalize = c.path) (ordinary : name ≠ "." ∧ name ≠ "..") (data : Params) :
    Contains r c dir any (insertion r c name data) fun outcome _ =>
      IsName name ∧ ∃ e, outcome = .entry e ∧ e.path = c.path.join name := by
  rw [insertion]
  split
  · exact contains_throw _
  · rename_i accepted
    have hn := isName_of_accepted accepted ordinary
    refine own_contains.bind fun own => ?_
    split
    · exact contains_throw _
    · refine (onDiskOr_contains (D := HasChild c dir name) _
        fun d leads => ⟨Disk.makeDirs_within normal hn leads,
          fun d' => Disk.makeDirs_leads normal hn leads⟩).bind fun _ => ?_
      refine (byPath_contains (D := HasChild c dir name) _).bind fun e =>
        contains_of_fact fun fact => ?_
      obtain ⟨proper, place⟩ := fact
      rw [Path.normalize_join normal hn] at place
      have ne := id_ne_of_join normal hn proper place
      refine (updateParameters_contains ne data).bind fun _ => ?_
      refine (persist_contains plain hn proper place).bind fun _ => ?_
      refine contains_of_children fun children => ?_
      exact (storing_contains plain (children.insert name hn)).bind fun _ =>
        contains_pure fun _ _ => ⟨hn, e, rfl, place⟩

theorem erasure_contains (plain : IsName r.config.parameters.file)
    (normal : c.path.normalize = c.path) (name : String) :
    Contains r c dir any (erasure r c name) fun outcome _ => outcome = .data (.str name) := by
  refine own_contains.bind fun own => contains_of_children fun children => ?_
  split
  · exact contains_throw _
  · rename_i place found
    obtain ⟨_, he, hp⟩ := children.get? found
    cases he
    refine (storing_contains plain (children.erase name)).bind fun _ => .get_bind fun w => ?_
    split
    · refine (onDiskOr_contains (D := fun _ => True) _ fun d leads =>
        ⟨Disk.removeDirs_within normal hp leads, fun _ _ => trivial⟩).bind fun _ => ?_
      exact contains_pure fun _ _ => rfl
    · exact contains_pure fun _ _ => rfl
  · exact contains_throw _

theorem act_contains (plain : IsName r.config.parameters.file)
    (normal : c.path.normalize = c.path) {edit : Edit} (ordinary : edit.Ordinary) :
    Contains r c dir any (edit.act r c) fun outcome _ => ∀ e, outcome = .entry e →
      ∃ name, edit.name = .ok name ∧ IsName name ∧ e.path = c.path.join name := by
  have anywhere {α : Type} {P : World → Prop} {act : Action α} {Q : α → World → Prop}
      (h : Contains r c dir any act Q) : Contains r c dir P act Q :=
    fun w placed _ => h w placed trivial
  cases edit with
  | add args =>
      refine (known_contains (P := any) _).bind fun name => ?_
      refine (known_contains _).bind fun data => ?_
      intro w placed ⟨_, given, _⟩
      obtain ⟨contained, answers⟩ :=
        insertion_contains plain normal (ordinary name given) data w placed trivial
      refine ⟨contained, fun outcome w' h e he => ?_⟩
      obtain ⟨hn, e', he', place⟩ := answers outcome w' h
      cases he.symm.trans he'
      exact ⟨name, given, hn, place⟩
  | delete args =>
      refine (known_contains (P := any) _).bind fun name => ?_
      intro w placed _
      obtain ⟨contained, answers⟩ := erasure_contains plain normal name w placed trivial
      refine ⟨contained, fun outcome w' h e he => ?_⟩
      cases he.symm.trans (answers outcome w' h)

/-- A call, and so a run of them, is contained, and each entry that is returned is a child. -/
theorem calls_contained (plain : IsName r.config.parameters.file) (placed : Placed r c dir w)
    {edit : Edit} (ordinary : edit.Ordinary) {answer : Except Error Outcome}
    (call : Calls r c edit answer w w') : Contained r c dir w w' ∧ ∀ e, answer = .ok (.entry e) →
      ∃ name, edit.name = .ok name ∧ IsName name ∧ e.path = c.path.join name := by
  obtain ⟨w₁, inner, same, act, answered⟩ := call.acts placed.hosts
  have before := placed.same same
  obtain ⟨contained, answers⟩ :=
    act_contains plain placed.hosts.normal ordinary w₁ before.placed trivial
  rw [after_of_result act] at contained
  refine ⟨before.trans contained, fun e he => ?_⟩
  have ok := (answered _).mp he
  rw [ok] at act
  exact answers _ w' act e rfl

theorem run_contained (plain : IsName r.config.parameters.file)
    {log : List (Edit × Except Error Outcome)}
    (run : Run r c (fun _ edit _ => edit.Ordinary) w log w') (placed : Placed r c dir w) :
    Contained r c dir w w' ∧ ∀ edit e, (edit, .ok (.entry e)) ∈ log →
      ∃ name, edit.name = .ok name ∧ IsName name ∧ e.path = c.path.join name := by
  induction run with
  | done w => exact ⟨.refl placed, fun _ _ h => nomatch h⟩
  | @edit edit answer w w₁ log w' call ordinary rest ih =>
      obtain ⟨first, child⟩ := calls_contained plain placed ordinary call
      obtain ⟨later, children⟩ := ih first.placed
      refine ⟨first.trans later, fun x e h => ?_⟩
      rcases List.mem_cons.mp h with h | h
      · cases h
        exact child e rfl
      · exact children x e h
  | refused call rest ih =>
      have first := placed.same ((received_leaves (fun _ => rfl) _ _ _).of_error placed.hosts call)
      obtain ⟨later, children⟩ := ih first.placed
      exact ⟨first.trans later, children⟩

/-! ### The main statement -/

/-- Edits of a collection stay in its directory. When entries are added and deleted by name, `.` and
`..` not among the names of those added, in a collection whose index was empty at first: nothing
outside the directory of the collection changes, nor does that directory itself; once there is a
document of its parameters there is always one; and every entry that is returned is at the name it
was added by, directly below the collection. -/
theorem edits_contained {w₁ w₂ : World} {log log' : List (Edit × Except Error Outcome)}
    (plain : IsName r.config.parameters.file) (hosts : r.Hosts c w) (leads : w.disk.Leads c.path dir)
    (empty : ∀ own, value (r.own c) w = .ok own → indexOf own = [])
    (before : Run r c (fun _ edit _ => edit.Ordinary) w log w₁)
    (later : Run r c (fun _ edit _ => edit.Ordinary) w₁ log' w₂) :
    (∀ loc, ¬ Below dir loc → w₂.disk.node? loc = w.disk.node? loc) ∧
    w₂.disk.node? dir = some .dir ∧
    (∀ text, w₁.disk.node? (dir ++ [r.config.parameters.file]) = some (.file text) →
      ∃ text', w₂.disk.node? (dir ++ [r.config.parameters.file]) = some (.file text')) ∧
    ∀ edit e, (edit, .ok (.entry e)) ∈ log ++ log' → ∃ name, edit.name = .ok name ∧
      e.path = c.path.join name ∧ e.path.components = c.path.components ++ [.name name] := by
  have placed : Placed r c dir w := ⟨hosts, leads, fun own hv field hf => by
    rw [empty own hv] at hf
    cases hf⟩
  obtain ⟨first, children⟩ := run_contained plain before placed
  obtain ⟨second, children'⟩ := run_contained plain later first.placed
  refine ⟨(first.trans second).disk.node, second.placed.leads.isDir, second.disk.keeps, ?_⟩
  intro edit e h
  obtain ⟨name, given, hn, place⟩ :=
    (List.mem_append.mp h).elim (children edit e) (children' edit e)
  exact ⟨name, given, place, place ▸ Path.components_join hosts.normal hn⟩

namespace Sample

/-- The room of the shelf is as it was, with the child on the shelf and without it. -/
theorem child_contained :
    Run registry shelf (fun _ edit _ => edit.Ordinary) (world [] [] [])
      [(.add (given addEntry "x"), .ok (.entry child))] childAdded ∧
    Run registry shelf (fun _ edit _ => edit.Ordinary) childAdded
      [(.delete (given deleteEntry "x"), .ok (.data (.str "x")))] childDeleted ∧
    (∀ loc, ¬ Below ["room", "shelf"] loc →
      childDeleted.disk.node? loc = (world [] [] []).disk.node? loc) ∧
    (∃ text, childDeleted.disk.node? ["room", "shelf", "parameters.json"] = some (.file text)) ∧
    child.path.components = shelf.path.components ++ [.name "x"] := by
  have before : Run registry shelf (fun _ edit _ => edit.Ordinary) (world [] [] [])
      [(.add (given addEntry "x"), .ok (.entry child))] childAdded := by
    refine .edit adds_child (fun name named => ?_) (.done childAdded)
    cases named
    decide
  have later : Run registry shelf (fun _ edit _ => edit.Ordinary) childAdded
      [(.delete (given deleteEntry "x"), .ok (.data (.str "x")))] childDeleted :=
    .edit deletes_child trivial (.done childDeleted)
  have empty (own : Params) (h : value (registry.own shelf) (world [] [] []) = .ok own) :
      indexOf own = [] := by
    cases h
    rfl
  obtain ⟨outside, -, document, children⟩ :=
    edits_contained isName_parameters hosts leads empty before later
  obtain ⟨name, named, -, below⟩ := children (.add (given addEntry "x")) child (List.mem_cons_self ..)
  cases named
  exact ⟨before, later, outside, document _ rfl, below⟩

/-! #### The name of the directory above, added and deleted -/

def up : Entry := ⟨1, ⟨""⟩, ""⟩

def upIndexed : Params := [(indexKey, .obj [("..", .str "..")])]

def upAdded : World := world upIndexed [(up, { own := some [] })]
  [(["room", "parameters.json"], page []), (["room", "shelf", "parameters.json"], page upIndexed)]

def upDeleted : World := { world emptied [(up, { own := some [] })] [] with
  disk := ⟨["room"], [(["room"], .dir)]⟩ }

theorem adds_up : Calls registry shelf (.add (given addEntry "..")) (.ok (.entry up))
    (world [] [] []) upAdded := by
  refine adds (received_of_top rfl rfl rfl rfl rfl) (insertion_eq_ok_iff.mpr ⟨by decide, [], world [] [] [],
    (world [] [] []).disk, up, world [] [(up, {})] [], world [] [(up, { own := some [] })] [],
    world [] [(up, { own := some [] })] [(["room", "parameters.json"], page [])], ?_⟩)
  exact ⟨rfl, rfl, rfl, rfl, rfl, rfl, rfl, rfl⟩

theorem deletes_up : Calls registry shelf (.delete (given deleteEntry ".."))
    (.ok (.data (.str ".."))) upAdded upDeleted := by
  refine deletes (received_of_top rfl rfl rfl rfl rfl) (erasure_eq_ok_iff.mpr ⟨upIndexed, upAdded, "..",
    world emptied [(up, { own := some [] })]
      [(["room", "parameters.json"], page []),
        (["room", "shelf", "parameters.json"], page emptied)], ?_⟩)
  exact ⟨rfl, rfl, rfl, rfl, .inr ⟨rfl, upDeleted.disk, rfl, rfl⟩⟩

/-- Under `..` the entry that is added is the room, where a document appears; and when it is deleted,
the shelf is gone with all that was in the room. -/
theorem up_name_reaches_outside :
    Component.IsName registry.config.parameters.file ∧ registry.Hosts shelf (world [] [] []) ∧
    (world [] [] []).disk.Leads shelf.path ["room", "shelf"] ∧
    value (registry.own shelf) (world [] [] []) = .ok [] ∧
    Run registry shelf (fun _ _ _ => True) (world [] [] [])
      [(.add (given addEntry ".."), .ok (.entry up))] upAdded ∧
    Run registry shelf (fun _ _ _ => True) upAdded
      [(.delete (given deleteEntry ".."), .ok (.data (.str "..")))] upDeleted ∧
    (world [] [] []).disk.node? ["room", "parameters.json"] = none ∧
    upAdded.disk.node? ["room", "parameters.json"] = some (page []) ∧
    up.path.components ≠ shelf.path.components ++ [.name ".."] ∧
    upDeleted.disk.node? ["room", "shelf"] = none :=
  ⟨isName_parameters, hosts, leads, rfl, .edit adds_up trivial (.done upAdded),
    .edit deletes_up trivial (.done upDeleted), rfl, rfl, by decide, rfl⟩

end Sample

end Collection
end Lineage
