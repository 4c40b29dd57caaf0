import Lineage.Proofs.Collection.Edits
import Lineage.Proofs.Registry.Persistence
import Lineage.Proofs.Registry.Registration

/-!
An entry that is deleted and added again. A registry has its entries for good, with what they have
loaded, and a deletion takes away what is on the disk only. So an entry that is added under the name
of one that was deleted is that entry, and the new data are laid upon the parameters that it had.
-/
namespace Lineage

open World Action Registry
open Component (IsName)

namespace Collection

variable {r : Registry} {c e : Entry} {w w' : World} {name : String} {data index own : Params}
  {outcome : Outcome}

/-! ### What edits keep -/

section

variable {R : World → World → Prop} (frame : Frame R)

include frame

theorem onDiskOr_follows (reason : DiskError → String) (act : DiskAction Unit) :
    Along R any (onDiskOr reason act) anything := by
  refine .bind frame.toCourse (tryOnDisk_along frame act) fun changed => ?_
  cases changed with
  | ok _ => exact .pure frame.toCourse fun _ _ _ => trivial
  | error _ => exact .throw frame.toCourse _

theorem storing_follows (bears : Bears R c) (index : Params) :
    Along R any (storing r c index) anything := by
  have set : Along R any (r.setParameter c indexKey (.obj index)) anything :=
    (changeOwn_along frame r c fun _ h => h.insert indexKey (.obj index)).weaken
      (fun _ _ _ => bears) fun _ _ h => h
  exact .bind frame.toCourse set fun _ => (persist_along frame r c).anywhere

theorem erasure_follows (bears : Bears R c) (name : String) :
    Along R any (erasure r c name) anything := by
  have course := frame.toCourse
  refine .bind course ((own_extends r c).mono fun _ _ hr => frame.lookup hr) fun own => ?_
  split
  · exact .throw course _
  · refine .bind course (storing_follows frame bears _).anywhere fun _ => .get_bind fun w => ?_
    split
    · exact .bind course (onDiskOr_follows frame _ _).anywhere fun _ =>
        .pure course fun _ _ _ => trivial
    · exact .pure course fun _ _ _ => trivial
  · exact .throw course _

/-- What comes after the entry has its parameters. -/
theorem written_follows (bears : Bears R c) (sound : w.Sound) {w₁ : World}
    (written : r.persist e w = .ok () w₁) (stored : storing r c index w₁ = .ok () w') :
    R w w' ∧ w'.Sound := by
  obtain ⟨first, sound₁, -⟩ := (persist_along frame r e).of_ok sound trivial written
  obtain ⟨then_, sound', -⟩ := (storing_follows frame bears index).of_ok sound₁ trivial stored
  exact ⟨frame.trans first then_, sound'⟩

end

theorem byPath_listed {p : Path} (found : byPath p w = .ok e w') :
    Table.get? w'.byPath p.normalize.components = some e := by
  cases listed : Table.get? w.byPath p.normalize.components with
  | some x =>
      cases (byPath_of_known listed).symm.trans found
      exact listed
  | none =>
      cases (byPath_of_unknown listed).symm.trans found
      exact known_enroll w _ _

/-! ### Members -/

/-- An entry of a collection, known at its place and with its own parameters in memory. -/
structure Member (c : Entry) (name : String) (e : Entry) (w : World) : Prop where
  place : e.path = c.path.join name
  apart : e.id ≠ c.id
  listed : Table.get? w.byPath (c.path.join name).normalize.components = some e
  loaded : (w.cellsOf e).own.isSome = true

theorem Member.later (h : Member c name e w) (recalls : w.Recalls w') (steady : w.Steady w') :
    Member c name e w' where
  place := h.place
  apart := h.apart
  listed := recalls.path _ e h.listed
  loaded := (steady.settled e).loaded h.loaded

/-- The entry itself, or one at another place. -/
def Elsewhere (e x : Entry) : Prop := x = e ∨ x.path.components ≠ e.path.components

/-- A member stays one until another entry is registered at its place. -/
theorem Member.onward (h : Member c name e w) (normal : (c.path.join name).normalize = c.path.join name)
    (sound : w.Sound) (run : Onward r (Elsewhere e) w w') : Member c name e w' where
  place := h.place
  apart := h.apart
  listed := by
    have others (x : Entry) (other : Elsewhere e x) :
        x = e ∨ x.path.components ≠ (c.path.join name).normalize.components := by
      rwa [normal, ← h.place]
    have apart := run.mono others
    exact apart.keeps (fun recalls => recalls.path _ _) (fun _ _ _ _ => rfl) byPath_register sound
      h.listed
  loaded := ((run.steady sound).settled e).loaded h.loaded

/-- An entry that was added is a member. -/
theorem member_of_insertion (sound : w.Sound) (hosts : r.Hosts c w)
    (ordinary : name ≠ "." ∧ name ≠ "..") (ok : insertion r c name data w = .ok outcome w') :
    ∃ e, outcome = .entry e ∧ Member c name e w' ∧ w'.Sound := by
  obtain ⟨accepted, own, w₁, d, e, w₂, w₃, w₄, load, -, -, found, updated, written, stored, rfl⟩ :=
    insertion_eq_ok_iff.mp ok
  have hn := isName_of_accepted accepted ordinary
  obtain ⟨-, -, proper, place⟩ := ((loaded_of_own hosts load).1.onDisk d).byPath found
  rw [Path.normalize_join hosts.normal hn] at place
  have sound₁ := ((own_along r c).of_ok sound trivial load).2.1
  have sound₂ := ((byPath_along _).of_ok (sound₁.onDisk d) trivial found).2.1
  have update {R : World → World → Prop} (frame : Frame R) (bears : ∀ x, Bears R x) :=
    (changeOwn_along frame r e fun _ h => h.overlay data).of_ok sound₂ (bears e) updated
  obtain ⟨recalls, sound₃, -⟩ := update frame_remembers bears_remembers
  obtain ⟨old, -, known, -⟩ := changeOwn_ok (sound₂.byPath _ e (byPath_listed found)) updated
  have member : Member c name e w₃ := ⟨place, id_ne_of_join hosts.normal hn proper place,
    recalls.path _ e (byPath_listed found), by rw [known]; rfl⟩
  obtain ⟨remembers, sound'⟩ :=
    written_follows frame_remembers (bears_remembers c) sound₃ written stored
  have steady := (written_follows frame_steady (bears_steady c) sound₃ written stored).1
  exact ⟨e, rfl, member.later remembers.toRecalls steady, sound'⟩

/-- Data that are added under the name of a member are laid upon its parameters. -/
theorem insertion_upon {old : Params} (sound : w.Sound) (held : w.Holds c)
    (normal : c.path.normalize = c.path) (ordinary : name ≠ "." ∧ name ≠ "..")
    (member : Member c name e w) (known : (w.cellsOf e).own = some old)
    (ok : insertion r c name data w = .ok outcome w') :
    outcome = .entry e ∧ (w'.cellsOf e).own = some (Table.overlay old data) ∧
      (IsName r.config.parameters.file →
        ∃ rest dir, r.Stored e (Table.overlay old data) w'.disk rest dir) := by
  obtain ⟨accepted, own, w₁, d, x, w₂, w₃, w₄, load, -, -, found, updated, written, stored, rfl⟩ :=
    insertion_eq_ok_iff.mp ok
  have hn := isName_of_accepted accepted ordinary
  obtain ⟨looked, sound₁, -⟩ := (own_along r c).of_ok sound trivial load
  -- The member is what is found, as it was.
  have listed : Table.get? ({ w₁ with disk := d } : World).byPath
      (c.path.join name).normalize.components = some e := looked.recalls.path _ e member.listed
  have known₁ : (({ w₁ with disk := d } : World).cellsOf e).own = some old :=
    (looked.kept e).own old known
  cases (byPath_of_known listed).symm.trans found
  have sound₂ := sound₁.onDisk d
  obtain ⟨grows, sound₃, -⟩ := (changeOwn_along frame_grows r e fun _ h => h.overlay data).of_ok
    sound₂ (bears_grows e) updated
  obtain ⟨_, read, known₃, -, -⟩ := changeOwn_ok (sound₂.byPath _ e listed) updated
  cases (value_own_of_known known₁).symm.trans read
  obtain ⟨_, -, kept⟩ := persist_ok known₃ written
  have held₄ : w₄.Holds c := by
    rw [kept]
    exact grows.holds (looked.grows.holds held)
  have sound₄ : w₄.Sound := by
    rw [kept]
    exact sound₃.onDisk _
  have known₄ : (w₄.cellsOf e).own = some (Table.overlay old data) := by
    rw [kept]
    exact known₃
  -- What follows is an edit of the collection alone, whose document is another.
  obtain ⟨keeps, -, -⟩ :=
    (storing_follows (frame_keepsOwn e) (bears_keepsOwn member.apart) _).of_ok sound₄ trivial stored
  refine ⟨rfl, keeps _ known₄, fun plain => ?_⟩
  obtain ⟨rest, dir, document⟩ :=
    stored_of_persist plain (member.place ▸ Path.normalize_join normal hn) known₃ written
  obtain ⟨_, w₅, set, persisted⟩ := bind_eq_ok_iff.mp stored
  obtain ⟨_, -, own₅, -, disk₅⟩ := changeOwn_ok held₄ set
  obtain ⟨_, store, -⟩ := persist_ok own₅ persisted
  rw [disk₅] at store
  exact ⟨rest, dir, document.beside plain normal hn member.place store⟩

/-! ### Calls -/

variable {edit : Edit} {answer : Except Error Outcome} {args : Args} {old : Params}

theorem Calls.use (call : Calls r c edit answer w w') : Use r w w' := by
  obtain ⟨method, positional, named, _, _, -, invoked⟩ := call
  have left : after (r.invoke c method positional named) w = w' := after_of_result invoked
  exact left ▸ .invoke c method positional named

/-- Before a call comes to its edit there are lookups only. -/
theorem Calls.looks (call : Calls r c edit answer w w') (sound : w.Sound) :
    ∃ w₁ inner, w₁.Sound ∧ (∀ {R}, Frame R → R w w₁) ∧ (r.Hosts c w → r.Hosts c w₁) ∧
      edit.act r c w₁ = result inner w' ∧
      ∀ outcome, answer = .ok outcome ↔ inner = .ok outcome := by
  obtain ⟨method, positional, named, _, w₁, inner, received, act, answered⟩ := call.parts
  have follows {R : World → World → Prop} (frame : Frame R) :=
    (received_along frame r c method positional named).of_ok sound trivial received
  refine ⟨w₁, inner, (follows frame_grows).2.1, fun frame => (follows frame).1, fun hosts => ?_,
    act, answered⟩
  exact ((received_leaves (fun _ => rfl) method positional named).of_ok hosts received).1.hosts

/-- A call that adds an entry looks things up and then inserts it. -/
theorem Calls.inserts (call : Calls r c (.add args) (.ok outcome) w w') (sound : w.Sound)
    (named : args.requireText "entry_name" = .ok name) :
    ∃ w₁ data, dataOf args = .ok data ∧ w₁.Sound ∧ (∀ {R}, Frame R → R w w₁) ∧
      (r.Hosts c w → r.Hosts c w₁) ∧ insertion r c name data w₁ = .ok outcome w' := by
  obtain ⟨w₁, inner, sound₁, looked, hosts, act, answered⟩ := call.looks sound
  obtain rfl := (answered outcome).mp rfl
  cases given : dataOf args with
  | ok data => exact ⟨w₁, data, rfl, sound₁, looked, hosts, Edit.act_add r c named given ▸ act⟩
  | error err =>
      rw [Edit.act, named, given] at act
      cases act

/-- To delete an entry leaves the parameters that others have in memory, those of the entry
included. -/
theorem Calls.delete_keepsOwn (call : Calls r c (.delete args) answer w w') (sound : w.Sound)
    (ne : e.id ≠ c.id) : KeepsOwn e w w' := by
  obtain ⟨w₁, inner, sound₁, looked, -, act, -⟩ := call.looks sound
  have course := (frame_keepsOwn e).toCourse
  have erases : Along (KeepsOwn e) any ((Edit.delete args).act r c) anything := by
    refine .bind course (Q := anything) (fun w sound _ => ?_) fun name =>
      (erasure_follows (frame_keepsOwn e) (bears_keepsOwn ne) name).anywhere
    rw [after, Script.known]
    cases args.requireText "entry_name" <;> exact ⟨course.refl w, sound, fun _ _ _ => trivial⟩
  have erased := (erases w₁ sound₁ trivial).1
  rw [after_of_result act] at erased
  exact course.trans (looked (frame_keepsOwn e)) erased

/-- As much of the parameters of a deleted entry survives as the new data do not replace. An entry
that was added to a collection and is added again after a deletion, whatever happens before either
of these short of registering another one at its place, is the same entry. It keeps its own
parameters through the deletion, and those that it has when it is added again get the data laid upon
them, in memory and in its document: they are the data and nothing else just if each of their keys is
one of the data. -/
theorem readded_keeps_own {added deleted readded : Args} {answer₁ : Outcome}
    {w w₁ w₂ w₃ w₄ w₅ : World} (sound : w.Sound) (hosts : r.Hosts c w)
    (ordinary : name ≠ "." ∧ name ≠ "..") (named : added.requireText "entry_name" = .ok name)
    (named' : readded.requireText "entry_name" = .ok name) (given : dataOf readded = .ok data)
    (distinct : Table.Distinct data) (add : Calls r c (.add added) (.ok (.entry e)) w w₁)
    (since : Onward r (Elsewhere e) w₁ w₂)
    (delete : Calls r c (.delete deleted) (.ok answer₁) w₂ w₃)
    (later : Onward r (Elsewhere e) w₃ w₄)
    (again : Calls r c (.add readded) (.ok outcome) w₄ w₅) :
    outcome = .entry e ∧ ∃ kept old, (w₂.cellsOf e).own = some kept ∧
      (w₃.cellsOf e).own = some kept ∧ (w₄.cellsOf e).own = some old ∧
      value (r.own e) w₅ = .ok (Table.overlay old data) ∧
      (IsName r.config.parameters.file →
        ∃ rest dir, r.Stored e (Table.overlay old data) w₅.disk rest dir) ∧
      ((∀ key, Table.get? (Table.overlay old data) key = Table.get? data key) ↔
        ∀ key ∈ Table.keys old, key ∈ Table.keys data) := by
  -- The entry is a member from when it is added on.
  obtain ⟨wa, _, -, sound_a, -, hosts_a, inserted⟩ := add.inserts sound named
  obtain ⟨_, made, member₁, sound₁⟩ := member_of_insertion sound_a (hosts_a hosts) ordinary inserted
  cases made
  have normal : (c.path.join name).normalize = c.path.join name := by
    obtain ⟨accepted, -⟩ := insertion_eq_ok_iff.mp inserted
    exact Path.normalize_join hosts.normal (isName_of_accepted accepted ordinary)
  have adds : Onward r (Elsewhere e) w w₁ := .use .refl add.use
  have deletes : Onward r (Elsewhere e) w₂ w₃ := .use .refl delete.use
  have sound₂ := since.sound sound₁
  have sound₃ := deletes.sound sound₂
  have sound₄ := later.sound sound₃
  have member₂ := member₁.onward normal sound₁ since
  have member₄ := (member₂.onward normal sound₂ deletes).onward normal sound₃ later
  obtain ⟨kept, known₂⟩ := Option.isSome_iff_exists.mp member₂.loaded
  obtain ⟨old, known₄⟩ := Option.isSome_iff_exists.mp member₄.loaded
  -- So it is found again, and still has its parameters.
  have held₄ : w₄.Holds c := by
    have held₁ := (adds.steady sound).grows.holds hosts.held
    have held₃ := (deletes.steady sound₂).grows.holds ((since.steady sound₁).grows.holds held₁)
    exact (later.steady sound₃).grows.holds held₃
  obtain ⟨wb, _, given', sound_b, looked, -, reinserted⟩ := again.inserts sound₄ named'
  cases given'.symm.trans given
  obtain ⟨rfl, known₅, stored⟩ := insertion_upon sound_b ((looked frame_grows).holds held₄)
    hosts.normal ordinary
    (member₄.later (looked frame_remembers).toRecalls (looked frame_steady))
    (looked (frame_keepsOwn e) old known₄) reinserted
  refine ⟨rfl, kept, old, known₂, delete.delete_keepsOwn sound₂ member₁.apart kept known₂, known₄,
    value_own_of_known known₅, stored, Table.get?_overlay_eq_iff old distinct⟩

namespace Sample

/-- A call that hands over the name `x` and data. -/
def filling (data : Params) : Args := ⟨addEntry.shape, ⟨[.str "x", .obj data], []⟩⟩

def former : Params := [("old", .int 1)]

def latter : Params := [("new", .int 2)]

def both : Params := [("old", .int 1), ("new", .int 2)]

/-- The collection with a child that has these parameters. -/
def filled : World := world childIndexed [(child, { own := some former })]
  [(["room", "shelf", "x"], .dir), (["room", "shelf", "x", "parameters.json"], page former),
    (["room", "shelf", "parameters.json"], page childIndexed)]

/-- The collection with an index that is stored, and the child with its parameters in memory. -/
def shelved (index own : Params) (nodes : List (Location × FileNode)) : World :=
  world index [(child, { own := some own })]
    ((["room", "shelf", "parameters.json"], page index) :: nodes)

def cleared : World := shelved emptied former []

def refilled : World := shelved childIndexed both
  [(["room", "shelf", "x"], .dir), (["room", "shelf", "x", "parameters.json"], page both)]

theorem sound : (world [] [] []).Sound := by
  have begun : ((world [] [] []).setCells shelf {}).Sound := (Session.start start).sound
  have alone (p : Entry) (h : ((world [] [] []).cellsOf shelf).parent = some (some p)) :
      (world [] [] []).Holds p := by cases h
  exact begun.setCells shelf (fun _ h => Option.some.inj h ▸ List.nodup_nil) alone

theorem fills {data : Params} {bag : Params} {outcome : Outcome} {w w' : World}
    (received : registry.received shelf "add_entry" [.str "x", .obj data] [] w =
      .ok ⟨addEntry, filling data, bag⟩ w)
    (ok : insertion registry shelf "x" data w = .ok outcome w') :
    Calls registry shelf (.add (filling data)) (.ok outcome) w w' := by
  have act : (Edit.add (filling data)).act registry shelf w = result (.ok outcome) w' := by
    rw [Edit.act_add registry shelf rfl rfl, ok, result]
  exact .of_act received act

theorem fills_former : Calls registry shelf (.add (filling former)) (.ok (.entry child))
    (world [] [] []) filled := by
  refine fills (received_of_top rfl rfl rfl rfl rfl) (insertion_eq_ok_iff.mpr ⟨by decide, [], world [] [] [],
    (world [] [] [(["room", "shelf", "x"], .dir)]).disk, child,
    world [] [(child, {})] [(["room", "shelf", "x"], .dir)],
    world [] [(child, { own := some former })] [(["room", "shelf", "x"], .dir)],
    world [] [(child, { own := some former })] [(["room", "shelf", "x"], .dir),
      (["room", "shelf", "x", "parameters.json"], page former)], ?_⟩)
  exact ⟨rfl, rfl, rfl, rfl, rfl, rfl, rfl, rfl⟩

theorem clears : Calls registry shelf (.delete (given deleteEntry "x"))
    (.ok (.data (.str "x"))) filled cleared := by
  refine deletes (received_of_top rfl rfl rfl rfl rfl) (erasure_eq_ok_iff.mpr ⟨childIndexed, filled, "x",
    world emptied [(child, { own := some former })]
      [(["room", "shelf", "x"], .dir), (["room", "shelf", "x", "parameters.json"], page former),
        (["room", "shelf", "parameters.json"], page emptied)], ?_⟩)
  exact ⟨rfl, rfl, rfl, rfl, .inr ⟨rfl, cleared.disk, rfl, rfl⟩⟩

theorem fills_latter : Calls registry shelf (.add (filling latter)) (.ok (.entry child))
    cleared refilled := by
  refine fills (received_of_top rfl rfl rfl rfl rfl) (insertion_eq_ok_iff.mpr ⟨by decide, emptied, cleared,
    (shelved emptied former [(["room", "shelf", "x"], .dir)]).disk, child,
    shelved emptied former [(["room", "shelf", "x"], .dir)],
    shelved emptied both [(["room", "shelf", "x"], .dir)],
    shelved emptied both [(["room", "shelf", "x"], .dir),
      (["room", "shelf", "x", "parameters.json"], page both)], ?_⟩)
  exact ⟨rfl, rfl, rfl, rfl, rfl, rfl, rfl, rfl⟩

/-- The data of the second call are one field, and the entry comes back with two. -/
theorem former_data_survive :
    dataOf (filling latter) = .ok latter ∧
    Calls registry shelf (.add (filling former)) (.ok (.entry child)) (world [] [] []) filled ∧
    Calls registry shelf (.delete (given deleteEntry "x")) (.ok (.data (.str "x"))) filled cleared ∧
    Calls registry shelf (.add (filling latter)) (.ok (.entry child)) cleared refilled ∧
    value (registry.own child) refilled = .ok both ∧ Table.get? both "old" ≠ Table.get? latter "old" ∧
    refilled.disk.node? ["room", "shelf", "x", "parameters.json"] = some (page both) :=
  ⟨rfl, fills_former, clears, fills_latter, rfl, by simp [both, latter, Table.get?], rfl⟩

theorem distinct_latter : Table.Distinct latter := List.nodup_singleton "new"

theorem x_keeps_former : ∃ kept old, (filled.cellsOf child).own = some kept ∧
    (cleared.cellsOf child).own = some kept ∧ (cleared.cellsOf child).own = some old ∧
    value (registry.own child) refilled = .ok (Table.overlay old latter) ∧
    (IsName registry.config.parameters.file →
      ∃ rest dir, registry.Stored child (Table.overlay old latter) refilled.disk rest dir) ∧
    ((∀ key, Table.get? (Table.overlay old latter) key = Table.get? latter key) ↔
      ∀ key ∈ Table.keys old, key ∈ Table.keys latter) :=
  (readded_keeps_own sound hosts ⟨by decide, by decide⟩ rfl rfl rfl distinct_latter fills_former .refl
    clears .refl fills_latter).2

end Sample

end Collection
end Lineage
