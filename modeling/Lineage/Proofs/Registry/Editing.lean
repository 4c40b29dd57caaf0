import Lineage.Proofs.Disk.Document
import Lineage.Proofs.Registry.Ancestry
import Lineage.Proofs.Registry.Hosts

/-!
Own parameters under edits. The loaded ones of an entry change when that entry is given new ones and
at no other time; and a write of an entry's parameters changes nothing but the disk, where it stores
one document.
-/
namespace Lineage

open World Action

namespace Registry

/-- An entry among those of a registry that has its own parameters loaded. -/
structure OwnLoaded (r : Registry) (c : Entry) (own : Params) (w : World) : Prop where
  hosts : r.Hosts c w
  known : (w.cellsOf c).own = some own

variable {r : Registry} {c e : Entry} {own : Params} {w w' : World}

/-- Nothing of an entry's place in a world depends on the disk. -/
theorem Hosts.onDisk (hosts : r.Hosts c w) (d : Disk) : r.Hosts c { w with disk := d } where
  held := hosts.held
  normal := hosts.normal
  placed := hosts.placed
  alone e met := by
    refine hosts.alone e ?_
    cases met with
    | root h => exact .root h
    | path h => exact .path h
    | name h => exact .name h
    | parent h => exact .parent h

theorem value_own_of_known (h : (w.cellsOf e).own = some own) : value (r.own e) w = .ok own := by
  rw [value_own, h]

namespace OwnLoaded

theorem onDisk (h : r.OwnLoaded c own w) (d : Disk) : r.OwnLoaded c own { w with disk := d } :=
  ⟨h.hosts.onDisk d, h.known⟩

theorem own_ok (h : r.OwnLoaded c own w) : r.own c w = .ok own w := own_of_known r h.known

theorem value (h : r.OwnLoaded c own w) : value (r.own c) w = .ok own := value_own_of_known h.known

/-- Others can be given new own parameters. -/
theorem setOwn (h : r.OwnLoaded c own w) (ne : e.id ≠ c.id) (params : Params) :
    r.OwnLoaded c own (w.setCells e { w.cellsOf e with own := some params }) where
  hosts := h.hosts.setCells e fun p hp => h.hosts.parent_proper e hp
  known := by rw [cellsOf_setCells_ne (Ne.symm ne), h.known]

theorem setOwn_self (h : r.OwnLoaded c own w) (params : Params) :
    r.OwnLoaded c params (w.setCells c { w.cellsOf c with own := some params }) where
  hosts := h.hosts.setCells c fun p hp => h.hosts.parent_proper c hp
  known := by rw [cellsOf_setCells_self h.hosts.held rfl]

end OwnLoaded

/-! ### Loading and looking up -/

theorem loaded_of_own (hosts : r.Hosts c w) (h : r.own c w = .ok own w') :
    r.OwnLoaded c own w' ∧ w'.disk = w.disk ∧ value (r.own c) w = .ok own := by
  have same := (own_leaves (fun _ => rfl) w hosts).1
  rw [after_of_ok h] at same
  refine ⟨⟨same.hosts, ?_⟩, same.disk, by rw [value, h]⟩
  rw [own_apply] at h
  cases hk : (w.cellsOf c).own with
  | some params =>
      rw [hk] at h
      cases h
      exact hk
  | none =>
      rw [hk] at h
      dsimp only at h
      split at h
      · cases h
        rw [cellsOf_setCells_self hosts.held rfl]
      · cases h

theorem OwnLoaded.own_other (h : r.OwnLoaded c own w) (proper : c.Proper e) :
    r.OwnLoaded c own (after (r.own e) w) ∧ (after (r.own e) w).disk = w.disk := by
  by_cases same : e.id = c.id
  · obtain rfl := proper same
    rw [after_of_ok h.own_ok]
    exact ⟨h, rfl⟩
  · rw [after, own_apply]
    cases (w.cellsOf e).own with
    | some params => exact ⟨h, rfl⟩
    | none =>
        dsimp only
        cases mapOn "parameters" e r.config.parameters w.disk with
        | ok params => exact ⟨h.setOwn same params, rfl⟩
        | error err => exact ⟨h, rfl⟩

theorem OwnLoaded.byPath {path : Path} (h : r.OwnLoaded c own w) (found : byPath path w = .ok e w') :
    r.OwnLoaded c own w' ∧ w'.disk = w.disk ∧ c.Proper e ∧ e.path = path.normalize := by
  obtain ⟨same, proper, place⟩ := (byPath_leaves path).of_ok h.hosts found
  refine ⟨⟨same.hosts, ?_⟩, same.disk, proper, place⟩
  cases known : Table.get? w.byPath path.normalize.components with
  | some e' =>
      cases (byPath_of_known known).symm.trans found
      exact h.known
  | none =>
      cases (byPath_of_unknown known).symm.trans found
      rw [cellsOf_enroll, h.known]

/-! ### Giving new parameters -/

theorem OwnLoaded.setParameter (h : r.OwnLoaded c own w) (name : String) (new : Json) :
    ∃ w', r.setParameter c name new w = .ok () w' ∧
      r.OwnLoaded c (Table.insert own name new) w' ∧ w'.disk = w.disk := by
  refine ⟨_, ?_, h.setOwn_self _, rfl⟩
  rw [Registry.setParameter, bind_of_ok h.own_ok]
  rfl

theorem OwnLoaded.updateParameters (h : r.OwnLoaded c own w) (ne : e.id ≠ c.id) (data : Params) :
    r.OwnLoaded c own (after (r.updateParameters e data) w) ∧
      (after (r.updateParameters e data) w).disk = w.disk := by
  obtain ⟨h₁, disk⟩ := h.own_other fun same => absurd same ne
  rw [Registry.updateParameters, after_bind]
  rw [after] at h₁ disk
  cases ho : r.own e w with
  | error err w₁ =>
      rw [ho] at h₁ disk
      exact ⟨h₁, disk⟩
  | ok params w₁ =>
      rw [ho] at h₁ disk
      exact ⟨h₁.setOwn ne _, disk⟩

/-! ### Writing them -/

/-- A document that has own parameters at their place, and what else it holds. -/
def documentOf (place : DocumentPlace) (rest own : Params) : Json :=
  if place.path.isEmpty then .obj own else .obj (Step.assign rest place.path (.obj own))

theorem readAt_documentOf (place : DocumentPlace) (rest own : Params) :
    (documentOf place rest own).readAt place.path = .ok (.obj own) := by
  rw [documentOf]
  cases place.path with
  | nil => rfl
  | cons key path => exact Disk.readAt_writeBelow rest key path (.obj own)

/-- Once the parameters are loaded they are stored with what else the document holds, unless that
cannot be read. -/
theorem persist_of_own {w₁ : World} (load : r.own c w = .ok own w₁) :
    (∃ err, r.persist c w = .error err w₁) ∨ ∃ rest, r.persist c w =
      onDisk (Disk.store (documentOf r.config.parameters rest own)
        (c.path.join r.config.parameters.file)) w₁ := by
  rw [Registry.persist, bind_of_ok load]
  dsimp only
  split
  · rename_i top
    refine .inr ⟨[], ?_⟩
    rw [documentOf, if_pos top]
    rfl
  · rename_i nested
    rw [bind_apply, readDocument]
    cases w₁.disk.load (c.filePath r.config.parameters.file) [] with
    | error err => exact .inl ⟨err, rfl⟩
    | ok loaded =>
        refine .inr ⟨loaded.1.obj?.getD [], ?_⟩
        rw [documentOf, if_neg nested]
        rfl

theorem after_onDisk {α : Type} (act : Disk.DocumentAction α) (w : World) :
    after (onDisk act) w = { w with disk := Disk.left act w.disk } := by
  rw [after, onDisk, Disk.left]
  cases act w.disk <;> rfl

/-- A write changes the disk alone, if anything, once the parameters are loaded. -/
theorem after_persist (r : Registry) (e : Entry) (w : World) :
    after (r.persist e) w = after (r.own e) w ∨
      ∃ whole, after (r.persist e) w = { after (r.own e) w with
        disk := Disk.left (Disk.store whole (e.path.join r.config.parameters.file))
          (after (r.own e) w).disk } := by
  cases load : r.own e w with
  | error err w₁ =>
      rw [Registry.persist, after_bind, load, after_of_error load]
      exact .inl rfl
  | ok own w₁ =>
      rw [after_of_ok load]
      rcases persist_of_own load with ⟨err, refused⟩ | ⟨rest, stored⟩
      · exact .inl (after_of_error refused)
      · refine .inr ⟨documentOf r.config.parameters rest own, ?_⟩
        rw [after, stored]
        exact after_onDisk _ w₁

theorem OwnLoaded.persist (h : r.OwnLoaded c own w) (proper : c.Proper e) :
    r.OwnLoaded c own (after (r.persist e) w) := by
  have h₁ := (h.own_other proper).1
  rcases after_persist r e w with same | ⟨whole, stored⟩
  · rwa [same]
  · rw [stored]
    exact h₁.onDisk _

theorem onDisk_ok {α : Type} {act : Disk.DocumentAction α} {a : α} (ok : onDisk act w = .ok a w') :
    act w.disk = .ok a w'.disk ∧ w' = { w with disk := w'.disk } := by
  rw [onDisk] at ok
  split at ok
  · rename_i done
    cases ok
    exact ⟨done, rfl⟩
  · cases ok

theorem onDisk_error {α : Type} {act : Disk.DocumentAction α} {err : Error}
    (failed : onDisk act w = .error err w') :
    act w.disk = .error err w'.disk ∧ w' = { w with disk := w'.disk } := by
  rw [onDisk] at failed
  split at failed
  · cases failed
  · rename_i refused
    cases failed
    exact ⟨refused, rfl⟩

/-- A write of loaded parameters stores them and leaves the world as it is otherwise. -/
theorem persist_ok (known : (w.cellsOf c).own = some own) (ok : r.persist c w = .ok () w') :
    ∃ rest, Disk.store (documentOf r.config.parameters rest own)
      (c.path.join r.config.parameters.file) w.disk = .ok () w'.disk ∧
        w' = { w with disk := w'.disk } := by
  rcases persist_of_own (own_of_known r known) with ⟨err, refused⟩ | ⟨rest, stored⟩
  · cases refused.symm.trans ok
  · exact ⟨rest, onDisk_ok (stored.symm.trans ok)⟩

/-- A write of loaded parameters that fails does so before anything is stored, or as it is. -/
theorem persist_error {err : Error} (known : (w.cellsOf c).own = some own)
    (failed : r.persist c w = .error err w') : w' = w ∨
      ∃ whole, Disk.store whole (c.path.join r.config.parameters.file) w.disk =
        .error err w'.disk ∧ w' = { w with disk := w'.disk } := by
  rcases persist_of_own (own_of_known r known) with ⟨err, refused⟩ | ⟨rest, stored⟩
  · cases refused.symm.trans failed
    exact .inl rfl
  · exact .inr ⟨_, onDisk_error (stored.symm.trans failed)⟩

/-- A write that succeeds has a directory to write to. -/
theorem leads_of_persist (plain : Component.IsName r.config.parameters.file)
    (normal : c.path.normalize = c.path) (ok : r.persist c w = .ok () w') :
    ∃ dir, w'.disk.Leads c.path dir := by
  obtain ⟨own, w₁, load, -⟩ := bind_eq_ok_iff.mp ok
  rcases persist_of_own load with ⟨err, refused⟩ | ⟨rest, stored⟩
  · cases refused.symm.trans ok
  · obtain ⟨dir, leads, -⟩ := Disk.store_ok normal plain (onDisk_ok (stored.symm.trans ok)).1
    exact ⟨dir, leads⟩

/-- The document of an entry holds its own parameters. -/
structure Stored (r : Registry) (c : Entry) (own : Params) (d : Disk) (rest : Params)
    (dir : Location) : Prop where
  leads : d.Leads c.path dir
  spelled : Disk.checkText (c.path.join r.config.parameters.file) = .ok ()
  fits : Disk.checkName dir r.config.parameters.file = .ok ()
  document : d.node? (dir ++ [r.config.parameters.file]) = some (.file
    ((DocumentFormat.ofPath (c.path.join r.config.parameters.file)).write
      (documentOf r.config.parameters rest own)))

theorem stored_of_persist (plain : Component.IsName r.config.parameters.file)
    (normal : c.path.normalize = c.path) (known : (w.cellsOf c).own = some own)
    (ok : r.persist c w = .ok () w') : ∃ rest dir, r.Stored c own w'.disk rest dir := by
  obtain ⟨rest, store, -⟩ := persist_ok known ok
  obtain ⟨dir, leads, spelled, fits, document⟩ := Disk.store_ok normal plain store
  exact ⟨rest, dir, leads, spelled, fits, document⟩

/-- The document of an entry stays when that of the entry around it is stored. -/
theorem Stored.beside {d d' : Disk} {rest : Params} {inner : Location} {value : Json}
    (h : r.Stored e own d rest inner) (plain : Component.IsName r.config.parameters.file)
    (normal : c.path.normalize = c.path) {name : String} (hn : Component.IsName name)
    (place : e.path = c.path.join name)
    (stored : Disk.store value (c.path.join r.config.parameters.file) d = .ok () d') :
    r.Stored e own d' rest inner := by
  obtain ⟨dir, leads, check, rfl⟩ := (place ▸ h.leads).of_join normal hn
  obtain ⟨same, dirs⟩ := Disk.store_elsewhere normal plain leads stored
  have within := Disk.store_within normal plain leads value
  rw [Disk.left_of_ok stored] at within
  refine ⟨?_, h.spelled, h.fits, ?_⟩
  · rw [place]
    exact (leads.within normal within).join normal hn check (dirs _ h.leads.isDir)
  · rw [same _ (by simp) (by simp)]
    exact h.document

/-- Whatever registry has yet to load them reads the own parameters that are stored, if the document
that holds them is read back as it was written. -/
theorem Stored.read {d : Disk} {rest : Params} {dir : Location} (h : r.Stored c own d rest dir)
    (plain : Component.IsName r.config.parameters.file) (normal : c.path.normalize = c.path)
    (reads : (DocumentFormat.ofPath (c.path.join r.config.parameters.file)).read
      ((DocumentFormat.ofPath (c.path.join r.config.parameters.file)).write
        (documentOf r.config.parameters rest own)) = .ok (documentOf r.config.parameters rest own))
    {r' : Registry} (config : r'.config.parameters = r.config.parameters) (place : e.path = c.path)
    (disk : w.disk = d) (unknown : (w.cellsOf e).own = none) :
    value (r'.own e) w = .ok own := by
  have file : e.filePath r.config.parameters.file = c.path.join r.config.parameters.file := by
    rw [← place]
    rfl
  have load := Disk.load_join normal plain h.leads h.spelled h.fits h.document reads
    (readAt_documentOf r.config.parameters rest own)
  rw [value_own, unknown, config, disk, mapOn, file, load]
  rfl

end Registry
end Lineage
