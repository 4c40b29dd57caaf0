import Lineage.Proofs.Disk.Replace
import Lineage.Proofs.Registry.Editing
import Lineage.Proofs.Registry.Roots

/-!
What is persisted is what is loaded next. Own parameters are edited in memory and written to their
place in the document of the entry; a registry made anew from the same configuration loads from there
the very parameters that were in memory, wherever in the document they are kept and whatever the
document held before.
-/
namespace Lineage

open World Action
open Component (IsName)

/-- A change of the own parameters of an entry in memory. -/
inductive Edit where
  | set (name : String) (value : Json)
  | overlay (data : Params)

def Edit.apply (own : Params) : Edit → Params
  | set name value => Table.insert own name value
  | overlay data => Table.overlay own data

namespace Registry

variable {r : Registry} {e : Entry} {w w' : World} {own : Params} {doc : Json}

def edit (r : Registry) (e : Entry) : Edit → Action Unit
  | .set name value => r.setParameter e name value
  | .overlay data => r.updateParameters e data

def editAll (r : Registry) (e : Entry) (edits : List Edit) : Action Unit := edits.forM (r.edit e)

/-- The document that a write of the own parameters stores. -/
def document (r : Registry) (e : Entry) : Action Json := do
  let params ← r.own e
  let place := r.config.parameters
  if place.path.isEmpty then return .obj params
  else
    let whole := (← readDocument (e.filePath place.file) []).obj?.getD []
    return .obj (Step.assign whole place.path (.obj params))

/-! ### Memory -/

/-- Own parameters that were asked for are known from then on. -/
theorem known_of_own (held : w.Holds e) (h : r.own e w = .ok own w') :
    (w'.cellsOf e).own = some own ∧ w'.Holds e ∧ w'.disk = w.disk := by
  rw [own_apply] at h
  cases known : (w.cellsOf e).own with
  | some params =>
      rw [known] at h
      cases h
      exact ⟨known, held, rfl⟩
  | none =>
      rw [known] at h
      dsimp only at h
      split at h
      · cases h
        exact ⟨by rw [cellsOf_setCells_self held rfl], holds_setCells.mpr held, rfl⟩
      · cases h

/-- New own parameters, made of the present ones, are in memory from then on. -/
theorem changeOwn_ok {f : Params → Params} (held : w.Holds e)
    (ok : (r.own e >>= fun own => changeCells e fun c => { c with own := some (f own) }) w =
      .ok () w') : ∃ before, value (r.own e) w = .ok before ∧
        (w'.cellsOf e).own = some (f before) ∧ w'.Holds e ∧ w'.disk = w.disk := by
  obtain ⟨before, w₁, read, change⟩ := bind_eq_ok_iff.mp ok
  obtain ⟨known, held₁, disk⟩ := known_of_own held read
  cases change
  refine ⟨before, by rw [value, read], ?_, holds_setCells.mpr held₁, disk⟩
  rw [cellsOf_setCells_self held₁ rfl]

theorem edit_eq (r : Registry) (e : Entry) (x : Edit) :
    r.edit e x = r.own e >>= fun own =>
      changeCells e fun c => { c with own := some (x.apply own) } := by
  cases x <;> rfl

/-- An edit changes what is loaded, and nothing on the disk. -/
theorem own_of_edit {x : Edit} (held : w.Holds e) (h : r.edit e x w = .ok () w') :
    w'.Holds e ∧ w'.disk = w.disk ∧ ∃ before, value (r.own e) w = .ok before ∧
      value (r.own e) w' = .ok (x.apply before) := by
  rw [edit_eq] at h
  obtain ⟨before, read, known, held', disk⟩ := changeOwn_ok held h
  exact ⟨held', disk, before, read, value_own_of_known known⟩

theorem own_of_editAll {edits : List Edit} (held : w.Holds e) (h : r.editAll e edits w = .ok () w') :
    w'.Holds e ∧ w'.disk = w.disk ∧ ∀ own, value (r.own e) w' = .ok own →
      ∃ before, value (r.own e) w = .ok before ∧ edits.foldl Edit.apply before = own := by
  induction edits generalizing w with
  | nil =>
      cases h
      exact ⟨held, rfl, fun own known => ⟨own, known, rfl⟩⟩
  | cons x edits ih =>
      obtain ⟨_, w₁, first, rest⟩ := bind_eq_ok_iff.mp h
      obtain ⟨held₁, disk₁, before, known, changed⟩ := own_of_edit held first
      obtain ⟨held', disk', later⟩ := ih held₁ rest
      refine ⟨held', disk'.trans disk₁, fun own loaded => ⟨before, known, ?_⟩⟩
      obtain ⟨next, known₁, fold⟩ := later own loaded
      cases changed.symm.trans known₁
      exact fold

/-! ### Writing -/

theorem persist_eq (r : Registry) (e : Entry) :
    r.persist e = r.document e >>= fun doc =>
      onDisk (Disk.store doc (e.path.join r.config.parameters.file)) := by
  funext w
  rw [persist, document, bind_apply, bind_apply, bind_apply]
  cases r.own e w with
  | error err w₁ => rfl
  | ok params w₁ =>
      dsimp only
      split
      · rfl
      · rw [bind_apply, bind_apply]
        cases readDocument (e.filePath r.config.parameters.file) [] w₁ <;> rfl

/-- The document has the own parameters at their place. -/
theorem readAt_document {w₁ : World} (held : w.Holds e) (h : r.document e w = .ok doc w₁) :
    ∃ own, value (r.own e) w = .ok own ∧ (w₁.cellsOf e).own = some own ∧
      doc.readAt r.config.parameters.path = .ok (.obj own) := by
  obtain ⟨own, w₂, read, h⟩ := bind_eq_ok_iff.mp h
  obtain ⟨known, -, -⟩ := known_of_own held read
  refine ⟨own, by rw [value, read], ?_⟩
  dsimp only at h
  split at h
  · rename_i top
    cases h
    refine ⟨known, ?_⟩
    rw [List.isEmpty_iff.mp top]
    rfl
  · rename_i nested
    obtain ⟨whole, w₃, load, h⟩ := bind_eq_ok_iff.mp h
    obtain rfl : w₂ = w₃ := by
      rw [readDocument] at load
      split at load <;> cases load
      rfl
    cases h
    refine ⟨known, ?_⟩
    cases hp : r.config.parameters.path with
    | nil => exact absurd (by rw [hp]; rfl) nested
    | cons key path => exact Disk.readAt_writeBelow _ key path (.obj own)

/-- A write stores the document, and the parameters in memory stay. -/
theorem persist_eq_ok (held : w.Holds e) (h : r.persist e w = .ok () w') :
    ∃ doc own, value (r.document e) w = .ok doc ∧ value (r.own e) w = .ok own ∧
      value (r.own e) w' = .ok own ∧ doc.readAt r.config.parameters.path = .ok (.obj own) ∧
        ∃ d, Disk.store doc (e.path.join r.config.parameters.file) d = .ok () w'.disk := by
  rw [persist_eq] at h
  obtain ⟨doc, w₁, made, stored⟩ := bind_eq_ok_iff.mp h
  obtain ⟨own, read, known, place⟩ := readAt_document held made
  refine ⟨doc, own, by rw [value, made], read, ?_, place, ?_⟩
  · refine value_own_of_known ?_
    rw [onDisk] at stored
    split at stored <;> cases stored
    exact known
  · rw [onDisk] at stored
    split at stored <;> cases stored
    exact ⟨_, ‹_›⟩

/-! ### Loading -/

/-- An entry of which nothing is loaded reads the own parameters that its document has. -/
theorem own_of_load {r' : Registry} {e' : Entry} (config : r'.config = r.config)
    (path : e'.path = e.path) (unknown : (w.cellsOf e').own = none)
    (load : w.disk.load (e.path.join r.config.parameters.file) r.config.parameters.path =
      .ok (.obj own, true)) : value (r'.own e') w = .ok own := by
  have file : e'.filePath r.config.parameters.file = e.path.join r.config.parameters.file := by
    rw [← path]
    rfl
  rw [value_own, unknown, config, mapOn, file, load]
  rfl

/-- A registry made anew knows of nothing loaded. -/
theorem ofConfig_fresh (config : Config) (base : Path) (catalog : Catalog)
    (builtins : List Namespace) (d : Disk) :
    ∃ r w, ofConfig config base catalog builtins { disk := d } = .ok r w ∧ r.config = config ∧
      w.disk = d ∧ (∀ e, w.cellsOf e = {}) ∧
        ∀ place e, Table.get? w.byPath place = some e →
          place = e.path.components ∧ e.path.normalize = e.path := by
  obtain ⟨roots, w, made, rooted⟩ := mapM_createRoot_ok base config.collections { disk := d }
  refine ⟨_, w, by rw [ofConfig, bind_of_ok made]; rfl, rfl, rooted.disk, fun e => ?_, ?_⟩
  · rw [cellsOf, rooted.cells, List.nil_append, List.getElem?_replicate]
    split <;> rfl
  · intro place e known
    have last := (rooted.path place).symm.trans known
    rw [Table.get?_nil, Option.or_none] at last
    obtain ⟨mem, rfl⟩ := mem_of_lastWith last
    refine ⟨rfl, ?_⟩
    have placed : (e.path, e.name) ∈ config.collections.map fun s => (rootPlace base s, s.name) :=
      rooted.made ▸ List.mem_map_of_mem mem
    obtain ⟨spec, -, he⟩ := List.mem_map.mp placed
    rw [← (Prod.mk.inj he).1]
    exact Path.normalize_normalize _

/-- What is persisted after any edits is what the same place is found to hold by a registry made anew
from the same configuration: the parameters in memory, in their order. -/
theorem persisted_is_loaded {edits : List Edit} (plain : IsName r.config.parameters.file)
    (json : DocumentFormat.ofPath ⟨r.config.parameters.file⟩ = .json) (held : w.Holds e)
    (ok : (do r.editAll e edits; r.persist e) w = .ok () w')
    (legible : ∀ doc, value (do r.editAll e edits; r.document e) w = .ok doc → doc.Legible 127) :
    ∃ before own, value (r.own e) w = .ok before ∧ edits.foldl Edit.apply before = own ∧
      value (r.own e) w' = .ok own ∧ ∀ base catalog builtins,
        (∀ name, value (do
          let fresh ← ofConfig r.config base catalog builtins
          fresh.own (← create e.path name {})) { disk := w'.disk } = .ok own) ∧
        (e.path.normalize = e.path → value (do
          let fresh ← ofConfig r.config base catalog builtins
          fresh.own (← byPath e.path)) { disk := w'.disk } = .ok own) := by
  obtain ⟨_, w₁, edited, persisted⟩ := bind_eq_ok_iff.mp ok
  obtain ⟨held₁, -, memory⟩ := own_of_editAll held edited
  obtain ⟨doc, own, made, read, kept, place, d, stored⟩ := persist_eq_ok held₁ persisted
  obtain ⟨before, known, changed⟩ := memory own read
  have format : DocumentFormat.ofPath (e.path.join r.config.parameters.file) = .json :=
    (DocumentFormat.ofPath_join e.path plain).trans json
  have load : w'.disk.load (e.path.join r.config.parameters.file) r.config.parameters.path =
      .ok (.obj own, true) := by
    refine Disk.load_of_store stored ?_ place
    rw [format]
    exact DocumentFormat.read_write (legible doc (by rw [value, bind_of_ok edited]; exact made))
  refine ⟨before, own, known, changed, kept, fun base catalog builtins => ?_⟩
  obtain ⟨fresh, w₂, start, config, disk, empty, placed⟩ :=
    ofConfig_fresh r.config base catalog builtins w'.disk
  rw [← disk] at load
  refine ⟨fun name => ?_, fun normal => ?_⟩
  · have made : create e.path name {} w₂ = .ok ⟨w₂.cells.length, e.path, name⟩
        { w₂ with cells := w₂.cells ++ [({} : Cells)] } := rfl
    rw [value, bind_of_ok start, bind_of_ok made]
    refine own_of_load config rfl ?_ load
    rw [cellsOf_append_empty, empty]
  · rw [value, bind_of_ok start]
    cases at_ : Table.get? w₂.byPath e.path.normalize.components with
    | some e' =>
        obtain ⟨there, spelled⟩ := placed _ e' at_
        have path : e'.path = e.path :=
          Path.eq_of_components spelled normal (by rw [← there, normal])
        rw [bind_of_ok (byPath_of_known at_)]
        exact own_of_load config path (by rw [empty]) load
    | none =>
        rw [bind_of_ok (byPath_of_unknown at_)]
        refine own_of_load config normal ?_ load
        rw [cellsOf_enroll, empty]

namespace Sample

def chestBefore : Json := .obj [("kept", .bool true), ("own", .obj [("size", .int 1)])]

def chestOwn : Params := [("size", .int 2), ("colour", .str "red")]

def chestAfter : Json := .obj [("kept", .bool true), ("own", .obj chestOwn)]

theorem legible_chest : chestBefore.Legible 127 ∧ chestAfter.Legible 127 := by
  have distinct {fields : Params} (h : (fields.map Prod.fst).Nodup) : Table.Distinct fields := h
  constructor
  · refine .obj (distinct (by decide)) (List.forall_mem_cons.mpr ⟨.bool, ?_⟩)
    refine List.forall_mem_singleton.mpr (.obj (distinct (by decide)) ?_)
    exact List.forall_mem_singleton.mpr (.int (by decide))
  · refine .obj (distinct (by decide)) (List.forall_mem_cons.mpr ⟨.bool, ?_⟩)
    refine List.forall_mem_singleton.mpr (.obj (distinct (by decide)) ?_)
    exact List.forall_mem_cons.mpr ⟨.int (by decide), List.forall_mem_singleton.mpr .str⟩

/-- A document that keeps the own parameters under a key, beside something else. -/
def chestDisk : Disk where
  cwd := []
  nodes := [(["chest"], .dir),
    (["chest", "parameters.json"], .file (DocumentFormat.json.write chestBefore))]

def chestRegistry : Registry where
  base := ⟨""⟩
  config := { collections := [], parameters := ⟨"parameters.json", ["own"]⟩ }
  roots := []
  catalog := []
  builtins := []

def chest : Entry := ⟨0, ⟨"chest"⟩, "chest"⟩

def chestFile : Path := ⟨"chest/parameters.json"⟩

/-- The sample world, with own parameters in memory or not. -/
def chestWith (own : Option Params) : World where
  disk := chestDisk
  cells := [{ own := own }]

def chestEdits : List Edit := [.set "colour" (.str "red"), .overlay [("size", .int 2)]]

theorem chest_file : chest.filePath chestRegistry.config.parameters.file = chestFile := by rfl

theorem chest_stat :
    chestDisk.stat chestFile = .ok (.file (DocumentFormat.json.write chestBefore)) := by
  rfl

theorem chest_format : DocumentFormat.ofPath chestFile = .json := by rfl

theorem chest_load {nested : List String} {found : Json} (at_ : chestBefore.readAt nested = .ok found) :
    chestDisk.load chestFile nested = .ok (found, true) :=
  Disk.load_written chest_stat chest_format legible_chest.1 at_

theorem chest_own : chestRegistry.own chest (chestWith none) =
    .ok [("size", .int 1)] (chestWith (some [("size", .int 1)])) := by
  have load : (chestWith none).disk.load chestFile ["own"] = .ok (.obj [("size", .int 1)], true) :=
    chest_load rfl
  exact own_of_document chestRegistry rfl load

theorem chest_edited :
    chestRegistry.editAll chest chestEdits (chestWith none) = .ok () (chestWith (some chestOwn)) := by
  have first : chestRegistry.edit chest (.set "colour" (.str "red")) (chestWith none) =
      .ok () (chestWith (some [("size", .int 1), ("colour", .str "red")])) := by
    rw [edit_eq, bind_of_ok chest_own]
    rfl
  have second : chestRegistry.edit chest (.overlay [("size", .int 2)])
      (chestWith (some [("size", .int 1), ("colour", .str "red")])) =
        .ok () (chestWith (some chestOwn)) := by
    rw [edit_eq, bind_of_ok (own_of_known _ rfl)]
    rfl
  exact (bind_of_ok first _).trans ((bind_of_ok second _).trans rfl)

theorem chest_document : chestRegistry.document chest (chestWith (some chestOwn)) =
    .ok chestAfter (chestWith (some chestOwn)) := by
  have read : readDocument chestFile [] (chestWith (some chestOwn)) =
      .ok chestBefore (chestWith (some chestOwn)) := by
    rw [readDocument, show (chestWith (some chestOwn)).disk = chestDisk from rfl, chest_load rfl]
  rw [document, bind_of_ok (own_of_known _ rfl)]
  dsimp only
  rw [if_neg (by decide), chest_file, bind_of_ok read]
  rfl

/-- Whatever is stored for the sample, its directory is there. -/
theorem chest_store (value : Json) : ∃ d, Disk.store value chestFile chestDisk = .ok () d := by
  rw [Disk.store]
  generalize (DocumentFormat.ofPath chestFile).write value = text
  exact ⟨_, rfl⟩

theorem chest_persisted :
    ∃ w, (do chestRegistry.editAll chest chestEdits; chestRegistry.persist chest) (chestWith none) =
      .ok () w := by
  obtain ⟨d, stored⟩ := chest_store chestAfter
  have file : chest.path.join chestRegistry.config.parameters.file = chestFile := chest_file
  refine ⟨{ chestWith (some chestOwn) with disk := d }, ?_⟩
  rw [bind_of_ok chest_edited, persist_eq, bind_of_ok chest_document, file, onDisk,
    show (chestWith (some chestOwn)).disk = chestDisk from rfl, stored]

/-- The colour and the new size of the sample are loaded by any registry made anew. -/
theorem chest_reloaded : ∃ w,
    (do chestRegistry.editAll chest chestEdits; chestRegistry.persist chest) (chestWith none) =
      .ok () w ∧ value (chestRegistry.own chest) w = .ok chestOwn ∧
    value (do
      let fresh ← ofConfig chestRegistry.config ⟨""⟩ [] []
      fresh.own (← byPath ⟨"chest"⟩)) { disk := w.disk } = .ok chestOwn := by
  obtain ⟨w, ok⟩ := chest_persisted
  have plain : IsName chestRegistry.config.parameters.file := by
    refine ⟨?_, ?_, ?_⟩ <;> decide
  have held : (chestWith none).Holds chest := by
    rw [World.Holds]
    decide
  have legible : ∀ doc, value (do
      chestRegistry.editAll chest chestEdits
      chestRegistry.document chest) (chestWith none) = .ok doc → doc.Legible 127 := by
    intro doc made
    rw [value, bind_of_ok chest_edited, chest_document] at made
    cases made
    exact legible_chest.2
  obtain ⟨before, own, known, changed, kept, loaded⟩ :=
    persisted_is_loaded plain (by rfl) held ok legible
  obtain rfl : [("size", .int 1)] = before := by
    rw [value, chest_own] at known
    exact Except.ok.inj known
  cases changed
  exact ⟨w, ok, kept, (loaded ⟨""⟩ [] []).2 (by rfl)⟩

end Sample

end Registry
end Lineage
