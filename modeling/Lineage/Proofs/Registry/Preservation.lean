import Lineage.Proofs.Json.Tree
import Lineage.Proofs.Registry.Persistence

/-!
What a write of own parameters leaves as it was. Kept at a place inside a document, they are written
there, and what the document holds beside that place stays, unless the way to it parts from the way to
the place at a list: the reader passes a list by the number of an element, but the writer puts a map
in place of the whole list.
-/
namespace Lineage

open World Action
open Component (IsName)

variable {doc found : Json} {place keys : List String}

theorem Json.readAt_assign_aside (reads : doc.readAt place = .ok found) (aside : Aside place keys)
    (part : doc.PartInMaps place keys) (new : Json) :
    (Json.obj (Step.assign (doc.obj?.getD []) place new)).readAt keys = doc.readAt keys := by
  cases place with
  | nil => exact absurd List.nil_prefix aside.1
  | cons key rest =>
      cases doc with
      | obj tree => exact readAt_writeBelow_aside reads aside part
      | arr items => exact absurd rfl (part [] List.nil_prefix List.nil_prefix items)
      | null | bool _ | int _ | float _ | str _ => cases reads

namespace Disk

variable {d : Disk} {path : Path} {text : String}

/-- What a document that is read holds at a key path, or the fault on the way there. -/
def loadedAt (path : Path) (doc : Json) (nested : List String) : Except Error (Json × Bool) :=
  match doc.readAt nested with
  | .ok value => .ok (value, true)
  | .error e => .error (.storage path e.message)

theorem load_eq_loadedAt (stat : d.stat path = .ok (.file text))
    (reads : (DocumentFormat.ofPath path).read text = .ok doc) (nested : List String) :
    d.load path nested = loadedAt path doc nested := by
  have exists_ : d.exists? path = true := by rw [exists?, stat]
  have read : d.read path = .ok text := by
    rw [Disk.read, stat]
    rfl
  cases at_ : doc.readAt nested <;> simp [load, exists_, read, reads, loadedAt, at_]

/-- A document that is there is a file whose text is read. -/
theorem stat_of_load (h : d.load path [] = .ok (doc, true)) :
    ∃ text, d.stat path = .ok (.file text) ∧ (DocumentFormat.ofPath path).read text = .ok doc := by
  rw [load] at h
  split at h
  · cases h
  · split at h
    · cases h
    · rename_i text read
      split at h
      · cases h
      · rename_i whole reads
        rw [Json.readAt_nil] at h
        cases h
        refine ⟨text, ?_, reads⟩
        obtain ⟨node, stat, he⟩ := bind_eq_ok.mp read
        cases node with
        | dir => cases he
        | file text' =>
            cases he
            exact stat

end Disk

namespace Registry

variable {r : Registry} {e : Entry} {w w' : World} {own : Params}

theorem value_document (nested : r.config.parameters.path ≠ [])
    (load : w.disk.load (e.path.join r.config.parameters.file) [] = .ok (doc, true))
    (read : value (r.own e) w = .ok own) (held : w.Holds e) : value (r.document e) w =
      .ok (.obj (Step.assign (doc.obj?.getD []) r.config.parameters.path (.obj own))) := by
  have known : r.own e w = .ok own (after (r.own e) w) := by
    rw [eq_result (r.own e) w, read, result]
  have disk := (known_of_own held known).2.2
  have file : e.filePath r.config.parameters.file = e.path.join r.config.parameters.file := rfl
  have nonempty : r.config.parameters.path.isEmpty = false := by simpa using nested
  rw [document, value, bind_of_ok known]
  dsimp only
  rw [nonempty, if_neg Bool.false_ne_true, bind_apply, readDocument, file, disk, load]
  rfl

/-- A successful write of own parameters, after any edits of them, preserves the rest of the document:
they are what the document then holds at their place, and at any key path beside that it holds what it
held, or nothing as before, if no list stands where that path and the place are still together. -/
theorem persist_preserves_rest {edits : List Edit} {before : Params} (held : w.Holds e)
    (nested : r.config.parameters.path ≠ [])
    (document : w.disk.load (e.path.join r.config.parameters.file) [] = .ok (doc, true))
    (map : doc.readAt r.config.parameters.path = .ok (.obj before))
    (ok : (do r.editAll e edits; r.persist e) w = .ok () w') :
    ∃ own doc', value (r.own e) w' = .ok own ∧
      value (do r.editAll e edits; r.document e) w = .ok doc' ∧
      w'.disk.stat (e.path.join r.config.parameters.file) = .ok (.file
        ((DocumentFormat.ofPath (e.path.join r.config.parameters.file)).write doc')) ∧
      doc'.readAt r.config.parameters.path = .ok (.obj own) ∧
      ∀ keys, Json.Aside r.config.parameters.path keys →
        doc.PartInMaps r.config.parameters.path keys →
          doc'.readAt keys = doc.readAt keys ∧
          ((DocumentFormat.ofPath (e.path.join r.config.parameters.file)).read
              ((DocumentFormat.ofPath (e.path.join r.config.parameters.file)).write doc') = .ok doc' →
            w'.disk.load (e.path.join r.config.parameters.file) keys =
              w.disk.load (e.path.join r.config.parameters.file) keys) := by
  obtain ⟨_, w₁, edited, persisted⟩ := bind_eq_ok_iff.mp ok
  obtain ⟨held₁, disk, -⟩ := own_of_editAll held edited
  obtain ⟨doc', own, made, read, kept, there, d, stored⟩ := persist_eq_ok held₁ persisted
  have written := Disk.stat_of_store stored
  have left : value (do r.editAll e edits; r.document e) w = .ok doc' := by
    rw [value, bind_of_ok edited]
    exact made
  rw [value_document nested (disk ▸ document) read held₁] at made
  cases made
  refine ⟨own, _, kept, left, written, there, fun keys aside part => ?_⟩
  have same := Json.readAt_assign_aside map aside part (.obj own)
  refine ⟨same, fun reads => ?_⟩
  obtain ⟨text, stat, was⟩ := Disk.stat_of_load document
  rw [Disk.load_eq_loadedAt written reads, Disk.load_eq_loadedAt stat was, Disk.loadedAt,
    Disk.loadedAt, same]

namespace Sample

/-- What the sample keeps beside its own parameters is loaded after a write of these as before. -/
theorem chest_rest_kept : ∃ w,
    (do chestRegistry.editAll chest chestEdits; chestRegistry.persist chest) (chestWith none) =
      .ok () w ∧ w.disk.load chestFile ["kept"] = .ok (.bool true, true) := by
  obtain ⟨w, ok⟩ := chest_persisted
  have held : (chestWith none).Holds chest := by
    rw [World.Holds]
    decide
  have file : chest.path.join chestRegistry.config.parameters.file = chestFile := chest_file
  have document : (chestWith none).disk.load
      (chest.path.join chestRegistry.config.parameters.file) [] = .ok (chestBefore, true) := by
    rw [file]
    exact chest_load rfl
  have map : chestBefore.readAt chestRegistry.config.parameters.path =
      .ok (.obj [("size", .int 1)]) := rfl
  obtain ⟨own, doc, -, made, -, -, kept⟩ :=
    persist_preserves_rest held (by decide) document map ok
  obtain rfl : chestAfter = doc := by
    rw [value, bind_of_ok chest_edited, chest_document] at made
    exact Except.ok.inj made
  have part : chestBefore.PartInMaps chestRegistry.config.parameters.path ["kept"] := by
    intro common place keys items list
    obtain rfl : common = [] := by
      cases common with
      | nil => rfl
      | cons key rest =>
          obtain ⟨rfl, -⟩ := List.cons_prefix_cons.mp place
          exact absurd (List.cons_prefix_cons.mp keys).1 (by decide)
    cases list
  have loads := (kept ["kept"] ⟨by decide, by decide⟩ part).2
  rw [file, chest_format] at loads
  refine ⟨w, ok, (loads (DocumentFormat.read_write legible_chest.2)).trans ?_⟩
  exact chest_load rfl

/-! ### A place behind a list -/

def rackBefore : Json := .obj [("list", .arr [.obj [("size", .int 1)], .int 7])]

def rackAfter : Json := .obj [("list", .obj [("0", .obj [("size", .int 2)])])]

theorem legible_rack : rackBefore.Legible 127 ∧ rackAfter.Legible 127 := by
  constructor
  · refine .field (.arr (List.forall_mem_cons.mpr ⟨.field (.int (by decide)), ?_⟩))
    exact List.forall_mem_singleton.mpr (.int (by decide))
  · exact .field (.field (.field (.int (by decide))))

/-- The own parameters are the first element of a list in the document. -/
def rackRegistry : Registry :=
  { chestRegistry with
    config := { collections := [], parameters := ⟨"parameters.json", ["list", "0"]⟩ } }

def rackWith (own : Params) : World where
  disk := { cwd := [], nodes := [(["chest"], .dir),
    (["chest", "parameters.json"], .file (DocumentFormat.json.write rackBefore))] }
  cells := [{ own := some own }]

theorem rack_load {own : Params} {nested : List String} {found : Json}
    (at_ : rackBefore.readAt nested = .ok found) :
    (rackWith own).disk.load chestFile nested = .ok (found, true) := by
  have stat : (rackWith own).disk.stat chestFile =
      .ok (.file (DocumentFormat.json.write rackBefore)) := rfl
  exact Disk.load_written stat chest_format legible_rack.1 at_

/-- The writer takes a list on the way for no map and makes one in place of it, so the element beside
the own parameters is lost. -/
theorem list_gives_way_to_map : ∃ w,
    (do rackRegistry.editAll chest [.set "size" (.int 2)]; rackRegistry.persist chest)
      (rackWith [("size", .int 1)]) = .ok () w ∧
    rackBefore.readAt rackRegistry.config.parameters.path = .ok (.obj [("size", .int 1)]) ∧
    Json.Aside rackRegistry.config.parameters.path ["list", "1"] ∧
    (rackWith [("size", .int 1)]).disk.load chestFile ["list", "1"] = .ok (.int 7, true) ∧
    w.disk.load chestFile ["list", "1"] = .ok (.obj [], true) := by
  have edited : rackRegistry.editAll chest [.set "size" (.int 2)] (rackWith [("size", .int 1)]) =
      .ok () (rackWith [("size", .int 2)]) := rfl
  have file : chest.path.join rackRegistry.config.parameters.file = chestFile := chest_file
  have made : rackRegistry.document chest (rackWith [("size", .int 2)]) =
      .ok rackAfter (rackWith [("size", .int 2)]) := by
    have read : readDocument chestFile [] (rackWith [("size", .int 2)]) =
        .ok rackBefore (rackWith [("size", .int 2)]) := by
      rw [readDocument, rack_load rfl]
    rw [document, bind_of_ok (own_of_known _ rfl)]
    dsimp only
    rw [if_neg (by decide), show chest.filePath rackRegistry.config.parameters.file = chestFile from
      chest_file, bind_of_ok read]
    rfl
  obtain ⟨d, stored⟩ : ∃ d, Disk.store rackAfter chestFile (rackWith [("size", .int 2)]).disk =
      .ok () d := by
    rw [Disk.store]
    generalize (DocumentFormat.ofPath chestFile).write rackAfter = text
    exact ⟨_, rfl⟩
  refine ⟨{ rackWith [("size", .int 2)] with disk := d }, ?_, rfl, ⟨by decide, by decide⟩,
    rack_load rfl, Disk.load_of_store stored ?_ rfl⟩
  · rw [bind_of_ok edited, persist_eq, bind_of_ok made, file, onDisk, stored]
  · rw [chest_format]
    exact DocumentFormat.read_write legible_rack.2

end Sample

end Registry
end Lineage
