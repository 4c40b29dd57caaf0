import Lineage.Registry.Ancestry
import Lineage.Proofs.Registry.World

/-!
The parts of what an entry has loaded. Each is found out once and kept: what finds it out leaves
that part as it was, and keeping it loses nothing.
-/
namespace Lineage

open World Action

/-! ### Parts of cells -/

/-- A part of what an entry has loaded, found out at most once. -/
structure Cells.Part (β : Type) where
  known : Cells → Option β
  keep : β → Cells → Cells
  known_keep : ∀ b c, known (keep b c) = some b
  kept : ∀ b c, known c = none → Cells.Kept c (keep b c)

namespace Cells.Part

def own : Cells.Part Params where
  known := Cells.own
  keep params c := { c with own := some params }
  known_keep _ _ := rfl
  kept _ c h := ⟨fun _ hp => by simp [h] at hp, fun _ h => h, fun _ h => h, fun _ h => h⟩

def metadata : Cells.Part Params where
  known := Cells.metadata
  keep fields c := { c with metadata := some fields }
  known_keep _ _ := rfl
  kept _ c h := ⟨fun _ h => h, fun _ hp => by simp [h] at hp, fun _ h => h, fun _ h => h⟩

def parent : Cells.Part (Option Entry) where
  known := Cells.parent
  keep found c := { c with parent := some found }
  known_keep _ _ := rfl
  kept _ c h := ⟨fun _ h => h, fun _ h => h, fun _ hp => by simp [h] at hp, fun _ h => h⟩

def operations : Cells.Part (Option Namespace) where
  known := Cells.operations
  keep found c := { c with operations := some found }
  known_keep _ _ := rfl
  kept _ c h := ⟨fun _ h => h, fun _ h => h, fun _ h => h, fun _ hp => by simp [h] at hp⟩

end Cells.Part

/-- All that is known of an entry but its own parameters. -/
def Cells.beyondOwn (c : Cells) : Option Params × Option (Option Entry) × Option (Option Namespace) :=
  (c.metadata, c.parent, c.operations)

/-- What the metadata of an entry lead to. -/
def Cells.beyondMetadata (c : Cells) : Option (Option Entry) × Option (Option Namespace) :=
  (c.parent, c.operations)

def Cells.nothing (_ : Cells) : Unit := ()

namespace Registry

/-- What a map of an entry reads as on a disk. -/
def mapOn (what : String) (e : Entry) (place : DocumentPlace) (d : Disk) : Except Error Params := do
  match ← d.load (e.filePath place.file) place.path with
  | (.obj fields, _) => .ok fields
  | (other, _) =>
    .error (.storage (e.filePath place.file) s!"{what} must be a map, found {other.kind}")

theorem readMap_eq_mapOn (what : String) (e : Entry) (place : DocumentPlace) (w : World) :
    readMap what e place w = result (mapOn what e place w.disk) w := by
  rw [readMap, bind_apply, readDocument, mapOn]
  cases w.disk.load (e.filePath place.file) place.path with
  | error err => rfl
  | ok loaded =>
      obtain ⟨value, found⟩ := loaded
      cases value <;> rfl

/-- A part of an entry: what is known of it, or else what is found, which is kept. -/
def once {β : Type} (part : Cells.Part β) (e : Entry) (find : Action β) : Action β := do
  match part.known ((← get).cellsOf e) with
  | some found => return found
  | none =>
    let found ← find
    changeCells e (part.keep found)
    return found

theorem own_eq_once (r : Registry) (e : Entry) :
    r.own e = once .own e (readMap "parameters" e r.config.parameters) := by
  rw [own, once]
  congr 1
  funext w
  dsimp only [Cells.Part.own]
  cases (w.cellsOf e).own <;> rfl

theorem metadata_eq_once (r : Registry) (e : Entry) :
    r.metadata e = once .metadata e
      (if r.metadataPlace = r.config.parameters then r.own e
        else readMap "meta" e r.metadataPlace) := by
  rw [metadata, once]
  congr 1
  funext w
  dsimp only [Cells.Part.metadata]
  cases (w.cellsOf e).metadata with
  | some fields => rfl
  | none => by_cases h : r.metadataPlace = r.config.parameters <;> simp only [h, if_true, if_false]

def findParent (r : Registry) (e : Entry) : Action (Option Entry) := do
  match ← r.metadataValue e r.config.parentKey with
  | none | some .null => pure none
  | some (.str reference) => r.parentNamed e reference
  | some other =>
    throw (.malformed
      s!"'{r.config.parentKey}' of entry '{e.name}' must be a string, found {other.kind}")

theorem parent_eq_once (r : Registry) (e : Entry) :
    r.parent e = once .parent e (r.findParent e) := by
  rw [parent, once, findParent]
  congr 1
  funext w
  dsimp only [Cells.Part.parent]
  cases (w.cellsOf e).parent with
  | some found => rfl
  | none =>
      dsimp only
      rw [bind_assoc]
      congr 1
      funext v
      cases v with
      | none => rfl
      | some value => cases value <;> rfl

def findOperations (r : Registry) (e : Entry) : Action (Option Namespace) := do
  match ← r.metadataValue e r.config.operationsKey with
  | none | some .null => pure none
  | some (.str name) => pure (Table.get? r.catalog name)
  | some other =>
    throw (.malformed <|
      s!"'{r.config.operationsKey}' of entry '{e.name}' must name a namespace, found "
        ++ other.compact)

theorem operations_eq_once (r : Registry) (e : Entry) :
    r.operations e = once .operations e (r.findOperations e) := by
  rw [operations, once, findOperations]
  congr 1
  funext w
  dsimp only [Cells.Part.operations]
  cases (w.cellsOf e).operations with
  | some found => rfl
  | none =>
      dsimp only
      rw [bind_assoc]
      congr 1
      funext v
      cases v with
      | none => rfl
      | some value => cases value <;> rfl

theorem once_of_known {β : Type} {part : Cells.Part β} {e : Entry} {w : World} {b : β}
    (h : part.known (w.cellsOf e) = some b) (find : Action β) :
    once part e find w = .ok b w := by
  rw [once]
  rw [bind_of_ok (get_apply w), h]
  rfl

theorem once_of_unknown {β : Type} {part : Cells.Part β} {e : Entry} {w : World}
    (h : part.known (w.cellsOf e) = none) (find : Action β) :
    once part e find w = (match find w with
      | .ok b w₁ => .ok b (w₁.setCells e (part.keep b (w₁.cellsOf e)))
      | .error err w₁ => .error err w₁) := by
  rw [once]
  rw [bind_of_ok (get_apply w), h]
  dsimp only
  rw [bind_apply]
  cases find w <;> rfl

theorem own_apply (r : Registry) (e : Entry) (w : World) :
    r.own e w = match (w.cellsOf e).own with
      | some params => .ok params w
      | none =>
        match mapOn "parameters" e r.config.parameters w.disk with
        | .ok params => .ok params (w.setCells e { w.cellsOf e with own := some params })
        | .error err => .error err w := by
  rw [own_eq_once]
  cases h : (w.cellsOf e).own with
  | some params => exact once_of_known (show Cells.Part.own.known (w.cellsOf e) = some params from h) _
  | none =>
      rw [once_of_unknown (show Cells.Part.own.known (w.cellsOf e) = none from h)]
      rw [readMap_eq_mapOn]
      cases mapOn "parameters" e r.config.parameters w.disk <;> rfl

theorem own_of_document (r : Registry) {e : Entry} {w : World} {params : Params} {found : Bool}
    (new : (w.cellsOf e).own = none)
    (load : w.disk.load (e.filePath r.config.parameters.file) r.config.parameters.path =
      .ok (.obj params, found)) :
    r.own e w = .ok params (w.setCells e { w.cellsOf e with own := some params }) := by
  rw [own_apply, new, mapOn, load]
  rfl

theorem keep_extends {β γ : Type} (part : Cells.Part β) {view : Cells → γ} {e : Entry} {w : World}
    (h : part.known (w.cellsOf e) = none) (unseen : ∀ b c, view (part.keep b c) = view c) (b : β)
    (parent : ∀ p, (part.keep b (w.cellsOf e)).parent = some (some p) →
      w.Listed p ∨ (w.cellsOf e).parent = some (some p)) :
    Extends view w (w.setCells e (part.keep b (w.cellsOf e))) where
  disk := rfl
  grows := by simp [Grows, setCells]
  kept x := by
    rcases cellsOf_setCells_cases w e x (part.keep b (w.cellsOf e)) with ⟨hx, hc⟩ | hc
    · rw [hc, cellsOf_congr w hx]
      exact part.kept b _ h
    · rw [hc]
      exact .refl _
  same x := by
    rcases cellsOf_setCells_cases w e x (part.keep b (w.cellsOf e)) with ⟨hx, hc⟩ | hc
    · rw [hc, cellsOf_congr w hx, unseen]
    · rw [hc]
  recalls := recalls_of_tables rfl rfl
  faithful hf := hf.setCells e fun p hp => (parent p hp).elim hf.known_of_listed (hf.parent e p)
  numbers _ hs := hs.setCells e fun p hp => (parent p hp).elim .listed .parent

/-- Finding a part of an entry once adds to the world what finding it does, and the part. -/
theorem once_along {β γ δ : Type} {part : Cells.Part β} {view : Cells → γ} {view' : Cells → δ}
    {e : Entry} {find : Action β} {P : World → Prop} {Q S : β → World → Prop}
    (unfound : ∀ c c', view c = view c' → part.known c = part.known c')
    (coarser : ∀ c c', view c = view c' → view' c = view' c')
    (unseen : ∀ b c, view' (part.keep b c) = view' c)
    (already : ∀ b w, w.Sound → part.known (w.cellsOf e) = some b → S b w)
    (sound : ∀ b w, w.Sound → Q b w → (w.setCells e (part.keep b (w.cellsOf e))).Sound)
    (parent : ∀ b w, Q b w → ∀ p, (part.keep b (w.cellsOf e)).parent = some (some p) →
      w.Listed p ∨ (w.cellsOf e).parent = some (some p))
    (stays : ∀ b w w', w.Sound → w.Grows w' → Q b w → S b w') (h : Along (Extends view) P find Q) :
    Along (Extends view') P (once part e find) fun b w =>
      S b w ∧ (w.Holds e → part.known (w.cellsOf e) = some b) := by
  intro w hw hp
  cases hk : part.known (w.cellsOf e) with
  | some b =>
      have ho := once_of_known hk find
      rw [after_of_ok ho]
      refine ⟨(extends_course view').refl w, hw, fun b' w' hb => ?_⟩
      obtain ⟨rfl, rfl⟩ : b = b' ∧ w = w' := by simpa [ho] using hb
      exact ⟨already b w hw hk, fun _ => hk⟩
  | none =>
      have ho := once_of_unknown hk find
      obtain ⟨hr, hs, hq⟩ := h w hw hp
      cases hf : find w with
      | error err w₁ =>
          rw [hf] at ho
          rw [after_of_error hf] at hr hs
          rw [after_of_error ho]
          exact ⟨hr.of_finer coarser, hs, fun b w' hb => by rw [ho] at hb; cases hb⟩
      | ok b w₁ =>
          rw [hf] at ho
          rw [after_of_ok hf] at hr hs
          rw [after_of_ok ho]
          have hk₁ : part.known (w₁.cellsOf e) = none := by rw [← hk, unfound _ _ (hr.same e)]
          have hkeep := keep_extends part hk₁ unseen b (parent b w₁ (hq b w₁ hf))
          refine ⟨(extends_course view').trans (hr.of_finer coarser) hkeep,
            sound b w₁ hs (hq b w₁ hf), fun b' w' hb => ?_⟩
          obtain ⟨rfl, rfl⟩ : b = b' ∧ w₁.setCells e (part.keep b (w₁.cellsOf e)) = w' := by
            simpa [ho] using hb
          refine ⟨stays b w₁ _ hs hkeep.grows (hq b w₁ hf), fun he => ?_⟩
          rw [cellsOf_setCells_self (holds_setCells.mp he) rfl, part.known_keep]

end Registry
end Lineage
