import Lineage.Proofs.Registry.Identity

/-!
Entries in hand. A session hands out entries: its collections, the entries that it creates and those
that a lookup comes by. Each of them has a number to itself, also where a place or a name has been
given to one entry after another.
-/
namespace Lineage

open World Action

namespace World

def KeepsNumbers (w w' : World) : Prop := ∀ S, w.Numbers S → w'.Numbers S

theorem frame_keepsNumbers : Frame KeepsNumbers where
  refl _ _ h := h
  trans h h' S hs := h' S (h S hs)
  lookup h := h.numbers
  disk _ _ _ h := h.of_shown (Nat.le_refl _) fun _ shown => by
    cases shown with
    | given he => exact .given he
    | listed he => exact .listed he
    | parent he => exact .parent he

theorem bears_keepsNumbers (e : Entry) : Bears KeepsNumbers e :=
  fun _ _ _ h => h.setCells e fun _ => .parent

theorem numbers_empty (disk : Disk) : ({ disk } : World).Numbers fun _ => False := by
  have nobody : ∀ e, ¬ ({ disk } : World).Shown (fun _ => False) e := by
    intro e shown
    cases shown with
    | given h => exact h
    | listed h => simp [Listed] at h
    | parent h => simp [cellsOf] at h
  exact ⟨fun e h => absurd h (nobody e), fun e _ h => absurd h (nobody e)⟩

end World

namespace Registry

/-- The worlds of a session with the entries in hand: the collections at first, then whoever is created
or come by. Only an entry in hand or come by is made a parent or made known. -/
inductive Genuine (r : Registry) : (Entry → Prop) → World → Prop
  | start {config base catalog builtins disk w}
      (h : ofConfig config base catalog builtins { disk } = .ok r w) : Genuine r (· ∈ r.roots) w
  | use {S w w'} (before : Genuine r S w) (h : Use r w w') : Genuine r S w'
  | create {S w} (before : Genuine r S w) (path : Path) (name : String) (cells : Cells)
      (own : ∀ params, cells.own = some params → Table.Distinct params)
      (parent : ∀ p, cells.parent = some (some p) → w.Shown S p) :
      Genuine r (fun x => S x ∨ x = ⟨w.cells.length, path, name⟩) (after (create path name cells) w)
  | register {S w e} (before : Genuine r S w) (shown : w.Shown S e) :
      Genuine r S (after (register e) w)
  | take {S w e} (before : Genuine r S w) (shown : w.Shown S e) : Genuine r (fun x => S x ∨ x = e) w

variable {r : Registry} {S : Entry → Prop} {w w' : World}

theorem mapM_createRoot_numbers {base : Path} {specs : List CollectionSpec} {roots : List Entry}
    (sound : w.Sound) (numbers : w.Numbers S) (h : specs.mapM (createRoot base) w = .ok roots w') :
    w'.Sound ∧ w'.Numbers fun x => S x ∨ x ∈ roots := by
  induction specs generalizing roots w S with
  | nil =>
      cases h
      exact ⟨sound, by simpa using numbers⟩
  | cons spec specs ih =>
      rw [List.mapM_cons] at h
      obtain ⟨root, w₁, hroot, h⟩ := bind_eq_ok_iff.mp h
      obtain ⟨rest, w₂, hrest, h⟩ := bind_eq_ok_iff.mp h
      cases h
      rw [createRoot_apply] at hroot
      cases hroot
      have made := numbers.append (rootPlace base spec) spec.name (c := {}) (by simp)
      have known := (made.knowPath (rootPlace base spec).components
        (.given (.inr rfl))).knowName spec.name (.given (.inr rfl))
      have sound := sound.enroll (rootPlace base spec) spec.name
      have held := sound.holds_of_known (known_enroll w (rootPlace base spec) spec.name)
      obtain ⟨hs, hn⟩ := ih (sound.knowName spec.name held) known hrest
      exact ⟨hs, by simpa [or_assoc] using hn⟩

/-- Whoever is in hand or come by has a number to itself. -/
theorem Genuine.numbers (h : r.Genuine S w) : w.Sound ∧ w.Numbers S := by
  induction h with
  | @start config base catalog builtins disk w h =>
      obtain ⟨roots, w₁, made, hr⟩ := bind_eq_ok_iff.mp h
      cases hr
      obtain ⟨sound, numbers⟩ := mapM_createRoot_numbers (sound_empty disk) (numbers_empty disk) made
      exact ⟨sound, by simpa using numbers⟩
  | use _ h ih =>
      obtain ⟨keeps, sound⟩ := h.follows frame_keepsNumbers ih.1 fun e _ => bears_keepsNumbers e
      exact ⟨sound, keeps _ ih.2⟩
  | create _ path name cells own parent ih =>
      obtain ⟨sound, numbers⟩ := ih
      exact ⟨sound.append own fun p hp => numbers.held p (parent p hp), numbers.append path name parent⟩
  | @register S w e _ shown ih =>
      obtain ⟨sound, numbers⟩ := ih
      have known := numbers.knowPath e.path.components shown
      refine ⟨(register_along e w sound (numbers.held e shown)).2.1, known.knowName e.name ?_⟩
      exact .listed (.inl ⟨_, Table.get?_insert_self _ _ _⟩)
  | take _ shown ih => exact ⟨ih.1, ih.2.give shown⟩

theorem Genuine.roots (h : r.Genuine S w) : ∀ root ∈ r.roots, S root := by
  induction h with
  | start _ => exact fun _ h => h
  | use _ _ ih => exact ih
  | create _ _ _ _ _ _ ih => exact fun root h => .inl (ih root h)
  | register _ _ ih => exact ih
  | take _ _ ih => exact fun root h => .inl (ih root h)

end Registry
end Lineage
