import Lineage.Proofs.Action
import Lineage.Proofs.Path
import Lineage.Proofs.Table

/-!
Sound worlds and how they change. A world is sound when it knows only entries of its own and each
own parameter stands once. It is canonical when a place has one entry, and faithful when parents are
such entries too. A world extends another when it knows all that the other knew, and still tells its
entries apart by their numbers if the other did; a course is a relation of worlds that steps can be
followed along, one after the other.
-/
namespace Lineage

/-- Whatever is known in `c` is known in `c'`. -/
structure Cells.Kept (c c' : Cells) : Prop where
  own : ∀ params, c.own = some params → c'.own = some params
  metadata : ∀ fields, c.metadata = some fields → c'.metadata = some fields
  parent : ∀ found, c.parent = some found → c'.parent = some found
  operations : ∀ found, c.operations = some found → c'.operations = some found

theorem Cells.Kept.refl (c : Cells) : Cells.Kept c c :=
  ⟨fun _ h => h, fun _ h => h, fun _ h => h, fun _ h => h⟩

theorem Cells.Kept.trans {a b c : Cells} (h : Cells.Kept a b) (h' : Cells.Kept b c) :
    Cells.Kept a c where
  own params hp := h'.own params (h.own params hp)
  metadata fields hf := h'.metadata fields (h.metadata fields hf)
  parent found hf := h'.parent found (h.parent found hf)
  operations found hf := h'.operations found (h.operations found hf)

namespace World

def Holds (w : World) (e : Entry) : Prop := e.id < w.cells.length

structure Sound (w : World) : Prop where
  own : ∀ e params, (w.cellsOf e).own = some params → Table.Distinct params
  parent : ∀ e p, (w.cellsOf e).parent = some (some p) → w.Holds p
  byPath : ∀ place e, Table.get? w.byPath place = some e → w.Holds e
  byName : ∀ name e, Table.get? w.byName name = some e → w.Holds e

/-- The entry that a world has at its own path. -/
def Known (w : World) (e : Entry) : Prop := Table.get? w.byPath e.path.components = some e

/-- An entry that can be looked up by path or by name. -/
def Listed (w : World) (e : Entry) : Prop :=
  (∃ place, Table.get? w.byPath place = some e) ∨ ∃ name, Table.get? w.byName name = some e

/-- Every entry that can be looked up is the one of its path, which is normal, and has a number to
itself. -/
structure Canonical (w : World) : Prop where
  place : ∀ place e, Table.get? w.byPath place = some e →
    place = e.path.components ∧ e.path.normalize = e.path
  alone : ∀ e e', w.Known e → w.Known e' → e.id = e'.id → e = e'
  name : ∀ name e, Table.get? w.byName name = some e → w.Known e

structure Faithful (w : World) : Prop extends Canonical w where
  parent : ∀ e p, (w.cellsOf e).parent = some (some p) → w.Known p

/-- Who is known by path or by name stays so. -/
structure Recalls (w w' : World) : Prop where
  path : ∀ place e, Table.get? w.byPath place = some e → Table.get? w'.byPath place = some e
  name : ∀ name e, Table.get? w.byName name = some e → Table.get? w'.byName name = some e

theorem Sound.holds_of_listed {w : World} (h : w.Sound) {e : Entry} (he : w.Listed e) :
    w.Holds e := by
  rcases he with ⟨place, he⟩ | ⟨name, he⟩
  · exact h.byPath place e he
  · exact h.byName name e he

theorem Sound.holds_of_known {w : World} (h : w.Sound) {e : Entry} (he : w.Known e) : w.Holds e :=
  h.byPath _ e he

theorem Canonical.known_of_listed {w : World} (h : w.Canonical) {e : Entry} (he : w.Listed e) :
    w.Known e := by
  rcases he with ⟨place, he⟩ | ⟨name, he⟩
  · obtain ⟨rfl, -⟩ := h.place place e he
    exact he
  · exact h.name name e he

theorem Canonical.normal {w : World} (h : w.Canonical) {e : Entry} (he : w.Known e) :
    e.path.normalize = e.path :=
  (h.place _ e he).2

theorem Recalls.known {w w' : World} (h : w.Recalls w') {e : Entry} (he : w.Known e) : w'.Known e :=
  h.path _ e he

theorem recalls_of_tables {w w' : World} (path : w'.byPath = w.byPath)
    (name : w'.byName = w.byName) : w.Recalls w' :=
  ⟨fun place e h => by rw [path, h], fun name' e h => by rw [name, h]⟩

theorem Canonical.of_tables {w w' : World} (h : w.Canonical) (path : w'.byPath = w.byPath)
    (name : w'.byName = w.byName) : w'.Canonical := by
  have known (e : Entry) : w'.Known e ↔ w.Known e := by rw [Known, Known, path]
  refine ⟨fun place e he => h.place place e (path ▸ he), fun e e' he he' => ?_, fun n e he => ?_⟩
  · exact h.alone e e' ((known e).mp he) ((known e').mp he')
  · exact (known e).mpr (h.name n e (name ▸ he))

/-! ### Cells -/

@[simp] theorem holds_setCells {w : World} {e x : Entry} {c : Cells} :
    (w.setCells e c).Holds x ↔ w.Holds x := by
  simp [Holds, setCells]

theorem cellsOf_setCells_self {w : World} {e x : Entry} (h : w.Holds e) (hx : x.id = e.id)
    (c : Cells) : (w.setCells e c).cellsOf x = c := by
  simp [cellsOf, setCells, hx, show e.id < w.cells.length from h]

theorem cellsOf_setCells_ne {w : World} {e x : Entry} (hx : x.id ≠ e.id) (c : Cells) :
    (w.setCells e c).cellsOf x = w.cellsOf x := by
  simp [cellsOf, setCells, List.getElem?_set_ne (Ne.symm hx)]

theorem setCells_of_not_holds {w : World} {e : Entry} (h : ¬ w.Holds e) (c : Cells) :
    w.setCells e c = w := by
  have : w.cells.set e.id c = w.cells := List.set_eq_of_length_le (Nat.not_lt.mp h)
  simp [setCells, this]

theorem cellsOf_setCells_cases (w : World) (e x : Entry) (c : Cells) :
    (x.id = e.id ∧ (w.setCells e c).cellsOf x = c) ∨
      (w.setCells e c).cellsOf x = w.cellsOf x := by
  by_cases h : w.Holds e
  · by_cases hx : x.id = e.id
    · exact .inl ⟨hx, cellsOf_setCells_self h hx c⟩
    · exact .inr (cellsOf_setCells_ne hx c)
  · exact .inr (by rw [setCells_of_not_holds h])

theorem cellsOf_of_not_holds {w : World} {e : Entry} (h : ¬ w.Holds e) : w.cellsOf e = {} := by
  rw [cellsOf, List.getElem?_eq_none (Nat.not_lt.mp h)]
  rfl

theorem cellsOf_congr (w : World) {e x : Entry} (h : x.id = e.id) : w.cellsOf x = w.cellsOf e := by
  rw [cellsOf, cellsOf, h]

theorem Sound.setCells {w : World} (h : w.Sound) (e : Entry) {c : Cells}
    (own : ∀ params, c.own = some params → Table.Distinct params)
    (parent : ∀ p, c.parent = some (some p) → w.Holds p) : (w.setCells e c).Sound where
  own x params hp := by
    rcases cellsOf_setCells_cases w e x c with ⟨-, hc⟩ | hc
    · exact own params (hc ▸ hp)
    · exact h.own x params (hc ▸ hp)
  parent x p hp := by
    rw [holds_setCells]
    rcases cellsOf_setCells_cases w e x c with ⟨-, hc⟩ | hc
    · exact parent p (hc ▸ hp)
    · exact h.parent x p (hc ▸ hp)
  byPath place x hx := holds_setCells.mpr (h.byPath place x hx)
  byName name x hx := holds_setCells.mpr (h.byName name x hx)

theorem cellsOf_append (w : World) (c : Cells) (e : Entry) :
    ({ w with cells := w.cells ++ [c] } : World).cellsOf e =
      if e.id = w.cells.length then c else w.cellsOf e := by
  simp only [cellsOf]
  by_cases h : e.id = w.cells.length
  · simp [h]
  · rw [if_neg h]
    by_cases hl : e.id < w.cells.length
    · rw [List.getElem?_append_left hl]
    · have hr : (w.cells ++ [c]).length ≤ e.id := by
        rw [List.length_append, List.length_singleton]
        omega
      rw [List.getElem?_eq_none hr, List.getElem?_eq_none (Nat.not_lt.mp hl)]

theorem Sound.append {w : World} (h : w.Sound) {c : Cells}
    (own : ∀ params, c.own = some params → Table.Distinct params)
    (parent : ∀ p, c.parent = some (some p) → w.Holds p) :
    ({ w with cells := w.cells ++ [c] } : World).Sound := by
  have held : ∀ {e}, w.Holds e → ({ w with cells := w.cells ++ [c] } : World).Holds e := by
    intro e he
    exact Nat.lt_of_lt_of_le he (by simp)
  refine ⟨fun e params hp => ?_, fun e p hp => ?_, fun place e he => held (h.byPath place e he),
    fun name e he => held (h.byName name e he)⟩
  · rw [cellsOf_append] at hp
    split at hp
    · exact own params hp
    · exact h.own e params hp
  · rw [cellsOf_append] at hp
    split at hp
    · exact held (parent p hp)
    · exact held (h.parent e p hp)

theorem Sound.onDisk {w : World} (h : w.Sound) (d : Disk) : ({ w with disk := d } : World).Sound :=
  ⟨h.own, h.parent, h.byPath, h.byName⟩

theorem Sound.knowPath {w : World} (h : w.Sound) (place : List Component) {e : Entry}
    (he : w.Holds e) : ({ w with byPath := Table.insert w.byPath place e } : World).Sound := by
  refine ⟨h.own, h.parent, fun place' x hx => ?_, h.byName⟩
  rw [Table.get?_insert] at hx
  split at hx
  · cases hx
    exact he
  · exact h.byPath place' x hx

theorem Sound.knowName {w : World} (h : w.Sound) (name : String) {e : Entry}
    (he : w.Holds e) : ({ w with byName := Table.insert w.byName name e } : World).Sound := by
  refine ⟨h.own, h.parent, h.byPath, fun name' x hx => ?_⟩
  rw [Table.get?_insert] at hx
  split at hx
  · cases hx
    exact he
  · exact h.byName name' x hx

theorem Faithful.of_tables {w w' : World} (h : w.Faithful) (path : w'.byPath = w.byPath)
    (name : w'.byName = w.byName)
    (parent : ∀ e p, (w'.cellsOf e).parent = some (some p) → w.Known p) : w'.Faithful where
  toCanonical := h.toCanonical.of_tables path name
  parent e p hp := by
    rw [Known, path]
    exact parent e p hp

theorem Faithful.setCells {w : World} (h : w.Faithful) (e : Entry) {c : Cells}
    (parent : ∀ p, c.parent = some (some p) → w.Known p) : (w.setCells e c).Faithful := by
  refine h.of_tables rfl rfl fun x p hp => ?_
  rcases cellsOf_setCells_cases w e x c with ⟨-, hc⟩ | hc
  · exact parent p (hc ▸ hp)
  · exact h.parent x p (hc ▸ hp)

theorem Faithful.append {w : World} (h : w.Faithful) {c : Cells}
    (parent : ∀ p, c.parent = some (some p) → w.Known p) :
    ({ w with cells := w.cells ++ [c] } : World).Faithful := by
  refine h.of_tables rfl rfl fun x p hp => ?_
  rw [cellsOf_append] at hp
  split at hp
  · exact parent p hp
  · exact h.parent x p hp

/-- A world with a new entry at a place, of which nothing is loaded. -/
def enroll (w : World) (place : Path) (name : String) : World :=
  { w with
    cells := w.cells ++ [{}]
    byPath := Table.insert w.byPath place.components ⟨w.cells.length, place, name⟩ }

theorem cellsOf_append_empty (w : World) (e : Entry) :
    ({ w with cells := w.cells ++ [({} : Cells)] } : World).cellsOf e = w.cellsOf e := by
  rw [cellsOf_append]
  split
  · rename_i he
    simp [cellsOf, he]
  · rfl

theorem cellsOf_enroll (w : World) (place : Path) (name : String) (e : Entry) :
    (w.enroll place name).cellsOf e = w.cellsOf e :=
  cellsOf_append_empty w e

section

variable {w : World} {place : Path}

theorem known_enroll (w : World) (place : Path) (name : String) :
    (w.enroll place name).Known ⟨w.cells.length, place, name⟩ :=
  Table.get?_insert_self _ _ _

theorem Sound.enroll (h : w.Sound) (place : Path) (name : String) : (w.enroll place name).Sound :=
  Sound.knowPath (h.append (c := {}) (by simp) (by simp)) place.components (by simp [Holds])

theorem recalls_enroll (new : Table.get? w.byPath place.components = none) (name : String) :
    w.Recalls (w.enroll place name) := by
  refine ⟨fun key e he => ?_, fun _ e he => he⟩
  have ne : place.components ≠ key := by
    rintro rfl
    rw [new] at he
    cases he
  rw [World.enroll, Table.get?_insert, if_neg ne, he]

theorem Canonical.enroll (h : w.Canonical) (sound : w.Sound) (normal : place.normalize = place)
    (new : Table.get? w.byPath place.components = none) (name : String) :
    (w.enroll place name).Canonical := by
  have recalls := recalls_enroll new name
  have known : ∀ key e, Table.get? (w.enroll place name).byPath key = some e →
      (key = place.components ∧ e = ⟨w.cells.length, place, name⟩) ∨
        Table.get? w.byPath key = some e := by
    intro key e he
    rw [World.enroll, Table.get?_insert] at he
    split at he
    · rename_i hkey
      cases he
      exact .inl ⟨hkey.symm, rfl⟩
    · exact .inr he
  have fresh : ∀ e, Table.get? w.byPath e.path.components = some e → e.id ≠ w.cells.length :=
    fun e he => Nat.ne_of_lt (sound.byPath _ e he)
  refine ⟨fun key e he => ?_, fun e e' he he' hid => ?_, fun name e he => recalls.known (h.name name e he)⟩
  · rcases known key e he with ⟨rfl, rfl⟩ | he
    · exact ⟨rfl, normal⟩
    · exact h.place key e he
  · rcases known _ e he with ⟨-, rfl⟩ | he <;> rcases known _ e' he' with ⟨-, rfl⟩ | he'
    · rfl
    · exact absurd hid.symm (fresh e' he')
    · exact absurd hid (fresh e he)
    · exact h.alone e e' he he' hid

theorem Faithful.enroll (h : w.Faithful) (sound : w.Sound) (normal : place.normalize = place)
    (new : Table.get? w.byPath place.components = none) (name : String) :
    (w.enroll place name).Faithful where
  toCanonical := h.toCanonical.enroll sound normal new name
  parent e p hp := (recalls_enroll new name).known (h.parent e p (cellsOf_enroll w place name e ▸ hp))

theorem Faithful.knowName (h : w.Faithful) (name : String) {e : Entry} (he : w.Known e) :
    ({ w with byName := Table.insert w.byName name e } : World).Faithful where
  place := h.place
  alone := h.alone
  name name' x hx := by
    rw [Table.get?_insert] at hx
    split at hx
    · cases hx
      exact he
    · exact h.name name' x hx
  parent := h.parent

theorem recalls_knowName {name : String} (new : Table.get? w.byName name = none) (e : Entry) :
    w.Recalls { w with byName := Table.insert w.byName name e } := by
  refine ⟨fun key e he => he, fun name' x hx => ?_⟩
  have ne : name ≠ name' := by
    rintro rfl
    rw [new] at hx
    cases hx
  rw [Table.get?_insert, if_neg ne, hx]

end

/-! ### Growth -/

/-- A world that has all entries of another. -/
def Grows (w w' : World) : Prop := w.cells.length ≤ w'.cells.length

/-! ### Numbers -/

/-- Any of some given entries, and whom a lookup can come by: who is known by path or by name, and the
parents found. -/
inductive Shown (w : World) (S : Entry → Prop) (e : Entry) : Prop
  | given (h : S e)
  | listed (h : w.Listed e)
  | parent {x : Entry} (h : (w.cellsOf x).parent = some (some e))

/-- Whoever is shown is an entry of the world, with a number to itself. -/
structure Numbers (w : World) (S : Entry → Prop) : Prop where
  held : ∀ e, w.Shown S e → w.Holds e
  alone : ∀ e e', w.Shown S e → w.Shown S e' → e.id = e'.id → e = e'

section

variable {w w' : World} {S : Entry → Prop} {e x : Entry}

namespace Shown

theorem mono {S' : Entry → Prop} (sub : ∀ x, S x → S' x) (shown : w.Shown S x) : w.Shown S' x := by
  cases shown with
  | given hx => exact .given (sub x hx)
  | listed hx => exact .listed hx
  | parent hx => exact .parent hx

/-- Whoever is shown still is where the known parents stay, and who is known by path or by name. -/
theorem keep (shown : w.Shown S x) (recalls : w.Recalls w')
    (parent : ∀ y p, (w.cellsOf y).parent = some (some p) → (w'.cellsOf y).parent = some (some p)) :
    w'.Shown S x := by
  cases shown with
  | given hx => exact .given hx
  | parent hx => exact .parent (parent _ x hx)
  | listed hx =>
      rcases hx with ⟨place, hx⟩ | ⟨name, hx⟩
      · exact .listed (.inl ⟨place, recalls.path place x hx⟩)
      · exact .listed (.inr ⟨name, recalls.name name x hx⟩)

theorem of_given (shown : w.Shown (fun x => S x ∨ x = e) x) : w.Shown S x ∨ x = e := by
  cases shown with
  | given hx => exact hx.imp_left .given
  | listed hx => exact .inl (.listed hx)
  | parent hx => exact .inl (.parent hx)

theorem of_append {c : Cells} (parent : ∀ p, c.parent = some (some p) → w.Shown S p)
    (shown : ({ w with cells := w.cells ++ [c] } : World).Shown S x) : w.Shown S x := by
  cases shown with
  | given hx => exact .given hx
  | listed hx => exact .listed hx
  | parent hx =>
      rw [cellsOf_append] at hx
      split at hx
      · exact parent x hx
      · exact .parent hx

theorem of_knowPath {place : List Component} (known : w.Shown S e)
    (shown : ({ w with byPath := Table.insert w.byPath place e } : World).Shown S x) :
    w.Shown S x := by
  cases shown with
  | given hx => exact .given hx
  | parent hx => exact .parent hx
  | listed hx =>
      rcases hx with ⟨key, hx⟩ | hx
      · rw [Table.get?_insert] at hx
        split at hx
        · cases hx
          exact known
        · exact .listed (.inl ⟨key, hx⟩)
      · exact .listed (.inr hx)

theorem of_knowName {name : String} (known : w.Shown S e)
    (shown : ({ w with byName := Table.insert w.byName name e } : World).Shown S x) :
    w.Shown S x := by
  cases shown with
  | given hx => exact .given hx
  | parent hx => exact .parent hx
  | listed hx =>
      rcases hx with hx | ⟨key, hx⟩
      · exact .listed (.inl hx)
      · rw [Table.get?_insert] at hx
        split at hx
        · cases hx
          exact known
        · exact .listed (.inr ⟨key, hx⟩)

/-- Making an entry shows nobody else. -/
theorem of_enroll {place : Path} {name : String} (shown : (w.enroll place name).Shown S x) :
    w.Shown S x ∨ x = ⟨w.cells.length, place, name⟩ := by
  have made : w.Shown (fun x => S x ∨ x = ⟨w.cells.length, place, name⟩) x :=
    of_append (by simp) (of_knowPath (.given (.inr rfl)) (shown.mono fun _ => .inl))
  exact made.of_given

theorem of_setCells {c : Cells} (parent : ∀ p, c.parent = some (some p) → w.Shown S p)
    (shown : (w.setCells e c).Shown S x) : w.Shown S x := by
  cases shown with
  | given hx => exact .given hx
  | listed hx => exact .listed hx
  | @parent y hx =>
      rcases cellsOf_setCells_cases w e y c with ⟨-, hc⟩ | hc
      · exact parent x (hc ▸ hx)
      · exact .parent (hc ▸ hx)

end Shown

namespace Numbers

theorem mono {S' : Entry → Prop} (sub : ∀ x, S x → S' x) (h : w.Numbers S') : w.Numbers S :=
  ⟨fun x hx => h.held x (hx.mono sub), fun x y hx hy => h.alone x y (hx.mono sub) (hy.mono sub)⟩

theorem of_shown (h : w.Numbers S) (grows : w.Grows w') (before : ∀ x, w'.Shown S x → w.Shown S x) :
    w'.Numbers S :=
  ⟨fun x hx => Nat.lt_of_lt_of_le (h.held x (before x hx)) grows,
    fun x y hx hy => h.alone x y (before x hx) (before y hy)⟩

/-- Whoever is shown may be given as well. -/
theorem give (h : w.Numbers S) (shown : w.Shown S e) : w.Numbers fun x => S x ∨ x = e := by
  have before (x : Entry) (hx : w.Shown (fun x => S x ∨ x = e) x) : w.Shown S x := by
    rcases hx.of_given with hx | rfl
    · exact hx
    · exact shown
  exact ⟨fun x hx => h.held x (before x hx), fun x y hx hy => h.alone x y (before x hx) (before y hy)⟩

/-- A new entry is given a number of its own. -/
theorem append (h : w.Numbers S) (path : Path) (name : String) {c : Cells}
    (parent : ∀ p, c.parent = some (some p) → w.Shown S p) :
    ({ w with cells := w.cells ++ [c] } : World).Numbers fun x =>
      S x ∨ x = ⟨w.cells.length, path, name⟩ := by
  have before (x : Entry) (hx : ({ w with cells := w.cells ++ [c] } : World).Shown
      (fun x => S x ∨ x = ⟨w.cells.length, path, name⟩) x) :
      w.Shown S x ∨ x = ⟨w.cells.length, path, name⟩ :=
    (hx.of_append fun p hp => (parent p hp).mono fun _ => .inl).of_given
  have older (x : Entry) (hx : w.Shown S x) : x.id ≠ w.cells.length := Nat.ne_of_lt (h.held x hx)
  refine ⟨fun x hx => ?_, fun x y hx hy same => ?_⟩
  · rcases before x hx with hx | rfl
    · exact Nat.lt_of_lt_of_le (h.held x hx) (by simp)
    · simp [Holds]
  · rcases before x hx with hx | rfl <;> rcases before y hy with hy | rfl
    · exact h.alone x y hx hy same
    · exact absurd same (older x hx)
    · exact absurd same.symm (older y hy)
    · rfl

theorem knowPath (h : w.Numbers S) (place : List Component) (shown : w.Shown S e) :
    ({ w with byPath := Table.insert w.byPath place e } : World).Numbers S :=
  h.of_shown (Nat.le_refl _) fun _ => .of_knowPath shown

theorem knowName (h : w.Numbers S) (name : String) (shown : w.Shown S e) :
    ({ w with byName := Table.insert w.byName name e } : World).Numbers S :=
  h.of_shown (Nat.le_refl _) fun _ => .of_knowName shown

theorem enroll (h : w.Numbers S) (place : Path) (name : String) : (w.enroll place name).Numbers S :=
  ((h.append place name (by simp)).knowPath place.components (.given (.inr rfl))).mono fun _ => .inl

theorem setCells (h : w.Numbers S) (e : Entry) {c : Cells}
    (parent : ∀ p, c.parent = some (some p) → w.Shown S p) : (w.setCells e c).Numbers S :=
  h.of_shown (by simp [Grows, World.setCells]) fun _ => .of_setCells parent

end Numbers

end

/-! ### Extensions -/

/-- A world that knows all that another knew, on the same disk, and has the same view of each
entry. -/
structure Extends {γ : Type} (view : Cells → γ) (w w' : World) : Prop where
  disk : w'.disk = w.disk
  grows : w.Grows w'
  kept : ∀ e, Cells.Kept (w.cellsOf e) (w'.cellsOf e)
  same : ∀ e, view (w'.cellsOf e) = view (w.cellsOf e)
  recalls : w.Recalls w'
  faithful : w.Faithful → w'.Faithful
  numbers : ∀ S, w.Numbers S → w'.Numbers S

/-- A relation that steps can follow one after the other. -/
structure Course (R : World → World → Prop) : Prop where
  refl : ∀ w, R w w
  trans : ∀ {w₁ w₂ w₃}, R w₁ w₂ → R w₂ w₃ → R w₁ w₃

theorem grows_course : Course Grows := ⟨fun _ => Nat.le_refl _, Nat.le_trans⟩

theorem recalls_course : Course Recalls where
  refl _ := ⟨fun _ _ h => h, fun _ _ h => h⟩
  trans h h' := ⟨fun place e he => h'.path place e (h.path place e he),
    fun name e he => h'.name name e (h.name name e he)⟩

theorem extends_course {γ : Type} (view : Cells → γ) : Course (Extends view) where
  refl w := ⟨rfl, Nat.le_refl _, fun _ => .refl _, fun _ => rfl, recalls_course.refl w, fun h => h,
    fun _ h => h⟩
  trans h h' :=
    ⟨h'.disk.trans h.disk, Nat.le_trans h.grows h'.grows, fun e => (h.kept e).trans (h'.kept e),
      fun e => (h'.same e).trans (h.same e), recalls_course.trans h.recalls h'.recalls,
      fun hf => h'.faithful (h.faithful hf), fun S hs => h'.numbers S (h.numbers S hs)⟩

theorem Extends.of_finer {γ δ : Type} {view : Cells → γ} {view' : Cells → δ} {w w' : World}
    (h : Extends view w w') (coarser : ∀ c c', view c = view c' → view' c = view' c') :
    Extends view' w w' :=
  ⟨h.disk, h.grows, h.kept, fun e => coarser _ _ (h.same e), h.recalls, h.faithful, h.numbers⟩

theorem extends_of_cells {w w' : World} (disk : w'.disk = w.disk) (grows : w.Grows w')
    (cells : ∀ e, w'.cellsOf e = w.cellsOf e) (recalls : w.Recalls w')
    (faithful : w.Faithful → w'.Faithful) (numbers : ∀ S, w.Numbers S → w'.Numbers S) :
    Extends id w w' :=
  ⟨disk, grows, fun e => (cells e).symm ▸ .refl _, cells, recalls, faithful, numbers⟩

theorem extends_enroll {w : World} {place : Path} {name : String} (sound : w.Sound)
    (normal : place.normalize = place) (new : Table.get? w.byPath place.components = none) :
    Extends id w (w.enroll place name) :=
  extends_of_cells rfl (by simp [Grows, enroll]) (cellsOf_enroll w place name) (recalls_enroll new name)
    (fun h => h.enroll sound normal new name) fun _ h => h.enroll place name

theorem extends_knowName {w : World} {name : String} {e : Entry} (listed : w.Listed e)
    (new : Table.get? w.byName name = none) :
    Extends id w { w with byName := Table.insert w.byName name e } :=
  extends_of_cells rfl (Nat.le_refl _) (fun _ => rfl) (recalls_knowName new e)
    (fun h => h.knowName name (h.known_of_listed listed)) fun _ h => h.knowName name (.listed listed)

theorem Grows.holds {w w' : World} (h : w.Grows w') {e : Entry} (he : w.Holds e) : w'.Holds e :=
  Nat.lt_of_lt_of_le he h

end World

/-! ### Steps along a course -/

namespace Action

open World

variable {α β : Type} {R : World → World → Prop} {P : World → Prop} {Q : α → World → Prop}

/-- From a sound world with `P`, an action leads along `R` to a sound world, whether or not it
fails, and its answer has `Q` there. -/
def Along (R : World → World → Prop) (P : World → Prop) (act : Action α)
    (Q : α → World → Prop) : Prop :=
  ∀ w, w.Sound → P w →
    R w (after act w) ∧ (after act w).Sound ∧ ∀ a w', act w = .ok a w' → Q a w'

/-- No demand on a world. -/
def any : World → Prop := fun _ => True

theorem after_of_ok {act : Action α} {w w' : World} {a : α} (h : act w = .ok a w') :
    after act w = w' := by
  rw [after, h]

theorem after_of_error {act : Action α} {w w' : World} {e : Error} (h : act w = .error e w') :
    after act w = w' := by
  rw [after, h]

namespace Along

theorem of_ok {act : Action α} (h : Along R P act Q) {w w' : World} (sound : w.Sound) (hp : P w)
    {a : α} (ha : act w = .ok a w') : R w w' ∧ w'.Sound ∧ Q a w' := by
  obtain ⟨hr, hs, hq⟩ := h w sound hp
  rw [after_of_ok ha] at hr hs
  exact ⟨hr, hs, hq a w' ha⟩

theorem pure (course : Course R) {a : α} (h : ∀ w, w.Sound → P w → Q a w) :
    Along R P (pure a) Q := by
  intro w sound hp
  refine ⟨course.refl w, sound, fun b w' hb => ?_⟩
  cases hb
  exact h w sound hp

theorem throw (course : Course R) (e : Error) : Along R P (throw e : Action α) Q :=
  fun w sound _ => ⟨course.refl w, sound, fun _ _ h => nomatch h⟩

theorem bind (course : Course R) {act : Action α} {next : α → Action β} {Q' : β → World → Prop}
    (h : Along R P act Q) (hn : ∀ a, Along R (Q a) (next a) Q') : Along R P (act >>= next) Q' := by
  intro w sound hp
  obtain ⟨hr, hs, hq⟩ := h w sound hp
  have rule : (R w (after (act >>= next) w) ∧ (after (act >>= next) w).Sound) ∧
      ∀ b w', (act >>= next) w = .ok b w' → Q' b w' := by
    refine bind_rule (M := fun w' => R w w' ∧ w'.Sound) ⟨hr, hs⟩ fun a w₁ ha => ?_
    rw [after_of_ok ha] at hr hs
    obtain ⟨hr', hs', hq'⟩ := hn a w₁ hs (hq a w₁ ha)
    exact ⟨⟨course.trans hr hr', hs'⟩, hq'⟩
  exact and_assoc.mp rule

theorem get_bind {next : World → Action α}
    (h : ∀ w₀, Along R (fun w => w = w₀ ∧ P w) (next w₀) Q) : Along R P (get >>= next) Q :=
  fun w sound hp => h w w sound ⟨rfl, hp⟩

/-- A loop follows what its steps follow, each in a state that the one before has led to. -/
theorem loop (course : Course R) {σ : Type} {step : Round σ α} {I : σ → World → Prop}
    (h : ∀ s, Along R (I s) (step s) fun next w => next.elim (I · w) (Q · w)) (s : σ) :
    Along R (I s) (loop step s) Q := by
  intro w sound hi
  refine and_assoc.mp (loop_rule (I := fun s w' => (R w w' ∧ w'.Sound) ∧ I s w')
    (fun _ _ hi => hi.1) (fun s w₁ hi => ?_) ⟨⟨course.refl w, sound⟩, hi⟩)
  obtain ⟨⟨hr, sound₁⟩, hi⟩ := hi
  obtain ⟨hr', hs, hq⟩ := h s w₁ sound₁ hi
  have reached := course.trans hr hr'
  refine ⟨⟨reached, hs⟩, fun next w' hn => ?_⟩
  have post := hq next w' hn
  rw [after_of_ok hn] at reached hs
  cases next with
  | inl t => exact ⟨⟨reached, hs⟩, post⟩
  | inr a => exact post

theorem weaken {P' : World → Prop} {Q' : α → World → Prop} {act : Action α}
    (h : Along R P act Q) (hP : ∀ w, w.Sound → P' w → P w) (hQ : ∀ a w, Q a w → Q' a w) :
    Along R P' act Q' := by
  intro w sound hp
  obtain ⟨hr, hs, hq⟩ := h w sound (hP w sound hp)
  exact ⟨hr, hs, fun a w' ha => hQ a w' (hq a w' ha)⟩

theorem mono {R' : World → World → Prop} (hR : ∀ w w', R w w' → R' w w') {act : Action α}
    (h : Along R P act Q) : Along R' P act Q := by
  intro w sound hp
  obtain ⟨hr, hs, hq⟩ := h w sound hp
  exact ⟨hR _ _ hr, hs, hq⟩

/-- A relation that holds in any case can be followed as well. -/
theorem and {S : World → World → Prop} {act : Action α} (h : Along R P act Q)
    (hS : ∀ w, S w (after act w)) : Along (fun w w' => R w w' ∧ S w w') P act Q := by
  intro w sound hp
  obtain ⟨hr, hs, hq⟩ := h w sound hp
  exact ⟨⟨hr, hS w⟩, hs, hq⟩

theorem anywhere {act : Action α} (h : Along R any act Q) : Along R P act Q :=
  h.weaken (fun _ _ _ => trivial) fun _ _ hq => hq

theorem coarsen {γ δ : Type} {view : Cells → γ} {act : Action α}
    (h : Along (Extends view) P act Q) (f : γ → δ) :
    Along (Extends fun c => f (view c)) P act Q :=
  h.mono fun _ _ hr => hr.of_finer fun _ _ he => congrArg f he

/-- What a course preserves is there after the steps if it was before. -/
theorem frame {F : World → Prop} (hF : ∀ w w', R w w' → F w → F w') {act : Action α}
    (h : Along R P act Q) : Along R (fun w => P w ∧ F w) act fun a w => Q a w ∧ F w := by
  intro w sound hp
  obtain ⟨hr, hs, hq⟩ := h w sound hp.1
  refine ⟨hr, hs, fun a w' ha => ⟨hq a w' ha, ?_⟩⟩
  rw [after_of_ok ha] at hr
  exact hF w w' hr hp.2

end Along
end Action
end Lineage
