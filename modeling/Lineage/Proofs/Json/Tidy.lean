import Lineage.Disk.Document
import Lineage.Proofs.Table

/-!
Values whose maps have each key once, at every depth. Every reader of documents makes such values,
whatever fields a text repeats, and reading on at a key path finds none but such.
-/
namespace Lineage

inductive Json.Tidy : Json → Prop
  | null : Tidy .null
  | bool {b} : Tidy (.bool b)
  | int {n} : Tidy (.int n)
  | float {x} : Tidy (.float x)
  | str {s} : Tidy (.str s)
  | arr {items} (h : ∀ x ∈ items, Tidy x) : Tidy (.arr items)
  | obj {fields : Params} (distinct : Table.Distinct fields) (h : ∀ field ∈ fields, Tidy field.2) :
      Tidy (.obj fields)

namespace Json

theorem Tidy.ofFields {fields : List (String × Json)} (h : ∀ field ∈ fields, Tidy field.2) :
    Tidy (.obj (Table.ofFields fields)) := by
  refine .obj (Table.distinct_ofFields fields) fun field hf => ?_
  rcases Table.mem_overlay hf with hf | hf
  · exact h field hf
  · cases hf

theorem tidy_empty : Tidy (.obj []) := .obj Table.distinct_nil (by simp)

theorem Tidy.get? {fields : Params} (h : Tidy (.obj fields)) {key : String} {x : Json}
    (hx : Table.get? fields key = some x) : Tidy x := by
  cases h with
  | obj _ h => exact h _ (Table.mem_of_get? hx)

theorem Tidy.readAt {x y : Json} {path : List String} (h : Tidy x) (hy : x.readAt path = .ok y) :
    Tidy y := by
  induction path generalizing x with
  | nil =>
      obtain rfl : x = y := by cases x <;> simpa [Json.readAt] using hy
      exact h
  | cons key path ih =>
      cases x with
      | null | bool _ | int _ | float _ | str _ => cases hy
      | obj fields =>
          rw [Json.readAt] at hy
          cases hf : Table.get? fields key with
          | none => exact ih tidy_empty (by simpa [hf] using hy)
          | some z => exact ih (h.get? hf) (by simpa [hf] using hy)
      | arr items =>
          rw [Json.readAt] at hy
          cases he : element items key with
          | error e => simp [he] at hy
          | ok z =>
              have hz : z ∈ items := by
                rw [element] at he
                split at he
                · cases he
                · split at he
                  · rename_i hi
                    obtain rfl := Except.ok.inj he
                    exact List.mem_of_getElem? hi
                  · cases he
              cases h with
              | arr h => exact ih (h z hz) (by simpa [he] using hy)

/-! ### Numbers -/

namespace Reader

theorem tidy_floatOf {negative : Bool} {significand : Nat} {e : Int} {x : Json}
    (h : floatOf negative significand e = some x) : Tidy x := by
  rw [floatOf] at h
  split at h
  · cases h
  · obtain ⟨y, -, rfl⟩ := Option.map_eq_some_iff.mp h
    exact .float

theorem tidy_exponentPart {negative : Bool} {significand : Nat} {e : Int} {cs r : List Char}
    {x : Json} (h : exponentPart negative significand e cs = some (x, r)) : Tidy x := by
  rw [exponentPart] at h
  simp only at h
  split at h
  · cases h
  · split at h
    · split at h
      · cases h
      · cases h
        exact .float
    · obtain ⟨y, hy, he⟩ := Option.map_eq_some_iff.mp h
      cases he
      exact tidy_floatOf hy

theorem tidy_afterSignificand {negative : Bool} {significand : Nat} {e : Int} {cs r : List Char}
    {x : Json} (h : afterSignificand negative significand e cs = some (x, r)) : Tidy x := by
  simp only [afterSignificand] at h
  split at h
  · exact tidy_exponentPart h
  · exact tidy_exponentPart h
  · obtain ⟨y, hy, he⟩ := Option.map_eq_some_iff.mp h
    cases he
    exact tidy_floatOf hy

theorem tidy_fractionPart {negative : Bool} {significand : Nat} {e : Int} {cs r : List Char}
    {x : Json} (h : fractionPart negative significand e cs = some (x, r)) : Tidy x := by
  rw [fractionPart] at h
  split at h
  · cases h
  · exact tidy_afterSignificand h

theorem tidy_wholeNumber {negative : Bool} {n : Nat} {x : Json}
    (h : wholeNumber negative n = some x) : Tidy x := by
  rw [wholeNumber] at h
  split at h
  · split at h
    · cases h
      exact .int
    · exact tidy_floatOf h
  · cases h
    exact .int

theorem tidy_afterWhole {negative : Bool} {n : Nat} {cs r : List Char} {x : Json}
    (h : afterWhole negative n cs = some (x, r)) : Tidy x := by
  unfold afterWhole at h
  simp only at h
  split at h
  · exact tidy_fractionPart h
  · split at h
    · obtain ⟨y, hy, he⟩ := Option.map_eq_some_iff.mp h
      cases he
      exact tidy_wholeNumber hy
    · exact tidy_afterSignificand h

theorem tidy_number {negative : Bool} {cs r : List Char} {x : Json}
    (h : number negative cs = some (x, r)) : Tidy x := by
  simp only [number] at h
  split at h
  · split at h
    · cases h
    · exact tidy_afterWhole h
  · split at h
    · exact tidy_afterWhole h
    · cases h
  · cases h

/-! ### Containers -/

/-- What the readers of values, items and fields answer with so much fuel is tidy. -/
structure ReadsTidy (fuel : Nat) : Prop where
  value : ∀ {room cs x r}, value fuel room cs = some (x, r) → Tidy x
  items : ∀ {room acc cs xs r}, (∀ y ∈ acc, Tidy y) → items fuel room acc cs = some (xs, r) →
    ∀ y ∈ xs, Tidy y
  fields : ∀ {room acc cs xs r}, (∀ f ∈ acc, Tidy f.2) → fields fuel room acc cs = some (xs, r) →
    ∀ f ∈ xs, Tidy f.2

theorem ReadsTidy.zero : ReadsTidy 0 := by
  refine ⟨?_, ?_, ?_⟩
  · intro room cs x r h
    simp [Reader.value] at h
  · intro room acc cs xs r _ h
    simp [Reader.items] at h
  · intro room acc cs xs r _ h
    simp [Reader.fields] at h

variable {fuel room : Nat} {cs r : List Char}

theorem ReadsTidy.value_succ (ih : ReadsTidy fuel) {x : Json}
    (h : Reader.value (fuel + 1) room cs = some (x, r)) : Tidy x := by
  rw [Reader.value] at h
  split at h
  · cases h; exact .null
  · cases h; exact .bool
  · cases h; exact .bool
  · obtain ⟨y, -, he⟩ := Option.map_eq_some_iff.mp h
    cases he; exact .str
  · split at h
    · cases h
    · split at h
      · cases h; exact .arr (by simp)
      · obtain ⟨y, hy, he⟩ := Option.map_eq_some_iff.mp h
        cases he; exact .arr (ih.items (by simp) hy)
  · split at h
    · cases h
    · split at h
      · cases h; exact tidy_empty
      · obtain ⟨y, hy, he⟩ := Option.map_eq_some_iff.mp h
        cases he; exact .ofFields (ih.fields (by simp) hy)
  · exact tidy_number h
  · exact tidy_number h

theorem ReadsTidy.items_succ (ih : ReadsTidy fuel) {acc xs : List Json} (hacc : ∀ y ∈ acc, Tidy y)
    (h : Reader.items (fuel + 1) room acc cs = some (xs, r)) : ∀ y ∈ xs, Tidy y := by
  rw [Reader.items] at h
  split at h
  · cases h
  · rename_i x r hx
    have hall : ∀ y ∈ x :: acc, Tidy y := List.forall_mem_cons.mpr ⟨ih.value hx, hacc⟩
    split at h
    · exact ih.items hall h
    · cases h
      exact fun y hy => hall y (List.mem_reverse.mp hy)
    · cases h

theorem ReadsTidy.fields_succ (ih : ReadsTidy fuel) {acc xs : List (String × Json)}
    (hacc : ∀ f ∈ acc, Tidy f.2) (h : Reader.fields (fuel + 1) room acc cs = some (xs, r)) :
    ∀ f ∈ xs, Tidy f.2 := by
  rw [Reader.fields] at h
  split at h
  · split at h
    · cases h
    · split at h
      · split at h
        · cases h
        · rename_i key _ _ _ _ _ _ x _ hx
          have hall : ∀ f ∈ (key, x) :: acc, Tidy f.2 :=
            List.forall_mem_cons.mpr ⟨ih.value hx, hacc⟩
          split at h
          · exact ih.fields hall h
          · cases h
            exact fun f hf => hall f (List.mem_reverse.mp hf)
          · cases h
      · cases h
  · cases h

theorem readsTidy (fuel : Nat) : ReadsTidy fuel := by
  induction fuel with
  | zero => exact .zero
  | succ fuel ih => exact ⟨ih.value_succ, ih.items_succ, ih.fields_succ⟩

end Reader

theorem tidy_of_read? {text : String} {x : Json} (h : read? text = some x) : Tidy x := by
  unfold read? at h
  simp only at h
  split at h
  · rename_i y r hv
    split at h
    · cases h
      exact (Reader.readsTidy _).value hv
    · cases h
  · cases h

end Json

namespace Yaml

open Json (Tidy)

theorem tidy_of_scalarValue? {plain : Bool} {text : String} {x : Json}
    (h : scalarValue? plain text = some x) : Tidy x := by
  rw [scalarValue?] at h
  split at h
  · cases h; exact .str
  · split at h
    · cases h; exact .null
    · cases h; exact .bool
    · split at h
      · cases h; exact .int
      · cases h
    · cases h; exact .float
    · cases h; exact .null
    · cases h; exact .str

namespace Node

mutual

theorem tidy_of_toJson? {room : Nat} (node : Node) {x : Json} (h : node.toJson? room = some x) :
    Tidy x := by
  cases node with
  | scalar plain text => exact tidy_of_scalarValue? (by simpa [toJson?] using h)
  | sequence items =>
      rw [toJson?] at h
      split at h
      · cases h
      · obtain ⟨xs, hxs, rfl⟩ := Option.map_eq_some_iff.mp h
        exact .arr (tidy_of_itemsToJson? items hxs)
  | mapping fields =>
      rw [toJson?] at h
      split at h
      · cases h
      · obtain ⟨xs, hxs, rfl⟩ := Option.map_eq_some_iff.mp h
        exact .ofFields (tidy_of_fieldsToJson? fields hxs)

theorem tidy_of_itemsToJson? {room : Nat} (items : List Node) {xs : List Json}
    (h : itemsToJson? room items = some xs) : ∀ x ∈ xs, Tidy x := by
  cases items with
  | nil =>
      cases h
      simp
  | cons node items =>
      simp only [itemsToJson?, Option.bind_eq_bind, Option.bind_eq_some_iff] at h
      obtain ⟨x, hx, xs, hxs, he⟩ := h
      cases he
      exact List.forall_mem_cons.mpr ⟨tidy_of_toJson? node hx, tidy_of_itemsToJson? items hxs⟩

theorem tidy_of_fieldsToJson? {room : Nat} (fields : List (Node × Node)) {xs : List (String × Json)}
    (h : fieldsToJson? room fields = some xs) : ∀ field ∈ xs, Tidy field.2 := by
  cases fields with
  | nil =>
      cases h
      simp
  | cons field fields =>
      obtain ⟨k, node⟩ := field
      cases k with
      | sequence _ | mapping _ => cases h
      | scalar plain text =>
      simp only [fieldsToJson?, Option.bind_eq_bind, Option.bind_some, Option.bind_eq_some_iff] at h
      obtain ⟨x, hx, xs, hxs, he⟩ := h
      cases he
      exact List.forall_mem_cons.mpr ⟨tidy_of_toJson? node hx, tidy_of_fieldsToJson? fields hxs⟩

end

end Node

theorem tidy_of_readJson? {text : String} {x : Json} (h : readJson? text = some x) : Tidy x := by
  rw [readJson?] at h
  split at h
  · cases h
  · cases h; exact .null
  · exact Node.tidy_of_toJson? _ h

end Yaml

/-- Whatever a disk holds, what is loaded from it is tidy. -/
theorem Disk.tidy_of_load {d : Disk} {path : Path} {nested : List String} {x : Json} {found : Bool}
    (h : d.load path nested = .ok (x, found)) : x.Tidy := by
  rw [Disk.load] at h
  split at h
  · cases h; exact Json.tidy_empty
  · split at h
    · cases h
    · rename_i text _
      split at h
      · cases h
      · rename_i doc hdoc
        have tidy : doc.Tidy := by
          simp only [DocumentFormat.read] at hdoc
          split at hdoc
          · cases hr : Json.read? text with
            | none => simp [hr] at hdoc
            | some y =>
                obtain rfl : y = doc := by simpa [hr] using hdoc
                exact Json.tidy_of_read? hr
          · cases hr : Yaml.readJson? text with
            | none => simp [hr] at hdoc
            | some y =>
                obtain rfl : y = doc := by simpa [hr] using hdoc
                exact Yaml.tidy_of_readJson? hr
        split at h
        · rename_i y hy
          cases h
          exact tidy.readAt hy
        · cases h

end Lineage
