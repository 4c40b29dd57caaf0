import Lineage.Text.Split

/-!
Splitting undoes joining, and joining undoes splitting. Splitting at a character is the split of
lists at an element, of which both are known.
-/
namespace Lineage

theorem splitAtChar_eq_splitOn (sep : Char) (cs : List Char) :
    splitAtChar sep cs = cs.splitOn sep := by
  induction cs with
  | nil => rfl
  | cons c cs ih =>
      rw [splitAtChar, List.splitOn_cons_eq_if_modifyHead]
      by_cases h : c = sep
      · simp [h, ih]
      · simp only [h, beq_iff_eq, if_false, ← ih]
        cases hs : splitAtChar sep cs with
        | nil => exact absurd hs (splitAtChar_ne_nil sep cs)
        | cons run runs => rfl

theorem pieces_ne_nil (sep : Char) (s : String) : pieces sep s ≠ [] := by
  simp [pieces, splitAtChar_ne_nil]

theorem not_mem_of_mem_pieces {sep : Char} {s piece : String} (h : piece ∈ pieces sep s) :
    sep ∉ piece.toList := by
  obtain ⟨run, hr, rfl⟩ := List.mem_map.mp h
  rw [String.toList_ofList]
  exact not_mem_of_mem_splitAtChar sep _ run hr

theorem intercalate_pieces (sep : Char) (s : String) :
    (String.singleton sep).intercalate (pieces sep s) = s := by
  apply String.toList_inj.mp
  rw [String.toList_intercalate, pieces, List.map_map]
  have h : (String.toList ∘ String.ofList) = id := by
    funext cs
    exact String.toList_ofList
  rw [h, List.map_id, splitAtChar_eq_splitOn, String.toList_singleton, List.intercalate_splitOn]

theorem pieces_intercalate {sep : Char} {items : List String} (ne : items ≠ [])
    (h : ∀ item ∈ items, sep ∉ item.toList) :
    pieces sep ((String.singleton sep).intercalate items) = items := by
  rw [pieces, String.toList_intercalate, String.toList_singleton, splitAtChar_eq_splitOn,
    List.splitOn_intercalate _ (by simpa using h) (by simpa using ne), List.map_map]
  have h : (String.ofList ∘ String.toList) = id := by
    funext s
    exact String.ofList_toList
  rw [h, List.map_id]

theorem mem_intercalate {c : Char} {sep : String} {items : List String}
    (h : c ∈ (sep.intercalate items).toList) :
    c ∈ sep.toList ∨ ∃ item ∈ items, c ∈ item.toList := by
  induction items with
  | nil => simp at h
  | cons item items ih =>
      by_cases ne : items = []
      · subst ne
        exact .inr ⟨item, by simp, by simpa using h⟩
      · rw [String.intercalate_cons_of_ne_nil ne, String.toList_append, String.toList_append,
          List.mem_append, List.mem_append] at h
        rcases h with (h | h) | h
        · exact .inr ⟨item, by simp, h⟩
        · exact .inl h
        · exact (ih h).imp_right fun ⟨x, hx, hc⟩ => ⟨x, by simp [hx], hc⟩

theorem mem_intercalate_of_mem {c : Char} {sep item : String} {items : List String}
    (hi : item ∈ items) (hc : c ∈ item.toList) : c ∈ (sep.intercalate items).toList := by
  induction items with
  | nil => cases hi
  | cons x items ih =>
      by_cases ne : items = []
      · subst ne
        obtain rfl : item = x := by simpa using hi
        simpa using hc
      · rw [String.intercalate_cons_of_ne_nil ne, String.toList_append, List.mem_append]
        rcases List.mem_cons.mp hi with rfl | hi
        · simp [hc]
        · exact .inr (ih hi)

theorem mem_of_mem_pieces {c : Char} {sep : Char} {s piece : String} (h : piece ∈ pieces sep s)
    (hc : c ∈ piece.toList) : c ∈ s.toList := by
  rw [← intercalate_pieces sep s]
  exact mem_intercalate_of_mem h hc

/-- A run of elements with a property, before one without it, is cut off there. -/
theorem span_append {α : Type} {p : α → Bool} {run : List α} (rest : List α)
    (hp : ∀ a ∈ run, p a = true) (hr : ∀ a ∈ rest.head?, p a = false) :
    (run ++ rest).takeWhile p = run ∧ (run ++ rest).dropWhile p = rest := by
  rw [List.takeWhile_append_of_pos hp, List.dropWhile_append_of_pos hp]
  cases rest with
  | nil => simp
  | cons a rest =>
      have ha : p a = false := hr a rfl
      simp [ha]

end Lineage
