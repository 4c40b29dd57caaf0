/-!
Splitting at a separator. `pieces` inverts joining: the pieces of a joined list of texts without
the separator are those texts.
-/
namespace Lineage

/-- The runs between separators; there is one more than separators. -/
def splitAtChar (sep : Char) : List Char → List (List Char)
  | [] => [[]]
  | c :: cs =>
    if c = sep then [] :: splitAtChar sep cs
    else match splitAtChar sep cs with
      | [] => [[c]]
      | run :: runs => (c :: run) :: runs

def pieces (sep : Char) (s : String) : List String := (splitAtChar sep s.toList).map String.ofList

theorem splitAtChar_ne_nil (sep : Char) (cs : List Char) : splitAtChar sep cs ≠ [] := by
  cases cs with
  | nil => simp [splitAtChar]
  | cons c cs =>
    simp only [splitAtChar]
    split
    · simp
    · split <;> simp

theorem not_mem_of_mem_splitAtChar (sep : Char) (cs : List Char) :
    ∀ run ∈ splitAtChar sep cs, sep ∉ run := by
  induction cs with
  | nil => simp [splitAtChar]
  | cons c cs ih =>
    simp only [splitAtChar]
    split
    · simpa using ih
    · rename_i hne
      cases h : splitAtChar sep cs with
      | nil => exact absurd h (splitAtChar_ne_nil sep cs)
      | cons run runs =>
        rw [h] at ih
        simp only [List.mem_cons, forall_eq_or_imp] at ih ⊢
        exact ⟨fun hm => hm.elim (fun he => hne he.symm) ih.1, ih.2⟩

end Lineage
