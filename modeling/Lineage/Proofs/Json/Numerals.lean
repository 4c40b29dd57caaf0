import Lineage.Json.Printer
import Lineage.Json.Reader

/-!
Numbers among other text. A number is read up to the first character that cannot go on with it,
whatever follows there; and the decimal digits of a natural are read as that natural. Numbers are
printed in digits, signs, points and exponent marks, and no value is printed with an apostrophe at the
end.
-/
namespace Lineage

/-! ### Decimal digits -/

/-- One more digit of a natural that is read from the left. -/
def withDigit (n : Nat) (c : Char) : Nat := n * 10 + (c.toNat - 48)

theorem digitsValue_eq (ds : List Char) : digitsValue ds = ds.foldl withDigit 0 := rfl

theorem le_foldl_withDigit (ds : List Char) (n : Nat) : n ≤ ds.foldl withDigit n := by
  induction ds generalizing n with
  | nil => exact Nat.le_refl n
  | cons c ds ih =>
      have step : n ≤ withDigit n c := by
        rw [withDigit]
        omega
      exact Nat.le_trans step (ih _)

theorem digitsValue_toDigits (n : Nat) : digitsValue (Nat.toDigits 10 n) = n := by
  rw [digitsValue_eq]
  induction n using Nat.strongRecOn with
  | ind n ih =>
      have value {d : Nat} (hd : d < 10) : d.digitChar.toNat - 48 = d := by
        rw [Nat.toNat_digitChar_of_lt_ten hd, Nat.add_sub_cancel_left]
      rw [Nat.toDigits_eq_if (by decide)]
      split
      · rename_i small
        simp [withDigit, value small]
      · rename_i big
        rw [List.foldl_append, ih (n / 10) (by omega), List.foldl_cons, List.foldl_nil, withDigit,
          value (Nat.mod_lt n (by decide))]
        omega

theorem isDigit_toDigits {n : Nat} {c : Char} (h : c ∈ Nat.toDigits 10 n) : c.isDigit = true :=
  Nat.isDigit_of_mem_toDigits (by decide) (by decide) h

/-- The digits of a natural but zero begin with another digit than zero. -/
theorem head?_toDigits {n : Nat} (pos : 0 < n) : (Nat.toDigits 10 n).head? ≠ some '0' := by
  induction n using Nat.strongRecOn with
  | ind n ih =>
      rw [Nat.toDigits_eq_if (by decide)]
      split
      · rename_i small
        have digits : ∀ d < 10, 0 < d → [Nat.digitChar d].head? ≠ some '0' := by decide
        exact digits n small pos
      · rename_i big
        have here := ih (n / 10) (by omega) (by omega)
        cases hd : Nat.toDigits 10 (n / 10) with
        | nil => exact absurd hd Nat.toDigits_ne_nil
        | cons c ds => simpa [hd] using here

namespace Json.Reader

/-- Text that does not go on with a number that ends before it. -/
def Apart (rest : List Char) : Prop :=
  ∀ c, rest.head? = some c → c.isDigit = false ∧ c ≠ '.' ∧ c ≠ 'e' ∧ c ≠ 'E'

theorem apart_cons {c : Char} {rest : List Char} :
    Apart (c :: rest) ↔ c.isDigit = false ∧ c ≠ '.' ∧ c ≠ 'e' ∧ c ≠ 'E' := by
  simp [Apart]

variable {cs r rest : List Char} {negative : Bool} {n : Nat} {e : Int} {x : Json}

theorem Apart.takeWhile (h : Apart rest) (cs : List Char) :
    (cs ++ rest).takeWhile Char.isDigit = cs.takeWhile Char.isDigit := by
  induction cs with
  | nil =>
      cases rest with
      | nil => rfl
      | cons c rest => simp [(apart_cons.mp h).1]
  | cons c cs ih =>
      rw [List.cons_append, List.takeWhile_cons, List.takeWhile_cons, ih]

theorem Apart.dropWhile (h : Apart rest) (cs : List Char) :
    (cs ++ rest).dropWhile Char.isDigit = cs.dropWhile Char.isDigit ++ rest := by
  induction cs with
  | nil =>
      cases rest with
      | nil => rfl
      | cons c rest => simp [(apart_cons.mp h).1]
  | cons c cs ih =>
      rw [List.cons_append, List.dropWhile_cons, List.dropWhile_cons, ih]
      split <;> rfl

theorem Apart.growSignificand (h : Apart rest) (n : Nat) (cs : List Char) :
    growSignificand n (cs ++ rest) =
      ((growSignificand n cs).1, (growSignificand n cs).2 ++ rest) := by
  induction cs generalizing n with
  | nil =>
      cases rest with
      | nil => rfl
      | cons c rest => simp [Reader.growSignificand, (apart_cons.mp h).1]
  | cons c cs ih =>
      rw [List.cons_append, Reader.growSignificand, Reader.growSignificand]
      simp only
      split
      · split
        · exact ih _
        · rfl
      · rfl

theorem Apart.head?_append {c : Char} (h : Apart rest) (no : c = '.' ∨ c = 'e' ∨ c = 'E') :
    (cs ++ rest).head? = some c ↔ cs.head? = some c := by
  cases cs with
  | cons d cs => rfl
  | nil =>
      rw [List.nil_append]
      refine ⟨fun he => ?_, fun he => by cases he⟩
      obtain ⟨-, point, small, big⟩ := h c he
      rcases no with no | no | no
      · exact absurd no point
      · exact absurd no small
      · exact absurd no big

/-! ### Parts of a number -/

theorem Apart.exponentPart (h : Apart rest) (ok : exponentPart negative n e cs = some (x, r)) :
    exponentPart negative n e (cs ++ rest) = some (x, r ++ rest) := by
  have sign : cs ≠ [] → takeSign (cs ++ rest) = ((takeSign cs).1, (takeSign cs).2 ++ rest) := by
    intro ne
    obtain ⟨c, cs, rfl⟩ := List.exists_cons_of_ne_nil ne
    rw [List.cons_append, takeSign.eq_def, takeSign.eq_def]
    by_cases plus : c = '+'
    · subst plus; rfl
    · by_cases minus : c = '-'
      · subst minus; rfl
      · simp [plus, minus]
  have ne : cs ≠ [] := by
    rintro rfl
    simp [Reader.exponentPart, takeSign] at ok
  rw [Reader.exponentPart] at ok ⊢
  rw [sign ne]
  simp only [h.takeWhile, h.dropWhile] at ok ⊢
  split at ok
  · cases ok
  · rename_i some
    rw [if_neg some]
    split at ok
    · rename_i huge
      rw [if_pos huge]
      split at ok
      · cases ok
      · rename_i zero
        cases ok
        rw [if_neg zero]
    · rename_i fits
      rw [if_neg fits]
      obtain ⟨y, hy, he⟩ := Option.map_eq_some_iff.mp ok
      cases he
      rw [hy, Option.map_some]

theorem afterSignificand_of_head (hs : cs.head? ≠ some 'e') (hb : cs.head? ≠ some 'E') :
    afterSignificand negative n e cs = (floatOf negative n e).map (·, cs) := by
  cases cs with
  | nil => rfl
  | cons c cs =>
      rw [List.head?_cons, ne_eq, Option.some.injEq] at hs hb
      simp [Reader.afterSignificand, hs, hb]

theorem Apart.afterSignificand (h : Apart rest)
    (ok : afterSignificand negative n e cs = some (x, r)) :
    afterSignificand negative n e (cs ++ rest) = some (x, r ++ rest) := by
  by_cases hs : cs.head? = some 'e'
  · obtain ⟨cs, rfl⟩ := List.head?_eq_some_iff.mp hs
    exact h.exponentPart ok
  by_cases hb : cs.head? = some 'E'
  · obtain ⟨cs, rfl⟩ := List.head?_eq_some_iff.mp hb
    exact h.exponentPart ok
  · rw [afterSignificand_of_head hs hb] at ok
    rw [afterSignificand_of_head (mt (h.head?_append (.inr (.inl rfl))).mp hs)
      (mt (h.head?_append (.inr (.inr rfl))).mp hb)]
    obtain ⟨y, hy, he⟩ := Option.map_eq_some_iff.mp ok
    cases he
    rw [hy, Option.map_some]

theorem Apart.fractionPart (h : Apart rest) (ok : fractionPart negative n e cs = some (x, r)) :
    fractionPart negative n e (cs ++ rest) = some (x, r ++ rest) := by
  rw [Reader.fractionPart] at ok ⊢
  rw [h.takeWhile]
  split at ok
  · cases ok
  · rename_i some
    rw [if_neg some, h.growSignificand]
    simp only [List.length_append, h.dropWhile] at ok ⊢
    rw [Int.natCast_add, Int.natCast_add, Int.add_sub_add_right]
    exact h.afterSignificand ok

theorem afterWhole_of_head (hp : (cs.dropWhile Char.isDigit).head? ≠ some '.') :
    afterWhole negative n cs =
      if (cs.takeWhile Char.isDigit).length = 0 ∧ (cs.dropWhile Char.isDigit).head? ≠ some 'e' ∧
          (cs.dropWhile Char.isDigit).head? ≠ some 'E' then
        (wholeNumber negative n).map (·, cs.dropWhile Char.isDigit)
      else Reader.afterSignificand negative n (cs.takeWhile Char.isDigit).length
        (cs.dropWhile Char.isDigit) := by
  rw [afterWhole]
  generalize cs.dropWhile Char.isDigit = tail at hp
  cases tail with
  | nil => rfl
  | cons c tail =>
      rw [List.head?_cons, ne_eq, Option.some.injEq] at hp
      simp [hp]

theorem Apart.afterWhole (h : Apart rest) (ok : afterWhole negative n cs = some (x, r)) :
    afterWhole negative n (cs ++ rest) = some (x, r ++ rest) := by
  by_cases hp : (cs.dropWhile Char.isDigit).head? = some '.'
  · obtain ⟨fraction, split⟩ := List.head?_eq_some_iff.mp hp
    rw [Reader.afterWhole] at ok ⊢
    rw [h.dropWhile, h.takeWhile, split]
    rw [split] at ok
    exact h.fractionPart ok
  · rw [afterWhole_of_head hp] at ok
    rw [afterWhole_of_head (by rwa [h.dropWhile, ne_eq, h.head?_append (.inl rfl)]), h.takeWhile,
      h.dropWhile]
    simp only [ne_eq, h.head?_append (.inr (.inl rfl)), h.head?_append (.inr (.inr rfl))] at ok ⊢
    split at ok
    · rename_i whole
      rw [if_pos whole]
      obtain ⟨y, hy, he⟩ := Option.map_eq_some_iff.mp ok
      cases he
      rw [hy, Option.map_some]
    · rename_i more
      rw [if_neg more]
      exact h.afterSignificand ok

/-- A number is read the same whatever text follows that does not go on with it. -/
theorem Apart.number (h : Apart rest) (ok : number negative cs = some (x, r)) :
    number negative (cs ++ rest) = some (x, r ++ rest) := by
  cases cs with
  | nil => cases ok
  | cons c cs =>
      by_cases zero : c = '0'
      · subst zero
        have same : ((cs ++ rest).head?.map Char.isDigit).getD false =
            (cs.head?.map Char.isDigit).getD false := by
          cases cs with
          | cons d cs => rfl
          | nil =>
              cases rest with
              | nil => rfl
              | cons d rest => simp [(apart_cons.mp h).1]
        simp only [List.cons_append, Reader.number, same] at ok ⊢
        split at ok
        · cases ok
        · rename_i alone
          rw [if_neg alone]
          exact h.afterWhole ok
      · have grow := h.growSignificand 0 (c :: cs)
        rw [List.cons_append] at grow
        simp only [List.cons_append, Reader.number, grow] at ok ⊢
        split at ok
        · rename_i digit
          rw [if_pos digit]
          exact h.afterWhole ok
        · cases ok

/-! ### The digits of a natural -/

theorem growSignificand_digits {ds : List Char} (h : Apart rest)
    (digits : ∀ c ∈ ds, c.isDigit = true) (fits : ds.foldl withDigit n < Nat.pow 2 64) :
    growSignificand n (ds ++ rest) = (ds.foldl withDigit n, rest) := by
  induction ds generalizing n with
  | nil => simpa [Reader.growSignificand] using h.growSignificand n []
  | cons c ds ih =>
      obtain ⟨digit, digits⟩ := List.forall_mem_cons.mp digits
      have small : withDigit n c < Nat.pow 2 64 := 
        Nat.lt_of_le_of_lt (le_foldl_withDigit ds _) fits
      rw [List.cons_append, Reader.growSignificand, if_pos digit]
      exact (if_pos small).trans (ih digits fits)

theorem afterWhole_apart (h : Apart rest) (negative : Bool) (n : Nat) :
    Reader.afterWhole negative n rest = (wholeNumber negative n).map (·, rest) := by
  have take : rest.takeWhile Char.isDigit = [] := by simpa using h.takeWhile []
  have drop : rest.dropWhile Char.isDigit = rest := by simpa using h.dropWhile []
  have no {c : Char} (hc : c = '.' ∨ c = 'e' ∨ c = 'E') : rest.head? ≠ some c := by
    intro he
    have empty : ([] : List Char).head? = some c := (h.head?_append hc).mp he
    cases empty
  rw [afterWhole_of_head (by rw [drop]; exact no (.inl rfl)), take, drop, if_pos]
  exact ⟨rfl, no (.inr (.inl rfl)), no (.inr (.inr rfl))⟩

/-- The decimal digits of a natural of 64 bits are a whole number. -/
theorem number_toDigits (h : Apart rest) (negative : Bool) (fits : n < Nat.pow 2 64) :
    Reader.number negative (Nat.toDigits 10 n ++ rest) = (wholeNumber negative n).map (·, rest) := by
  rcases Nat.eq_zero_or_pos n with rfl | pos
  · have alone : (rest.head?.map Char.isDigit).getD false = false := by
      cases rest with
      | nil => rfl
      | cons c rest => simp [(apart_cons.mp h).1]
    rw [Nat.toDigits_zero, List.singleton_append, Reader.number, alone]
    exact afterWhole_apart h negative 0
  · have value := digitsValue_toDigits n
    have digits : ∀ c ∈ Nat.toDigits 10 n, c.isDigit = true := fun c => isDigit_toDigits
    have grow := growSignificand_digits (n := 0) h digits (by rwa [← digitsValue_eq, value])
    rw [← digitsValue_eq, value] at grow
    have first := head?_toDigits pos
    cases hd : Nat.toDigits 10 n with
    | nil => exact absurd hd Nat.toDigits_ne_nil
    | cons c ds =>
        rw [hd] at grow first digits
        have ne : c ≠ '0' := by simpa using first
        rw [List.cons_append] at grow ⊢
        simp only [Reader.number, grow, digits c List.mem_cons_self, if_true]
        exact afterWhole_apart h negative n

end Json.Reader

/-! ### Characters of what is printed -/

def isNumeralChar (c : Char) : Bool := c.isDigit || "-+.e".toList.contains c

/-- A text in the characters of numbers. -/
def Numeral (s : String) : Prop := s.toList.all isNumeralChar = true

namespace Numeral

theorem append {s t : String} (hs : Numeral s) (ht : Numeral t) : Numeral (s ++ t) := by
  rw [Numeral, String.toList_append, List.all_append, Bool.and_eq_true]
  exact ⟨hs, ht⟩

theorem ofDigits {ds : List Char} (h : ∀ c ∈ ds, c.isDigit = true) : Numeral (String.ofList ds) := by
  rw [Numeral, String.toList_ofList, List.all_eq_true]
  intro c hc
  rw [isNumeralChar, h c hc, Bool.true_or]

theorem ofNat (n : Nat) : Numeral (toString n) := ofDigits fun _ => isDigit_toDigits

theorem ofInt (n : Int) : Numeral (toString n) := by
  cases n with
  | ofNat n => exact ofNat n
  | negSucc n => exact append (s := "-") rfl (ofNat (n + 1))

theorem ofFloat (x : Binary64) : Numeral (Json.numberFormat.render x) := by
  have sign : Numeral (if x.negative then "-" else "") := by cases x.negative <;> rfl
  -- What is left of the digits of a natural without the zeros at the end.
  have digits (q : Nat) :
      ∀ c ∈ ((Nat.toDigits 10 q).reverse.dropWhile (· == '0')).reverse, c.isDigit = true := by
    intro c hc
    have kept := (List.dropWhile_sublist _).mem (List.mem_reverse.mp hc)
    exact isDigit_toDigits (List.mem_reverse.mp kept)
  have zeros (n : Nat) : ∀ c ∈ List.replicate n '0', c.isDigit = true := by
    intro c hc
    rw [List.eq_of_mem_replicate hc]
    rfl
  have taken (q n : Nat) : Numeral (String.ofList
      (((Nat.toDigits 10 q).reverse.dropWhile (· == '0')).reverse.take n)) :=
    ofDigits fun c hc => digits q c (List.mem_of_mem_take hc)
  have dropped (q n : Nat) : Numeral (String.ofList
      (((Nat.toDigits 10 q).reverse.dropWhile (· == '0')).reverse.drop n)) :=
    ofDigits fun c hc => digits q c (List.mem_of_mem_drop hc)
  unfold NumberFormat.render
  simp only
  split
  · exact sign.append rfl
  refine sign.append ?_
  split
  · split
    · exact append rfl (ofDigits (List.forall_mem_append.mpr ⟨zeros _, digits _⟩))
    · split
      · exact append (ofDigits (List.forall_mem_append.mpr ⟨digits _, zeros _⟩)) rfl
      · exact append (append (taken _ _) rfl) (dropped _ _)
  · refine append (append (append (append (taken _ _) ?_) rfl) ?_) (ofNat _)
    · split
      · rfl
      · exact append rfl (dropped _ _)
    · split <;> rfl

theorem last_ne {s : String} (h : Numeral s) : s.toList.getLast? ≠ some '\'' := by
  intro last
  cases List.all_eq_true.mp h _ (List.mem_of_getLast? last)

end Numeral

theorem last_append (s : String) {t : String} {c : Char} (h : t.toList.getLast? = some c) :
    (s ++ t).toList.getLast? = some c := by
  rw [String.toList_append, List.getLast?_append, h, Option.some_or]

theorem last_append_ne {s t : String} {c : Char} (hs : s.toList.getLast? ≠ some c)
    (ht : t.toList.getLast? ≠ some c) : (s ++ t).toList.getLast? ≠ some c := by
  rw [String.toList_append, List.getLast?_append]
  cases last : t.toList.getLast? with
  | none => exact hs
  | some d => rwa [last] at ht

/-- No value is printed with an apostrophe at the end. -/
theorem compact_last (x : Json) : x.compact.toList.getLast? ≠ some '\'' := by
  rw [Json.compact, Json.render]
  cases x with
  | null => decide
  | bool b => cases b <;> decide
  | int n =>
      rw [Json.renderAt]
      exact (Numeral.ofInt n).last_ne
  | float x =>
      rw [Json.renderAt]
      exact (Numeral.ofFloat x).last_ne
  | str text =>
      rw [Json.renderAt, quoted, last_append _ (t := "\"") rfl]
      decide
  | arr items =>
      cases items with
      | nil => decide
      | cons x xs =>
          rw [Json.renderAt, last_append _ (t := "]") rfl]
          decide
  | obj fields =>
      cases fields with
      | nil => decide
      | cons field fields =>
          obtain ⟨k, x⟩ := field
          rw [Json.renderAt, last_append _ (t := "\x7d") rfl]
          decide

end Lineage
