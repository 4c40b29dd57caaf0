import Lineage.Pipeline.Token
import Lineage.Proofs.Json.Numerals
import Mathlib.Data.List.Induction
import Mathlib.Data.Nat.Digits.Defs

/-!
Integers among the values of tokens. A text is coerced to an integer just if it is written as one,
with at most one sign and in digits read by their places, and the integer is of 64 bits; it is that
integer then. An integer out of this range is left to the doubles and the texts, and never becomes
another one.
-/
namespace Lineage

/-- The integers from `-2^63` to `2^63 - 1`. -/
def IsInt64 (n : Int) : Prop := -9223372036854775808 ≤ n ∧ n ≤ 9223372036854775807

inductive Sign where
  | absent
  | plus
  | minus

namespace Sign

def chars : Sign → List Char
  | absent => []
  | plus => ['+']
  | minus => ['-']

def isMinus : Sign → Bool
  | minus => true
  | absent | plus => false

/-- The integer of a sign and a magnitude. -/
def apply : Sign → Nat → Int
  | minus, n => -n
  | absent, n | plus, n => n

theorem apply_eq (sign : Sign) (n : Nat) :
    sign.apply n = if sign.isMinus then -(n : Int) else n := by
  cases sign <;> rfl

end Sign

/-- The natural that digits denote by their places, the last of which counts ones. -/
def placeValue (ds : List Char) : Nat :=
  Nat.ofDigits 10 (ds.reverse.map fun c => c.toNat - '0'.toNat)

/-- An integer as it is written in decimal notation, zeros at the front allowed. -/
structure IntegerText where
  sign : Sign
  digits : List Char
  nonempty : digits ≠ []
  decimal : ∀ c ∈ digits, c.isDigit = true

namespace IntegerText

def text (t : IntegerText) : String := String.ofList (t.sign.chars ++ t.digits)

def value (t : IntegerText) : Int := t.sign.apply (placeValue t.digits)

/-- The same with so many more zeros before its digits. -/
def padded (t : IntegerText) (k : Nat) : IntegerText where
  sign := t.sign
  digits := List.replicate k '0' ++ t.digits
  nonempty := List.append_ne_nil_of_right_ne_nil _ t.nonempty
  decimal := by
    intro c hc
    rcases List.mem_append.mp hc with hc | hc
    · rw [List.eq_of_mem_replicate hc]
      rfl
    · exact t.decimal c hc

end IntegerText

/-! ### Digits -/

theorem placeValue_snoc (ds : List Char) (c : Char) :
    placeValue (ds ++ [c]) = withDigit (placeValue ds) c := by
  rw [placeValue, List.reverse_append, List.reverse_singleton, List.singleton_append, List.map_cons,
    Nat.ofDigits_cons, withDigit, placeValue, Nat.mul_comm, Nat.add_comm]
  rfl

theorem digitsValue_eq_placeValue (ds : List Char) : digitsValue ds = placeValue ds := by
  rw [digitsValue_eq]
  induction ds using List.reverseRecOn with
  | nil => rfl
  | append_singleton ds c ih =>
      rw [List.foldl_append, ih, placeValue_snoc]
      rfl

theorem placeValue_zeros (k : Nat) (ds : List Char) :
    placeValue (List.replicate k '0' ++ ds) = placeValue ds := by
  rw [placeValue, List.reverse_append, List.reverse_replicate, List.map_append, List.map_replicate]
  exact Nat.ofDigits_append_replicate_zero _

theorem placeValue_toDigits (n : Nat) : placeValue (Nat.toDigits 10 n) = n := by
  rw [← digitsValue_eq_placeValue, digitsValue_toDigits]

/-! ### Signs -/

theorem exists_sign (cs : List Char) : ∃ sign : Sign, ∃ ds,
    cs = sign.chars ++ ds ∧ takeSign cs = (sign.isMinus, ds) := by
  rw [takeSign.eq_def]
  split
  · exact ⟨.plus, _, rfl, rfl⟩
  · exact ⟨.minus, _, rfl, rfl⟩
  · exact ⟨.absent, _, rfl, rfl⟩

/-- What begins with a digit has no sign to be taken, and after a sign no further one is. -/
theorem takeSign_append (sign : Sign) {ds : List Char} (decimal : ∀ c ∈ ds, c.isDigit = true) :
    takeSign (sign.chars ++ ds) = (sign.isMinus, ds) := by
  cases sign with
  | plus | minus => rfl
  | absent =>
      cases ds with
      | nil => rfl
      | cons c ds =>
          have digit := decimal c List.mem_cons_self
          have noplus : c ≠ '+' := by
            rintro rfl
            cases digit
          have nominus : c ≠ '-' := by
            rintro rfl
            cases digit
          simp [Sign.chars, Sign.isMinus, takeSign, noplus, nominus]

theorem signedDigits?_of_takeSign {cs ds : List Char} {sign : Sign}
    (split : takeSign cs = (sign.isMinus, ds)) : signedDigits? cs =
      if ds ≠ [] ∧ ds.all Char.isDigit then some (sign.apply (placeValue ds)) else none := by
  simp only [signedDigits?, split, digitsValue_eq_placeValue, Sign.apply_eq]

namespace IntegerText

/-! ### Reading -/

theorem signedDigits?_text (t : IntegerText) : signedDigits? t.text.toList = some t.value := by
  have split := takeSign_append t.sign t.decimal
  rw [text, String.toList_ofList, signedDigits?_of_takeSign split,
    if_pos ⟨t.nonempty, List.all_eq_true.mpr t.decimal⟩, value]

theorem exists_of_signedDigits? {s : String} {n : Int} (h : signedDigits? s.toList = some n) :
    ∃ t : IntegerText, t.text = s ∧ t.value = n := by
  obtain ⟨sign, ds, spell, split⟩ := exists_sign s.toList
  rw [signedDigits?_of_takeSign split] at h
  obtain ⟨⟨nonempty, decimal⟩, value⟩ := Option.ite_none_right_eq_some.mp h
  refine ⟨⟨sign, ds, nonempty, List.all_eq_true.mp decimal⟩, ?_, Option.some.inj value⟩
  rw [text, ← spell, String.ofList_toList]

theorem value_padded (t : IntegerText) (k : Nat) : (t.padded k).value = t.value := by
  rw [value, value, padded, placeValue_zeros]

/-- A sign before the digits of a natural. -/
def ofDigits (sign : Sign) (n : Nat) : IntegerText where
  sign
  digits := Nat.toDigits 10 n
  nonempty := Nat.toDigits_ne_nil
  decimal _ := isDigit_toDigits

theorem value_ofDigits (sign : Sign) (n : Nat) : (ofDigits sign n).value = sign.apply n := by
  rw [value, ofDigits, placeValue_toDigits]

/-- Every integer is written so in decimal notation. -/
theorem exists_toString (n : Int) : ∃ t : IntegerText, t.text = toString n ∧ t.value = n := by
  cases n with
  | ofNat n =>
      refine ⟨ofDigits .absent n, rfl, ?_⟩
      rw [value_ofDigits]
      rfl
  | negSucc n =>
      refine ⟨ofDigits .minus (n + 1), ?_, ?_⟩
      · rw [text, String.ofList_append]
        rfl
      · rw [value_ofDigits]
        rfl

end IntegerText

theorem fits_iff (n : Int) : fits 63 63 n = true ↔ IsInt64 n := by
  have limit : Nat.pow 2 63 = 9223372036854775808 := rfl
  rw [fits, decide_eq_true_eq, limit, IsInt64]
  omega

theorem int64?_eq_some_iff {s : String} {n : Int} :
    int64? s = some n ↔ (∃ t : IntegerText, t.text = s ∧ t.value = n) ∧ IsInt64 n := by
  rw [int64?, Option.filter_eq_some_iff, fits_iff]
  refine and_congr_left fun _ => ⟨IntegerText.exists_of_signedDigits?, ?_⟩
  rintro ⟨t, rfl, rfl⟩
  exact t.signedDigits?_text

/-- No two integers are written the same. -/
theorem IntegerText.value_eq {t u : IntegerText} (h : t.text = u.text) : t.value = u.value := by
  have read := t.signedDigits?_text
  rw [h, u.signedDigits?_text] at read
  exact (Option.some.inj read).symm

theorem int64?_text {t : IntegerText} {n : Int} :
    int64? t.text = some n ↔ t.value = n ∧ IsInt64 n := by
  rw [int64?_eq_some_iff]
  refine and_congr_left fun _ => ⟨?_, fun same => ⟨t, rfl, same⟩⟩
  rintro ⟨u, same, rfl⟩
  exact IntegerText.value_eq same.symm

namespace Token

theorem scalar_cases (raw : String) :
    (∃ n, int64? raw = some n ∧ scalar raw = .int n) ∨
      int64? raw = none ∧ ((∃ x, scalar raw = .float x) ∨ scalar raw = .str raw) := by
  rw [scalar]
  cases int64? raw with
  | some n => exact .inl ⟨n, rfl, rfl⟩
  | none =>
      refine .inr ⟨rfl, ?_⟩
      cases (Decimal.ofChars? raw.toList).bind Decimal.toBinary64? with
      | some x => exact .inl ⟨x, rfl⟩
      | none => exact .inr rfl

theorem scalar_eq_int_iff {raw : String} {n : Int} : scalar raw = .int n ↔ int64? raw = some n := by
  rcases scalar_cases raw with ⟨m, read, value⟩ | ⟨read, ⟨x, value⟩ | value⟩ <;> simp [read, value]

/-- A text is coerced to an integer just if it is an optional sign and digits that denote an integer
of 64 bits, and then to that one, whatever zeros stand at the front. The decimal text of every such
integer is coerced to it. Text of an integer out of range gives a double or stays as it is, and no text
ever gives another text. -/
theorem scalar_integers_exact :
    (∀ raw n, scalar raw = .int n ↔
      ∃ t : IntegerText, t.text = raw ∧ t.value = n ∧ IsInt64 n) ∧
    (∀ (t : IntegerText) k n, scalar (t.padded k).text = .int n ↔ scalar t.text = .int n) ∧
    (∀ n, scalar (toString n) = .int n ↔ IsInt64 n) ∧
    (∀ t : IntegerText, ¬ IsInt64 t.value →
      (∃ x, scalar t.text = .float x) ∨ scalar t.text = .str t.text) ∧
    ∀ raw s, scalar raw = .str s → s = raw := by
  refine ⟨fun raw n => ?_, fun t k n => ?_, fun n => ?_, fun t large => ?_, fun raw s value => ?_⟩
  · rw [scalar_eq_int_iff, int64?_eq_some_iff]
    simp only [← and_assoc, exists_and_right]
  · rw [scalar_eq_int_iff, scalar_eq_int_iff, int64?_text, int64?_text, t.value_padded k]
  · obtain ⟨t, spell, value⟩ := IntegerText.exists_toString n
    rw [← spell, scalar_eq_int_iff, int64?_text, and_iff_right value]
  · rcases scalar_cases t.text with ⟨n, read, -⟩ | ⟨-, other⟩
    · obtain ⟨rfl, small⟩ := int64?_text.mp read
      exact absurd small large
    · exact other
  · rcases scalar_cases raw with ⟨n, -, other⟩ | ⟨-, ⟨x, other⟩ | same⟩
    · cases other.symm.trans value
    · cases other.symm.trans value
    · exact (Json.str.inj (same.symm.trans value)).symm

namespace Sample

/-- The least integer above the range, with its sign. -/
def beyond : IntegerText := .ofDigits .plus 9223372036854775808

/-- The least integer is read from its text, and the one above the greatest is not read at all. -/
theorem limits_coerced :
    IsInt64 (-9223372036854775808) ∧
    scalar "-9223372036854775808" = .int (-9223372036854775808) ∧ ¬ IsInt64 beyond.value ∧
    ((∃ x, scalar "+9223372036854775808" = .float x) ∨
      scalar "+9223372036854775808" = .str "+9223372036854775808") := by
  have least : IsInt64 (-9223372036854775808) := by
    rw [IsInt64]
    decide
  have large : ¬ IsInt64 beyond.value := by
    rw [beyond, IntegerText.value_ofDigits, IsInt64]
    decide
  have spell : beyond.text = "+9223372036854775808" := by decide
  obtain ⟨-, -, written, out, -⟩ := scalar_integers_exact
  exact ⟨least, (written (-9223372036854775808)).mpr least, large, spell ▸ out beyond large⟩

end Sample

end Token
end Lineage
