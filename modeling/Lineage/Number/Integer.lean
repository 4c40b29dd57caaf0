import Lineage.Number.Decimal

/-!
Texts of machine integers. A sign and digits are an integer only if the value fits its word;
nothing wraps or saturates.
-/
namespace Lineage

/-- An optional sign and at least one ASCII digit. -/
def signedDigits? (cs : List Char) : Option Int :=
  let (negative, ds) := takeSign cs
  if ds ≠ [] ∧ ds.all Char.isDigit then
    some (if negative then -(digitsValue ds : Int) else digitsValue ds)
  else none

/-- Whether an integer lies in `[-2^low, 2^high - 1]`. -/
def fits (low high : Nat) (n : Int) : Bool :=
  decide (-(Nat.pow 2 low : Int) ≤ n ∧ n < (Nat.pow 2 high : Int))

/-- The integer a text denotes, if it lies in `[-2^63, 2^63 - 1]`. -/
def int64? (s : String) : Option Int :=
  (signedDigits? s.toList).filter (fits 63 63)

/-- The list index a key denotes: digits, after at most a plus sign, below `2^64`. -/
def index? (key : String) : Option Nat :=
  let ds := match key.toList with
    | '+' :: r => r
    | cs => cs
  if ds ≠ [] ∧ ds.all Char.isDigit ∧ digitsValue ds < Nat.pow 2 64 then some (digitsValue ds)
  else none

end Lineage
