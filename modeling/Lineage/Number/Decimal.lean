import Lineage.Number.Binary64

/-!
Decimal notation of doubles. `Decimal.toBinary64?` rounds a decimal once, `Binary64.shortest` picks
the fewest digits that round back to the double (of those the nearest), and `NumberFormat.render`
lays the digits out.
-/
namespace Lineage

/-- The value `±coefficient · 10^exponent`. -/
structure Decimal where
  negative : Bool
  coefficient : Nat
  exponent : Int
deriving DecidableEq, Repr

def digitCount (n : Nat) : Nat := (Nat.toDigits 10 n).length

namespace Decimal

/-- The nearest double. Magnitudes far outside the range of doubles are decided by the position of
the leading digit alone, so that huge exponents cost nothing. -/
def toBinary64? (x : Decimal) : Option Binary64 :=
  if x.coefficient = 0 then some (.zero x.negative)
  else
    let order := (digitCount x.coefficient : Int) + x.exponent
    if order > 310 then none
    else if order < -330 then some (.zero x.negative)
    else match x.exponent with
      | .ofNat e => Binary64.ofRatio? x.negative (x.coefficient * Nat.pow 10 e) 1
      | .negSucc e => Binary64.ofRatio? x.negative x.coefficient (Nat.pow 10 (e + 1))

end Decimal

def digitsValue (ds : List Char) : Nat := ds.foldl (fun n d => n * 10 + (d.toNat - 48)) 0

/-- An optional sign: `true` for minus, and what follows it. -/
def takeSign : List Char → Bool × List Char
  | '+' :: r => (false, r)
  | '-' :: r => (true, r)
  | cs => (false, cs)

/-- The digits after `e` or `E` as an exponent; zero when nothing is left. -/
def exponentPart? : List Char → Option Int
  | [] => some 0
  | c :: r =>
    if c = 'e' ∨ c = 'E' then
      let (negative, ds) := takeSign r
      if ds ≠ [] ∧ ds.all Char.isDigit then
        some (if negative then -(digitsValue ds : Int) else digitsValue ds)
      else none
    else none

/-- Reads an optional sign, digits with at most one point among or around them, and an optional
exponent. At least one digit is needed before the exponent. -/
def Decimal.ofChars? (cs : List Char) : Option Decimal :=
  let (negative, body) := takeSign cs
  let whole := body.takeWhile Char.isDigit
  let (fraction, tail) := match body.dropWhile Char.isDigit with
    | '.' :: r => (r.takeWhile Char.isDigit, r.dropWhile Char.isDigit)
    | r => ([], r)
  if whole = [] ∧ fraction = [] then none
  else (exponentPart? tail).map fun e =>
    ⟨negative, digitsValue (whole ++ fraction), e - fraction.length⟩

namespace Binary64

/-- The decimal order of a positive double: `10^k ≤ value < 10^(k+1)`. Below one the estimate from
the reciprocal is exact, because no negative power of ten is a double. -/
def decimalOrder (x : Binary64) : Int :=
  let (n, d) := x.ratio
  if d ≤ n then (digitCount (n / d) : Int) - 1 else -(digitCount (d / n) : Int)

/-- Bounds of the reals that round to a positive double, over the common denominator `2^(2-e)` or
one: `(low, value, high, denominator)`. Below a power of two the gap is half as wide. -/
def neighbourhood (x : Binary64) : Nat × Nat × Nat × Nat :=
  let m := 4 * x.mantissa
  let low := if x.mantissa = Nat.pow 2 52 ∧ x.exponent > -1074 then m - 1 else m - 2
  match x.exponent - 2 with
  | .ofNat e => (low <<< e, m <<< e, (m + 2) <<< e, 1)
  | .negSucc e => (low, m, m + 2, 1 <<< (e + 1))

/-- The point of the grid of multiples of `10^unit` that rounds to the double, if one of the two
next to it does; of two the nearer, and the even one of two equally near. -/
def gridPoint? (x : Binary64) (unit : Int) : Option Nat :=
  let (low, value, high, den) := x.neighbourhood
  let (up, down) : Nat × Nat := match unit with
    | .ofNat u => (1, Nat.pow 10 u)
    | .negSucc u => (Nat.pow 10 (u + 1), 1)
  let (l, v, h, g) := (low * up, value * up, high * up, den * down)
  let inside (q : Nat) : Bool :=
    if x.mantissa % 2 = 0 then l ≤ q * g && q * g ≤ h else l < q * g && q * g < h
  let q := v / g
  let below := v - q * g
  let above := (q + 1) * g - v
  match inside q, inside (q + 1) with
  | true, true => some (if below < above ∨ below = above ∧ q % 2 = 0 then q else q + 1)
  | true, false => some q
  | false, true => some (q + 1)
  | false, false => none

/-- The fewest digits that read back as a positive double, and the decimal order of the first.
Seventeen digits always do. -/
def shortest (x : Binary64) : Nat × Int :=
  let k := x.decimalOrder
  let hit := (List.range 17).findSome? fun (n : Nat) =>
    let unit := k - (n : Int)
    (x.gridPoint? unit).map fun q => (q, unit)
  let (q, unit) := hit.getD (0, 0)
  (q, unit + digitCount q - 1)

end Binary64

/-- How doubles are written: positional when the point falls within the given bounds, counted from
before the first digit, and with an exponent otherwise. -/
structure NumberFormat where
  leastPoint : Int
  greatestPoint : Int
  exponentPlus : String

namespace NumberFormat

private def trimZeros (ds : List Char) : List Char :=
  (ds.reverse.dropWhile (· == '0')).reverse

/-- The text of a double. A fraction or an exponent always tells it from an integer. -/
def render (f : NumberFormat) (x : Binary64) : String :=
  let sign := if x.negative then "-" else ""
  if x.isZero then sign ++ "0.0"
  else
    let (q, order) := x.shortest
    let ds := trimZeros (Nat.toDigits 10 q)
    let point := order + 1
    let body :=
      if f.leastPoint ≤ point ∧ point ≤ f.greatestPoint then
        if point ≤ 0 then
          "0." ++ String.ofList (List.replicate point.natAbs '0' ++ ds)
        else
          let p := point.toNat
          if ds.length ≤ p then
            String.ofList (ds ++ List.replicate (p - ds.length) '0') ++ ".0"
          else String.ofList (ds.take p) ++ "." ++ String.ofList (ds.drop p)
      else
        let head := String.ofList (ds.take 1)
        let rest := if ds.length ≤ 1 then "" else "." ++ String.ofList (ds.drop 1)
        let mark := if order < 0 then "-" else f.exponentPlus
        head ++ rest ++ "e" ++ mark ++ toString order.natAbs
    sign ++ body

end NumberFormat
end Lineage
