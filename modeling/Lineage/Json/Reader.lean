import Lineage.Json.Basic
import Lineage.Number.Decimal

/-!
Reading values from text. Integers of 64 bits stay integers; any other number becomes a double from
its first digits that fit a 64-bit word and a power of ten, with one rounding for each of the two
steps. At most 127 containers may be nested.
-/
namespace Lineage

def isBlank (c : Char) : Bool := c == ' ' || c == '\n' || c == '\t' || c == '\r'

def skipBlanks (cs : List Char) : List Char := cs.dropWhile isBlank

namespace Json.Reader

/-- Takes digits into a significand as long as it stays below `2^64`. -/
def growSignificand (n : Nat) : List Char → Nat × List Char
  | [] => (n, [])
  | c :: r =>
    if c.isDigit then
      let m := n * 10 + (c.toNat - 48)
      if m < Nat.pow 2 64 then growSignificand m r else (n, c :: r)
    else (n, c :: r)

/-- The double nearest to a power of ten. -/
def powerOfTen (k : Nat) : Binary64 := (Binary64.ofRatio? false (Nat.pow 10 k) 1).getD (.zero false)

/-- Multiplies or divides by a power of ten, in one step if it is a double itself. Below, divisions
by `10^308` come first; the third finds zero, whatever 64-bit significand it began with. -/
def scaleByTen : Nat → Binary64 → Int → Option Binary64
  | 0, x, _ => some (.zero x.negative)
  | steps + 1, x, e =>
    if e.natAbs ≤ 308 then
      if 0 ≤ e then x.mul? (powerOfTen e.natAbs) else x.div? (powerOfTen e.natAbs)
    else if x.isZero then some x
    else if 0 ≤ e then none
    else (x.div? (powerOfTen 308)).bind fun y => scaleByTen steps y (e + 308)

def floatOf (negative : Bool) (significand : Nat) (e : Int) : Option Json :=
  match Binary64.ofRatio? false significand 1 with
  | none => none
  | some x => (scaleByTen 3 x e).map fun y => .float { y with negative := negative }

/-- After `e` or `E`. An exponent beyond 31 bits leaves only zero, or overflows. -/
def exponentPart (negative : Bool) (significand : Nat) (e : Int) (cs : List Char) :
    Option (Json × List Char) :=
  let (minus, r) := takeSign cs
  let ds := r.takeWhile Char.isDigit
  let rest := r.dropWhile Char.isDigit
  let k := digitsValue ds
  if ds = [] then none
  else if k ≥ Nat.pow 2 31 then
    if significand ≠ 0 ∧ ¬ minus then none else some (.float (.zero negative), rest)
  else (floatOf negative significand (if minus then e - k else e + k)).map (·, rest)

def afterSignificand (negative : Bool) (significand : Nat) (e : Int) (cs : List Char) :
    Option (Json × List Char) :=
  match cs with
  | 'e' :: r => exponentPart negative significand e r
  | 'E' :: r => exponentPart negative significand e r
  | r => (floatOf negative significand e).map (·, r)

/-- After the point; digits that no longer fit are passed over. -/
def fractionPart (negative : Bool) (significand : Nat) (e : Int) (cs : List Char) :
    Option (Json × List Char) :=
  if cs.takeWhile Char.isDigit = [] then none
  else
    let (n, r) := growSignificand significand cs
    let used : Int := (cs.length : Int) - r.length
    afterSignificand negative n (e - used) (r.dropWhile Char.isDigit)

/-- An integer without point or exponent. Minus zero, and what fits no 64-bit integer, is a
double. -/
def wholeNumber (negative : Bool) (n : Nat) : Option Json :=
  if negative then
    if n ≠ 0 ∧ n ≤ Nat.pow 2 63 then some (.int (-(n : Int))) else floatOf true n 0
  else some (.int n)

def afterWhole (negative : Bool) (n : Nat) (cs : List Char) : Option (Json × List Char) :=
  let dropped := (cs.takeWhile Char.isDigit).length
  match cs.dropWhile Char.isDigit with
  | '.' :: r => fractionPart negative n dropped r
  | r =>
    if dropped = 0 ∧ r.head? ≠ some 'e' ∧ r.head? ≠ some 'E' then
      (wholeNumber negative n).map (·, r)
    else afterSignificand negative n dropped r

/-- A number after its sign. A leading zero stands alone. -/
def number (negative : Bool) (cs : List Char) : Option (Json × List Char) :=
  match cs with
  | '0' :: r => if (r.head?.map Char.isDigit).getD false then none else afterWhole negative 0 r
  | c :: _ =>
    if c.isDigit then
      let (n, r) := growSignificand 0 cs
      afterWhole negative n r
    else none
  | [] => none

def hexDigit? (c : Char) : Option Nat :=
  if c.isDigit then some (c.toNat - 48)
  else if 'a' ≤ c ∧ c ≤ 'f' then some (c.toNat - 87)
  else if 'A' ≤ c ∧ c ≤ 'F' then some (c.toNat - 55)
  else none

def hex4? : List Char → Option (Nat × List Char)
  | a :: b :: c :: d :: r => do
    let a ← hexDigit? a
    let b ← hexDigit? b
    let c ← hexDigit? c
    let d ← hexDigit? d
    return (((a * 16 + b) * 16 + c) * 16 + d, r)
  | _ => none

/-- After `\u`: one unit, or a surrogate pair. -/
def unicodeEscape (cs : List Char) : Option (Char × List Char) :=
  match hex4? cs with
  | none => none
  | some (n, r) =>
    if 0xD800 ≤ n ∧ n ≤ 0xDBFF then
      match r with
      | '\\' :: 'u' :: r =>
        match hex4? r with
        | some (m, r) =>
          if 0xDC00 ≤ m ∧ m ≤ 0xDFFF then
            some (Char.ofNat (0x10000 + (n - 0xD800) * 0x400 + (m - 0xDC00)), r)
          else none
        | none => none
      | _ => none
    else if 0xDC00 ≤ n ∧ n ≤ 0xDFFF then none
    else some (Char.ofNat n, r)

def simpleEscape? : Char → Option Char
  | '"' => some '"'
  | '\\' => some '\\'
  | '/' => some '/'
  | 'b' => some '\x08'
  | 'f' => some '\x0c'
  | 'n' => some '\n'
  | 'r' => some '\r'
  | 't' => some '\t'
  | _ => none

/-- The characters up to the closing quote, newest first in `acc`. -/
def stringBody : Nat → List Char → List Char → Option (String × List Char)
  | 0, _, _ => none
  | fuel + 1, acc, cs =>
    match cs with
    | '"' :: r => some (String.ofList acc.reverse, r)
    | '\\' :: 'u' :: r =>
      match unicodeEscape r with
      | some (c, r) => stringBody fuel (c :: acc) r
      | none => none
    | '\\' :: c :: r =>
      match simpleEscape? c with
      | some c => stringBody fuel (c :: acc) r
      | none => none
    | c :: r => if c.toNat < 32 then none else stringBody fuel (c :: acc) r
    | [] => none

mutual

/-- A value; `room` is one more than the containers that may still open. -/
def value (fuel room : Nat) (cs : List Char) : Option (Json × List Char) :=
  match fuel with
  | 0 => none
  | fuel + 1 =>
    match skipBlanks cs with
    | 'n' :: 'u' :: 'l' :: 'l' :: r => some (.null, r)
    | 't' :: 'r' :: 'u' :: 'e' :: r => some (.bool true, r)
    | 'f' :: 'a' :: 'l' :: 's' :: 'e' :: r => some (.bool false, r)
    | '"' :: r => (stringBody (r.length + 1) [] r).map fun (s, r) => (.str s, r)
    | '[' :: r =>
      if room ≤ 1 then none
      else match skipBlanks r with
        | ']' :: r => some (.arr [], r)
        | r => (items fuel (room - 1) [] r).map fun (xs, r) => (.arr xs, r)
    | '\x7b' :: r =>
      if room ≤ 1 then none
      else match skipBlanks r with
        | '\x7d' :: r => some (.obj [], r)
        | r => (fields fuel (room - 1) [] r).map fun (xs, r) => (.obj (Table.ofFields xs), r)
    | '-' :: r => number true r
    | r => number false r

/-- The items of a list up to its end, newest first in `acc`. -/
def items (fuel room : Nat) (acc : List Json) (cs : List Char) :
    Option (List Json × List Char) :=
  match fuel with
  | 0 => none
  | fuel + 1 =>
    match value fuel room cs with
    | none => none
    | some (x, r) =>
      match skipBlanks r with
      | ',' :: r => items fuel room (x :: acc) r
      | ']' :: r => some ((x :: acc).reverse, r)
      | _ => none

/-- The fields of a map up to its end, newest first in `acc`. -/
def fields (fuel room : Nat) (acc : List (String × Json)) (cs : List Char) :
    Option (List (String × Json) × List Char) :=
  match fuel with
  | 0 => none
  | fuel + 1 =>
    match skipBlanks cs with
    | '"' :: r =>
      match stringBody (r.length + 1) [] r with
      | none => none
      | some (key, r) =>
        match skipBlanks r with
        | ':' :: r =>
          match value fuel room r with
          | none => none
          | some (x, r) =>
            match skipBlanks r with
            | ',' :: r => fields fuel room ((key, x) :: acc) r
            | '\x7d' :: r => some (((key, x) :: acc).reverse, r)
            | _ => none
        | _ => none
    | _ => none

end

end Json.Reader

def Json.read? (text : String) : Option Json :=
  let cs := text.toList
  match Json.Reader.value (2 * cs.length + 2) 128 cs with
  | some (x, r) => if skipBlanks r = [] then some x else none
  | none => none

end Lineage
