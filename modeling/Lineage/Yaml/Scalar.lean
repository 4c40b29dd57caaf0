import Lineage.Json.Basic
import Lineage.Number.Integer
import Lineage.Yaml.Node

/-!
Values of YAML nodes. A plain scalar is null, a boolean or a number if its text says so; digits
after a leading zero are text. Keys are always text.
-/
namespace Lineage.Yaml

def isNullText (s : String) : Bool := ["null", "Null", "NULL", "~"].contains s

def boolText? (s : String) : Option Bool :=
  if ["true", "True", "TRUE"].contains s then some true
  else if ["false", "False", "FALSE"].contains s then some false
  else none

/-- A leading zero before more digits. -/
def isPaddedDigits (cs : List Char) : Bool :=
  let ds := (takeSign cs).2
  ds.length > 1 && ds.head? == some '0' && ds.tail.all Char.isDigit

/-- Digits of a radix up to sixteen. -/
def radixValue? (radix : Nat) (ds : List Char) : Option Nat :=
  if ds = [] then none
  else ds.foldlM (fun n c =>
    let d :=
      if c.isDigit then c.toNat - 48
      else if 'a' ≤ c ∧ c ≤ 'f' then c.toNat - 87
      else if 'A' ≤ c ∧ c ≤ 'F' then c.toNat - 55
      else radix
    if d < radix then some (n * radix + d) else none) 0

/-- The integer a plain text denotes, in radix ten or after a radix mark. -/
def intText? (cs : List Char) : Option Int :=
  let (negative, body) := takeSign cs
  let signed (n : Nat) : Int := if negative then -n else n
  match body with
  | '0' :: 'x' :: r => (radixValue? 16 r).map signed
  | '0' :: 'o' :: r => (radixValue? 8 r).map signed
  | '0' :: 'b' :: r => (radixValue? 2 r).map signed
  | _ => if isPaddedDigits cs then none else (radixValue? 10 body).map signed

inductive Plain where
  | null
  | bool (b : Bool)
  | int (n : Int)
  /-- None for the infinities and for no number. -/
  | float (x : Option Binary64)
  | text

def specialFloats : List String :=
  [".inf", ".Inf", ".INF", "+.inf", "+.Inf", "+.INF", "-.inf", "-.Inf", "-.INF", ".nan", ".NaN",
    ".NAN"]

/-- Integers of 128 bits count as such; longer ones are doubles. -/
def classify (s : String) : Plain :=
  let cs := s.toList
  if s = "" ∨ isNullText s then .null
  else
    match boolText? s with
    | some b => .bool b
    | none =>
      let float :=
        if isPaddedDigits cs then .text
        else if specialFloats.contains s then .float none
        else
          match (Decimal.ofChars? cs).bind Decimal.toBinary64? with
          | some x => .float (some x)
          | none => .text
      match intText? cs with
      | some n => if fits 127 128 n then .int n else float
      | none => float

/-- The value of a scalar. An integer that 64 bits cannot hold has none. -/
def scalarValue? (plain : Bool) (text : String) : Option Json :=
  if !plain then some (.str text)
  else
    match classify text with
    | .null => some .null
    | .bool b => some (.bool b)
    | .int n => if fits 63 64 n then some (.int n) else none
    | .float (some x) => some (.float x)
    | .float none => some .null
    | .text => some (.str text)

namespace Node

mutual

/-- The value of a node; `room` is how many collections may still open. -/
def toJson? (room : Nat) : Node → Option Json
  | scalar plain text => scalarValue? plain text
  | sequence items => if room = 0 then none else (itemsToJson? (room - 1) items).map .arr
  | mapping fields =>
    if room = 0 then none
    else (fieldsToJson? (room - 1) fields).map fun fs => .obj (Table.ofFields fs)

def itemsToJson? (room : Nat) : List Node → Option (List Json)
  | [] => some []
  | x :: xs => do
    let v ← toJson? room x
    let vs ← itemsToJson? room xs
    return v :: vs

def fieldsToJson? (room : Nat) : List (Node × Node) → Option (List (String × Json))
  | [] => some []
  | (k, x) :: xs => do
    let key ← match k with
      | scalar _ text => some text
      | _ => none
    let v ← toJson? room x
    let vs ← fieldsToJson? room xs
    return (key, v) :: vs

end

end Node

/-- The value in a text; an empty text is null. -/
def readJson? (text : String) : Option Json :=
  match Node.read? text with
  | none => none
  | some none => some .null
  | some (some node) => node.toJson? 128

end Lineage.Yaml
