import Lineage.Number.Binary64
import Lineage.Table

/-!
Dynamic values, and parameters: tables of values by name.
-/
namespace Lineage

inductive Json where
  | null
  | bool (b : Bool)
  | int (n : Int)
  | float (x : Binary64)
  | str (s : String)
  | arr (items : List Json)
  | obj (fields : List (String × Json))
deriving Inhabited, Repr

/-- Parameters by name, in insertion order. -/
abbrev Params := Table String Json

namespace Json

/-- What a value is, with its article. -/
def kind : Json → String
  | null => "null"
  | bool _ => "a boolean"
  | int _ | float _ => "a number"
  | str _ => "a string"
  | arr _ => "a list"
  | obj _ => "a map"

def str? : Json → Option String
  | str s => some s
  | _ => none

def obj? : Json → Option Params
  | obj fields => some fields
  | _ => none

def isNull : Json → Bool
  | null => true
  | _ => false

mutual

/-- Equality of values: maps regardless of order, numbers within their kind. -/
def same : Json → Json → Bool
  | null, null => true
  | bool a, bool b => a == b
  | int a, int b => a == b
  | float a, float b => a.sameValue b
  | str a, str b => a == b
  | arr xs, arr ys => sameItems xs ys
  | obj xs, obj ys => xs.length == ys.length && sameFields xs ys
  | _, _ => false

def sameItems : List Json → List Json → Bool
  | [], [] => true
  | x :: xs, y :: ys => same x y && sameItems xs ys
  | _, _ => false

def sameFields : List (String × Json) → Params → Bool
  | [], _ => true
  | (k, x) :: xs, ys =>
    match Table.get? ys k with
    | some y => same x y && sameFields xs ys
    | none => false

end

end Json
end Lineage
