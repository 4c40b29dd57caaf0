import Lineage.Entry

/-!
What an operation returns: data, an entry, or a list of outcomes.
-/
namespace Lineage

inductive Outcome where
  | data (value : Json)
  | entry (e : Entry)
  | list (items : List Outcome)
deriving Inhabited

namespace Outcome

def null : Outcome := .data .null

def isNull : Outcome → Bool
  | .data .null => true
  | _ => false

def one? : Outcome → Option Entry
  | .entry e => some e
  | _ => none

/-- The entries of a list that has some and holds nothing else. -/
def many? : Outcome → Option (List Entry)
  | .list [] => none
  | .list items => items.mapM one?
  | _ => none

mutual

def toJson : Outcome → Json
  | .data value => value
  | .entry e => e.toJson
  | .list items => .arr (itemsToJson items)

def itemsToJson : List Outcome → List Json
  | [] => []
  | x :: xs => toJson x :: itemsToJson xs

end

mutual

/-- Equality of outcomes. Entries of one place are equal even if they are held apart. -/
def same : Outcome → Outcome → Bool
  | .data a, .data b => a.same b
  | .entry a, .entry b => a.id == b.id || a.path.same b.path
  | .list xs, .list ys => sameItems xs ys
  | _, _ => false

def sameItems : List Outcome → List Outcome → Bool
  | [], [] => true
  | x :: xs, y :: ys => same x y && sameItems xs ys
  | _, _ => false

end

def ofOption : Option Entry → Outcome
  | some e => .entry e
  | none => null

end Outcome
end Lineage
