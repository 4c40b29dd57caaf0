/-!
Ordered tables: keys with values in the order in which the keys were first inserted. Replacing a
value keeps the place of its key.
-/
namespace Lineage

abbrev Table (κ α : Type) := List (κ × α)

namespace Table

variable {κ α : Type} [DecidableEq κ]

def get? : Table κ α → κ → Option α
  | [], _ => none
  | (k, v) :: rest, key => if k = key then some v else get? rest key

def contains (t : Table κ α) (key : κ) : Bool := (get? t key).isSome

def insert : Table κ α → κ → α → Table κ α
  | [], key, value => [(key, value)]
  | (k, v) :: rest, key, value =>
    if k = key then (k, value) :: rest else (k, v) :: insert rest key value

def erase (t : Table κ α) (key : κ) : Table κ α := t.filter fun field => field.1 ≠ key

def keys (t : Table κ α) : List κ := t.map Prod.fst

def values (t : Table κ α) : List α := t.map Prod.snd

/-- `upper` laid upon `lower`: keys of both keep their place and take the value of `upper`. -/
def overlay (lower upper : Table κ α) : Table κ α :=
  upper.foldl (fun acc field => insert acc field.1 field.2) lower

/-- The table of a list of fields: a repeated key keeps its first place and its last value. -/
def ofFields (fields : List (κ × α)) : Table κ α := overlay [] fields

end Table
end Lineage
