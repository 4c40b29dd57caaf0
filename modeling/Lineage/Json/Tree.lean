import Lineage.Json.Basic
import Lineage.Number.Integer

/-!
Values addressed by key paths. `writeAt?` writes below nested maps, making them on the way;
`readAt` reads through maps and lists.
-/
namespace Lineage

namespace Params

/-- The map under a key, empty when there is none or another value. -/
def child (tree : Params) (key : String) : Params :=
  match Table.get? tree key with
  | some (.obj fields) => fields
  | _ => []

/-- Writes a value below `key` and the keys after it. A value on the way that is no map gives way
to one, in its place. -/
def writeBelow (tree : Params) (key : String) : List String → Json → Params
  | [], value => Table.insert tree key value
  | next :: rest, value =>
    Table.insert tree key (.obj (writeBelow (child tree key) next rest value))

/-- Writes a value at a key path. The empty path overlays a map on the whole tree and takes
nothing else. -/
def writeAt? (tree : Params) : List String → Json → Option Params
  | [], .obj fields => some (Table.overlay tree fields)
  | [], _ => none
  | key :: rest, value => some (writeBelow tree key rest value)

end Params

/-- Why a path leads nowhere in a value. -/
inductive PathFault where
  | notAnIndex (key : String)
  | outOfRange (index size : Nat)
  | noMembers (kind key : String)
deriving DecidableEq, Repr

def PathFault.message : PathFault → String
  | notAnIndex key => s!"cannot index a list with '{key}'"
  | outOfRange index size => s!"index {index} out of range ({size} items)"
  | noMembers kind key => s!"cannot descend into {kind} with '{key}'"

/-- The element of a list that a key denotes. -/
def element {α : Type} (items : List α) (key : String) : Except PathFault α :=
  match index? key with
  | none => .error (.notAnIndex key)
  | some i =>
    match items[i]? with
    | some x => .ok x
    | none => .error (.outOfRange i items.length)

namespace Json

/-- The value at a path. A key that a map lacks leads to an empty map. -/
def readAt : Json → List String → Except PathFault Json
  | value, [] => .ok value
  | obj fields, key :: rest => readAt ((Table.get? fields key).getD (.obj [])) rest
  | arr items, key :: rest =>
    match element items key with
    | .ok value => readAt value rest
    | .error e => .error e
  | value, key :: _ => .error (.noMembers value.kind key)

end Json
end Lineage
