import Lineage.Json.Tree
import Lineage.Path

/-!
A pipeline as data: steps, where each starts, and what it assigns to its keyword tree.
-/
namespace Lineage

/-- Where a step starts before it is invoked. -/
inductive Restart where
  | stay
  | root
  | cached (path : List String)
  | entry (path : Path)
deriving DecidableEq, Repr, Inhabited

inductive Assignment where
  | literal (key : List String) (value : Json)
  /-- The value of a cache reference, known only when the step runs. -/
  | reference (target source : List String)
deriving Inhabited

structure Step where
  label : Option String := none
  method : String
  positional : List Json := []
  assignments : List Assignment := []
  restart : Restart := .stay
  iterate : Bool := false
deriving Inhabited

/-- A list of texts as a value. -/
def Json.strings (xs : List String) : Json := .arr (xs.map .str)

namespace Restart

def toJson : Restart → Json
  | stay => .str "none"
  | root => .str "root"
  | cached path => .obj [("cached", .strings path)]
  | entry path => .obj [("entry", .str path.text)]

end Restart

namespace Step

/-- Writes one value into a keyword tree; what the tree refuses is dropped. -/
def assign (tree : Params) (key : List String) (value : Json) : Params :=
  (Params.writeAt? tree key value).getD tree

/-- The keyword tree of the literals alone, later ones over earlier ones. -/
def keywords (s : Step) : Params :=
  s.assignments.foldl (fun tree a =>
    match a with
    | .literal key value => assign tree key value
    | .reference .. => tree) []

def references (s : Step) : List (List String × List String) :=
  s.assignments.filterMap fun
    | .literal .. => none
    | .reference target source => some (target, source)

/-- A step as it is printed; parts that say nothing are left out. -/
def toJson (s : Step) : Json :=
  let refs := s.references.map fun (target, source) =>
    Json.obj [("target", .strings target), ("source", .strings source)]
  .obj <|
    (match s.label with | some label => [("label", .str label)] | none => [])
    ++ [("method", .str s.method)]
    ++ (if s.positional.isEmpty then [] else [("positional", .arr s.positional)])
    ++ (if s.keywords.isEmpty then [] else [("keywords", .obj s.keywords)])
    ++ (if refs.isEmpty then [] else [("references", .arr refs)])
    ++ (if s.restart = .stay then [] else [("restart", s.restart.toJson)])
    ++ (if s.iterate then [("iterate", .bool true)] else [])

end Step
end Lineage
