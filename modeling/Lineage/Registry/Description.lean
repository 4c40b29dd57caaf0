import Lineage.Registry.Ancestry

/-!
Descriptions of entries and methods for people to read, as values.
-/
namespace Lineage

namespace Operation

/-- Signature, doc and parameters. -/
def describe (op : Operation) : Params :=
  [("signature", .str op.signature), ("doc", .str op.doc),
    ("required", .strings op.shape.required), ("optional", .strings op.shape.optionalNames),
    ("extra_named", .bool op.shape.extraNamed), ("variadic", .bool op.shape.variadic)]

end Operation

namespace Registry

/-- Every method that the namespaces of a chain offer, nearer ones first, each once. -/
def reachable (offers : List (Option Namespace)) : List String :=
  (offers.flatMap fun ns => (ns.map Namespace.names).getD []).eraseDups

def textOrNull : Option String → Json
  | some s => .str s
  | none => .null

def describeEntry (r : Registry) (e : Entry) : Action Json := do
  let chain ← r.ancestry e
  let own ← r.operations e
  let offers ← chain.mapM r.operations
  return .obj [("entry", .str e.name), ("path", .str e.path.text),
    ("doc", textOrNull (own.map Namespace.doc)),
    ("namespace", textOrNull (own.map Namespace.name)),
    ("parent", textOrNull (chain[1]?.map Entry.name)),
    ("ancestry", .str (Error.chainText (names chain))),
    ("operations", .strings (reachable offers)),
    ("builtins", .strings (r.builtins.flatMap Namespace.names))]

/-- Where a method of an entry is found, and how it is called. -/
def describeMethod (r : Registry) (e : Entry) (method : String) : Action Json := do
  let found : Params × Operation ← match ← r.dispatch e method with
    | .inherited reached =>
      pure ([("owner", .str reached.owner.name),
        ("ancestry", .str (Error.chainText reached.path))], reached.operation)
    | .builtin layer op => pure ([("builtin", .str layer)], op)
  return .obj <|
    [("entry", .str e.name), ("path", .str e.path.text), ("method", .str method)]
      ++ found.1 ++ found.2.describe

end Registry
end Lineage
