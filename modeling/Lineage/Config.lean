import Lineage.Disk.Basic
import Lineage.Error
import Lineage.Pipeline.Step
import Lineage.Yaml.Node

/-!
The configuration: which collections there are, where entries keep their documents, and the keys
that name operations and parents. Every part has a default.
-/
namespace Lineage

structure CollectionSpec where
  name : String
  path : Path
deriving DecidableEq, Repr

/-- A place inside a document of an entry: the file, and the keys that lead there. -/
structure DocumentPlace where
  file : String
  path : List String := []
deriving DecidableEq, Repr, Inhabited

structure Config where
  collections : List CollectionSpec :=
    [⟨"working_collection", ⟨"working_collection"⟩⟩, ⟨"core_collection", ⟨"core_collection"⟩⟩]
  parameters : DocumentPlace := ⟨"parameters.json", []⟩
  /-- None takes the parameters themselves as metadata. -/
  metadata : Option DocumentPlace := none
  operationsKey : String := "operations"
  parentKey : String := "parent_entry_name"
deriving DecidableEq, Repr

namespace DocumentPlace

def toJson (p : DocumentPlace) : Json :=
  .obj ([("file", .str p.file)] ++ if p.path.isEmpty then [] else [("path", .strings p.path)])

def problems (what : String) (p : DocumentPlace) : List String :=
  (if p.file = "" then [what ++ " file must not be empty"] else [])
    ++ (if p.path.contains "" then [what ++ " path has an empty segment"] else [])

end DocumentPlace

namespace Config

def fileName : String := "clip.yaml"

def toJson (c : Config) : Json :=
  .obj <|
    [("collections", .arr <| c.collections.map fun spec =>
        .obj [("name", .str spec.name), ("path", .str spec.path.text)]),
      ("parameters", c.parameters.toJson)]
    ++ (match c.metadata with | some place => [("meta", place.toJson)] | none => [])
    ++ [("operations_key", .str c.operationsKey), ("parent_key", .str c.parentKey)]

/-- Complaints about the collections from the `i`-th on, after those named `earlier`. -/
def collectionProblems (i : Nat) (earlier : List String) : List CollectionSpec → List String
  | [] => []
  | c :: rest =>
    (if c.name = "" then [s!"collection #{i + 1} has an empty name"] else [])
      ++ (if earlier.contains c.name then [s!"collection '{c.name}' is listed twice"] else [])
      ++ collectionProblems (i + 1) (c.name :: earlier) rest

/-- What is wrong with a configuration; nothing if it is valid. -/
def problems (c : Config) : List String :=
  (if c.collections.isEmpty then ["at least one collection is required"] else [])
    ++ collectionProblems 0 [] c.collections
    ++ c.parameters.problems "parameters"
    ++ (match c.metadata with | some place => place.problems "meta" | none => [])
    ++ (if c.operationsKey = "" then ["operations_key must not be empty"] else [])
    ++ (if c.parentKey = "" then ["parent_key must not be empty"] else [])

namespace Reader

/-- Any scalar is taken by its text. -/
def text? : Yaml.Node → Option String
  | .scalar _ text => some text
  | _ => none

/-- An empty scalar counts as an empty list or mapping. -/
def list? : Yaml.Node → Option (List Yaml.Node)
  | .sequence items => some items
  | .scalar true "" => some []
  | _ => none

def fields? : Yaml.Node → Option (List (String × Yaml.Node))
  | .mapping fields => fields.mapM fun (k, x) => (text? k).map (·, x)
  | .scalar true "" => some []
  | _ => none

/-- The fields of a record: known ones at most once, others as they like. -/
def record? (known : List String) (node : Yaml.Node) : Option (List (String × Yaml.Node)) :=
  (fields? node).bind fun fields =>
    if known.all fun name => (fields.filter fun f => f.1 == name).length ≤ 1 then some fields
    else none

/-- A field read by `f`, or its default when it is missing. -/
def fieldOr {α : Type} (fields : List (String × Yaml.Node)) (name : String)
    (f : Yaml.Node → Option α) (default : α) : Option α :=
  match fields.lookup name with
  | some x => f x
  | none => some default

def texts? (node : Yaml.Node) : Option (List String) := (list? node).bind fun xs => xs.mapM text?

def collection? (node : Yaml.Node) : Option CollectionSpec := do
  let fields ← record? ["name", "path"] node
  let name ← text? (← fields.lookup "name")
  let path ← text? (← fields.lookup "path")
  return ⟨name, ⟨path⟩⟩

def place? (node : Yaml.Node) : Option DocumentPlace := do
  let fields ← record? ["file", "path"] node
  let file ← text? (← fields.lookup "file")
  let path ← fieldOr fields "path" texts? []
  return ⟨file, path⟩

/-- A place that null leaves out. -/
def optionalPlace? : Yaml.Node → Option (Option DocumentPlace)
  | .scalar true text =>
    if text = "" ∨ ["null", "Null", "NULL", "~"].contains text then some none
    else none
  | node => (place? node).map some

def config? (node : Yaml.Node) : Option Config := do
  let fields ← record? ["collections", "parameters", "meta", "operations_key", "parent_key"] node
  let base : Config := {}
  let collections ← fieldOr fields "collections"
    (fun x => (list? x).bind fun xs => xs.mapM collection?) base.collections
  let parameters ← fieldOr fields "parameters" place? base.parameters
  let metadata ← fieldOr fields "meta" optionalPlace? base.metadata
  let operationsKey ← fieldOr fields "operations_key" text? base.operationsKey
  let parentKey ← fieldOr fields "parent_key" text? base.parentKey
  return { collections, parameters, metadata, operationsKey, parentKey }

end Reader

/-- The configuration in a YAML text. An empty text is the default configuration. -/
def read (text : String) : Except Error Config :=
  let config := (Yaml.Node.read? text).bind fun
    | none => some {}
    | some node => Reader.config? node
  match config with
  | some c => .ok c
  | none => .error (.malformed "config YAML parse error")

def load (d : Disk) (path : Path) : Except Error Config :=
  match d.read path with
  | .ok text => read text
  | .error e => .error (.storage path s!"cannot read: {e.message}")

end Config
end Lineage
