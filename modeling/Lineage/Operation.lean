import Lineage.Disk.Basic
import Lineage.Outcome
import Lineage.Shape

/-!
Operations and the scripts that are their bodies. A script is a finite tree of requests to the
registry and calls of other operations: it says what to ask or call and how to go on with each
answer, and leaves the asking and the calling to whoever runs it.
-/
namespace Lineage

/-- What a running operation may ask of the registry. -/
inductive Request where
  | workingCollection
  | basePath (file : Option String)
  | byPath (path : Path)
  | byName (name : String)
  | cached (name : String)
  | searchIn (name : String) (collection : Entry)
  | own (e : Entry)
  | merged (e : Entry)
  | setParameter (e : Entry) (name : String) (value : Json)
  | updateParameters (e : Entry) (data : Params)
  | persist (e : Entry)
  | parent (e : Entry)
  | describeEntry (e : Entry)
  | describeMethod (e : Entry) (method : String)
  | pathExists (path : Path)
  | makeDirs (path : Path)
  | removeDirs (path : Path)

/-- The type of an answer. Refusals of the disk are answers; all other failures are errors. -/
def Request.Answer : Request → Type
  | workingCollection | byPath _ => Entry
  | byName _ | cached _ | searchIn .. | parent _ => Option Entry
  | basePath _ => Path
  | own _ | merged _ => Params
  | setParameter .. | updateParameters .. | persist _ => Unit
  | describeEntry _ | describeMethod .. => Json
  | pathExists _ => Bool
  | makeDirs _ | removeDirs _ => Except DiskError Unit

inductive Script (α : Type) where
  | done (a : α)
  | fail (e : Error)
  | ask (r : Request) (next : Except Error r.Answer → Script α)
  | call (e : Entry) (method : String) (positional : List Json) (named : Params)
      (next : Except Error Outcome → Script α)

namespace Script

variable {α β : Type}

def bind : Script α → (α → Script β) → Script β
  | done a, f => f a
  | fail e, _ => fail e
  | ask r next, f => ask r fun answer => (next answer).bind f
  | call e method positional named next, f =>
    call e method positional named fun answer => (next answer).bind f

instance : Monad Script where
  pure := done
  bind := bind

def ofExcept : Except Error α → Script α
  | .ok a => done a
  | .error e => fail e

/-- Asks, and fails with what the request fails with. -/
def request (r : Request) : Script r.Answer := ask r ofExcept

/-- Calls an operation, and fails with what the call fails with. -/
def invoke (e : Entry) (method : String) (positional : List Json) (named : Params) :
    Script Outcome :=
  call e method positional named ofExcept

def ofOption (e : Error) : Option α → Script α
  | some a => done a
  | none => fail e

def workingCollection : Script Entry := request .workingCollection

def basePath (file : Option String) : Script Path := request (.basePath file)

def byPath (path : Path) : Script Entry := request (.byPath path)

def byName (name : String) : Script (Option Entry) := request (.byName name)

def cached (name : String) : Script (Option Entry) := request (.cached name)

def searchIn (name : String) (collection : Entry) : Script (Option Entry) :=
  request (.searchIn name collection)

def own (e : Entry) : Script Params := request (.own e)

def merged (e : Entry) : Script Params := request (.merged e)

def setParameter (e : Entry) (name : String) (value : Json) : Script Unit :=
  request (.setParameter e name value)

def updateParameters (e : Entry) (data : Params) : Script Unit :=
  request (.updateParameters e data)

def persist (e : Entry) : Script Unit := request (.persist e)

def parent (e : Entry) : Script (Option Entry) := request (.parent e)

def describeEntry (e : Entry) : Script Json := request (.describeEntry e)

def describeMethod (e : Entry) (method : String) : Script Json :=
  request (.describeMethod e method)

def pathExists (path : Path) : Script Bool := request (.pathExists path)

def makeDirs (path : Path) : Script (Except DiskError Unit) := request (.makeDirs path)

def removeDirs (path : Path) : Script (Except DiskError Unit) := request (.removeDirs path)

/-- Fails for the reason that a refusal of the disk gives. -/
def orRefused (reason : DiskError → String) : Except DiskError Unit → Script Unit
  | .ok () => done ()
  | .error e => fail (.failed (reason e))

end Script

structure Call where
  entry : Entry
  method : String
  args : Args
deriving Inhabited

structure Operation where
  name : String
  doc : String
  shape : Shape
  body : Call → Script Outcome

def Operation.signature (op : Operation) : String := s!"{op.name}({op.shape.text})"

/-- A named set of operations that an entry can offer. -/
structure Namespace where
  name : String
  doc : String
  operations : Table String Operation

namespace Namespace

/-- Operations in order; of two with one name the later one counts, in the earlier one's place. -/
def ofList (name doc : String) (ops : List Operation) : Namespace :=
  ⟨name, doc, Table.ofFields (ops.map fun op => (op.name, op))⟩

def get? (ns : Namespace) (name : String) : Option Operation := Table.get? ns.operations name

def names (ns : Namespace) : List String := Table.keys ns.operations

end Namespace

abbrev Catalog := Table String Namespace

namespace Catalog

/-- Adds a namespace, in the place of one with its name. -/
def register (c : Catalog) (ns : Namespace) : Catalog := Table.insert c ns.name ns

def ofList (namespaces : List Namespace) : Catalog := namespaces.foldl register []

end Catalog
end Lineage
