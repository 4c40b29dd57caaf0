import Lineage.Config
import Lineage.Disk.Document
import Lineage.Operation

/-!
The registry and its world. A registry is fixed for a session: the configuration, the roots and
what operations there are. The world is what changes: the disk, what entries have loaded, and which
entries are known by path and by name.

Documents are files on the disk, and the operations of an entry are a namespace of the catalog, which
its metadata name. Other stores of documents and other ways to load operations are left out.
-/
namespace Lineage

/-- What an entry has loaded. Each part is found out at most once; own parameters can then be
changed. -/
structure Cells where
  own : Option Params := none
  metadata : Option Params := none
  /-- Known to have this parent, or none. -/
  parent : Option (Option Entry) := none
  /-- Known to offer these operations, or none. -/
  operations : Option (Option Namespace) := none
deriving Inhabited

structure World where
  disk : Disk
  /-- The cells of the entries, by number. -/
  cells : List Cells := []
  byPath : Table (List Component) Entry := []
  byName : Table String Entry := []
deriving Inhabited

/-- Steps in a world. What was done before an error stays done. -/
abbrev Action := EStateM Error World

namespace Action

variable {σ α : Type}

/-- A round of a loop, to a state to go on from or to an answer. -/
abbrev Round (σ α : Type) := σ → Action (σ ⊕ α)

/-- Goes on from state to state until a round answers. There is no answer if that never comes. -/
def Round.run (step : Round σ α) (s : σ) (w : World) : Option (EStateM.Result Error World α) :=
  match step s w with
  | .error e w => some (.error e w)
  | .ok (.inr a) w => some (.ok a w)
  | .ok (.inl s) w => step |>.run s w
partial_fixpoint

def loop (step : Round σ α) (s : σ) : Action α := fun w =>
  (step.run s w).getD (.error .unbounded w)

end Action

namespace World

def cellsOf (w : World) (e : Entry) : Cells := w.cells[e.id]?.getD {}

def setCells (w : World) (e : Entry) (c : Cells) : World :=
  { w with cells := w.cells.set e.id c }

end World

structure Registry where
  /-- Relative paths of the configuration start here. -/
  base : Path
  config : Config
  /-- The collections, in search order. -/
  roots : List Entry
  catalog : Catalog
  /-- Operations that every entry has beside those along its ancestry, nearer layers first. -/
  builtins : List Namespace

namespace Registry

def version : String := "0.2.0"

/-- A new entry with the given cells, known to nobody. -/
def create (path : Path) (name : String) (cells : Cells) : Action Entry := fun w =>
  .ok ⟨w.cells.length, path, name⟩ { w with cells := w.cells ++ [cells] }

/-- Makes an entry known by its path and its name, in place of those known before. -/
def register (e : Entry) : Action Unit :=
  modify fun w =>
    { w with
      byPath := Table.insert w.byPath e.path.components e
      byName := Table.insert w.byName e.name e }

/-- The entry at a path, made on first request. -/
def byPath (path : Path) : Action Entry := do
  let place := path.normalize
  match Table.get? (← get).byPath place.components with
  | some e => return e
  | none =>
    let e ← create place (Entry.nameOf place) {}
    modify fun w => { w with byPath := Table.insert w.byPath place.components e }
    return e

def cached (name : String) : Action (Option Entry) :=
  return Table.get? (← get).byName name

def createRoot (base : Path) (spec : CollectionSpec) : Action Entry := do
  let root ← create (base.join spec.path.text).normalize spec.name {}
  register root
  return root

def ofConfig (config : Config) (base : Path) (catalog : Catalog) (builtins : List Namespace) :
    Action Registry := do
  let roots ← config.collections.mapM (createRoot base)
  return { base, config, roots, catalog, builtins }

def workingCollection (r : Registry) : Action Entry :=
  match r.roots with
  | root :: _ => return root
  | [] => throw (.malformed "no collections configured")

/-- The base directory, or a file seen from it. -/
def basePath (r : Registry) : Option String → Path
  | some file => r.base.join file
  | none => r.base

/-- Where entries keep their metadata. -/
def metadataPlace (r : Registry) : DocumentPlace := r.config.metadata.getD r.config.parameters

end Registry
end Lineage
