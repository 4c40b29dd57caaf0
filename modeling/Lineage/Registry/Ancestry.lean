import Lineage.Registry.Search

/-!
Ancestry. The metadata of an entry may name a parent and the operations it offers. Parameters are
merged along the chain of parents, nearer entries winning, and an operation is the first one of its
name on the way up. A chain that comes back to a place is an error.
-/
namespace Lineage

namespace Registry

/-- The parent that metadata refer to: a path, seen from the directory that holds the entry, if it
has a slash; else the name of an entry, which need not exist. -/
def parentNamed (r : Registry) (e : Entry) (reference : String) : Action (Option Entry) := do
  if reference = "" then return none
  else if reference.toList.contains '/' then
    return some (← byPath ((e.path.parent?.getD e.path).join reference))
  else r.byName reference

def parent (r : Registry) (e : Entry) : Action (Option Entry) := do
  match ((← get).cellsOf e).parent with
  | some found => return found
  | none =>
    let key := r.config.parentKey
    let found ← match ← r.metadataValue e key with
      | none | some .null => pure none
      | some (.str reference) => r.parentNamed e reference
      | some other =>
        throw (.malformed s!"'{key}' of entry '{e.name}' must be a string, found {other.kind}")
    changeCells e fun c => { c with parent := some found }
    return found

/-- The operations that an entry offers itself. A namespace that the catalog lacks offers none. -/
def operations (r : Registry) (e : Entry) : Action (Option Namespace) := do
  match ((← get).cellsOf e).operations with
  | some found => return found
  | none =>
    let key := r.config.operationsKey
    let found ← match ← r.metadataValue e key with
      | none | some .null => pure none
      | some (.str name) => pure (Table.get? r.catalog name)
      | some other =>
        throw (.malformed <|
          s!"'{key}' of entry '{e.name}' must name a namespace, found " ++ other.compact)
    changeCells e fun c => { c with operations := some found }
    return found

def names (chain : List Entry) : List String := chain.map Entry.name

def hasBeenAt (chain : List Entry) (e : Entry) : Bool := e.path.isIn (chain.map Entry.path)

def cycle (chain : List Entry) (revisited : Entry) : Error :=
  .cyclicAncestry (names chain ++ [revisited.name])

/-- A chain of entries on the way up, and the last of them. -/
structure Trail where
  chain : List Entry
  last : Entry

/-- The trail that goes on to the parent of the last entry, if it has one. -/
def above (r : Registry) (t : Trail) : Action (Option Trail) := do
  match ← r.parent t.last with
  | none => return none
  | some parent =>
    if hasBeenAt t.chain parent then throw (cycle t.chain parent)
    else return some ⟨t.chain ++ [parent], parent⟩

def ancestryRound (r : Registry) : Action.Round Trail (List Entry) := fun t => do
  match ← r.above t with
  | some t => return .inl t
  | none => return .inr t.chain

/-- An entry, its parent, and so on to the one without parent. That one may never come: entries may
share a document that gives each of them a further parent. -/
def ancestry (r : Registry) (e : Entry) : Action (List Entry) := Action.loop r.ancestryRound ⟨[e], e⟩

/-- The own parameters of a chain, nearer entries laid upon farther ones. -/
def merged (r : Registry) (e : Entry) : Action Params := do
  let levels ← (← r.ancestry e).reverse.mapM r.own
  return levels.foldl Table.overlay []

def parameter (r : Registry) (e : Entry) (name : String) : Action (Option Json) :=
  return Table.get? (← r.merged e) name

/-- An operation found along a chain. -/
structure Reached where
  operation : Operation
  /-- The entry that offers it. -/
  owner : Entry
  /-- From the entry asked to the owner. -/
  path : List String

def reachRound (r : Registry) (method : String) : Action.Round Trail Reached := fun t => do
  match (← r.operations t.last).bind fun ns => ns.get? method with
  | some operation => return .inr ⟨operation, t.last, names t.chain⟩
  | none =>
    match ← r.above t with
    | some t => return .inl t
    | none => throw (.operationNotFound method (names t.chain))

/-- The nearest operation of a name. Parents beyond its owner are not looked at. -/
def reach (r : Registry) (e : Entry) (method : String) : Action Reached :=
  Action.loop (r.reachRound method) ⟨[e], e⟩

inductive Dispatch where
  | inherited (reached : Reached)
  | builtin (layer : String) (operation : Operation)

def builtin? (r : Registry) (method : String) : Option Dispatch :=
  r.builtins.findSome? fun layer => (layer.get? method).map (.builtin layer.name)

/-- The operation along the ancestry, or a built-in if there is none. -/
def dispatch (r : Registry) (e : Entry) (method : String) : Action Dispatch := fun w =>
  match r.reach e method w with
  | .ok reached w => .ok (.inherited reached) w
  | .error (.operationNotFound name visited) w =>
    match r.builtin? method with
    | some found => .ok found w
    | none => .error (.operationNotFound name visited) w
  | .error e w => .error e w

end Registry
end Lineage
