import Lineage.Registry.Parameters

/-!
Finding entries by name. A collection lists entries in an index of its parameters and names other
collections to search after it. A search visits each collection once, depth first, and the first
index that has the name decides.
-/
namespace Lineage

namespace Registry

/-- The parameter that holds the index of a collection: paths by entry name. -/
def indexKey : String := "name_2_path"

/-- The parameter that lists the collections searched after the index. -/
def searchPathKey : String := "collections_searchpath"

def indexOf (own : Params) : Params := ((Table.get? own indexKey).bind Json.obj?).getD []

def searchItems (own : Params) : List String :=
  match Table.get? own searchPathKey with
  | some (.arr items) => items.filterMap Json.str?
  | _ => []

/-- The entry that the index of a collection has under a name. -/
def indexed (r : Registry) (collection : Entry) (name : String) : Action (Option Entry) := do
  match (Table.get? (indexOf (← r.own collection)) name).bind Json.str? with
  | some place => return some (← byPath (collection.filePath place))
  | none => return none

/-- The collection that an item of a search path means: a path if it has a slash, else a name in the
collection's own index, else a name already known. -/
def searched (r : Registry) (collection : Entry) (item : String) : Action (Option Entry) := do
  if item.toList.contains '/' then return some (← byPath (collection.filePath item))
  else
    match ← r.indexed collection item with
    | some e => return some e
    | none => cached item

/-- What a search has found, and the collections it has visited. -/
abbrev Finding := Option Entry × List Path

/-- Where a search has yet to look. -/
inductive Lead where
  | collection (c : Entry)
  /-- An item of the search path of a collection. -/
  | item (c : Entry) (text : String)

def leadsTo (r : Registry) : Lead → Action (Option Entry)
  | .collection c => return some c
  | .item c text => r.searched c text

/-- A search under way. -/
inductive Search where
  | found (e : Entry) (visited : List Path)
  | going (leads : List Lead) (visited : List Path)

/-- Looks a name up in the index of a collection. If it is not there, the collections that this one
names come before what else there is to follow. -/
def visit (r : Registry) (name : String) (collection : Entry) (rest : List Lead)
    (visited : List Path) : Action Search := do
  let visited := visited ++ [collection.path]
  match ← r.indexed collection name with
  | some e => return .found e visited
  | none =>
    return .going ((searchItems (← r.own collection)).map (.item collection) ++ rest) visited

/-- Follows a lead. One that leads nowhere, or to a collection visited before, is passed over. -/
def pursue (r : Registry) (name : String) (lead : Lead) (rest : List Lead) (visited : List Path) :
    Action Search := do
  match ← r.leadsTo lead with
  | none => return .going rest visited
  | some collection =>
    if collection.path.isIn visited then return .going rest visited
    else r.visit name collection rest visited

/-- Follows leads until the name is found or none is left. There is no answer if that never comes:
collections may share one document that leads each of them to a further one. -/
def explore (r : Registry) (name : String) (leads : List Lead) (visited : List Path) (w : World) :
    Option (EStateM.Result Error World Finding) :=
  match leads with
  | [] => some (.ok (none, visited) w)
  | lead :: rest =>
    match r.pursue name lead rest visited w with
    | .error e w => some (.error e w)
    | .ok (.found e visited) w => some (.ok (some e, visited) w)
    | .ok (.going leads visited) w => r |>.explore name leads visited w
partial_fixpoint

def search (r : Registry) (name : String) (leads : List Lead) (visited : List Path) :
    Action Finding := fun w =>
  (r.explore name leads visited w).getD (.error .unbounded w)

/-- Searches a collection and those after it, but for those visited before. -/
def searchFrom (r : Registry) (name : String) (collection : Entry) (visited : List Path) :
    Action Finding :=
  r.search name [.collection collection] visited

/-- The entry of a name: one already known, else the first found from the roots in order. -/
def byName (r : Registry) (name : String) : Action (Option Entry) := do
  match ← cached name with
  | some e => return some e
  | none =>
    match ← r.search name (r.roots.map .collection) [] with
    | (some e, _) =>
      modify fun w => { w with byName := Table.insert w.byName name e }
      return some e
    | (none, _) => return none

end Registry
end Lineage
