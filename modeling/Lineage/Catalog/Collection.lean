import Lineage.Registry.Search

/-!
Operations of a collection: finding, listing, adding and deleting entries.
-/
namespace Lineage

namespace Collection

open Registry (indexKey searchPathKey indexOf)

def byName : Operation where
  name := "byname"
  doc := "Find an entry in this collection or its sub-collections."
  shape := { required := ["entry_name"] }
  body call := do
    let name ← .ofExcept (call.args.requireText "entry_name")
    let e ← Script.ofOption (.entryNotFound name) (← .searchIn name call.entry)
    return .entry e

def showMap : Operation where
  name := "show_map"
  doc := "The name → path index."
  shape := { required := [indexKey] }
  body call := return .data (← .ofExcept (call.args.require indexKey))

def allEntries : Operation where
  name := "all_entries"
  doc := "Every indexed entry, in index order."
  shape := { optional := [(indexKey, .obj [])] }
  body call := do
    let index := ((call.args.get? indexKey).bind Json.obj?).getD []
    let entries ← ((Table.values index).filterMap Json.str?).mapM fun place : String =>
      Script.byPath (call.entry.filePath place)
    return .list (entries.map .entry)

/-- The data of an argument; none and null count as no data. -/
def dataOf (args : Args) : Except Error Params :=
  match args.get? "data" with
  | none | some .null => .ok []
  | some (.obj fields) => .ok fields
  | some _ => .error (.failed "'data' must be a map")

/-- Makes a new index of a collection the known and the stored one. -/
def storeIndex (collection : Entry) (index : Params) : Script Unit := do
  .setParameter collection indexKey (.obj index)
  .persist collection

/-- Makes and stores an entry of its own directory and lists it last in the index. -/
def insertEntry (collection : Entry) (name : String) (data : Params) : Script Outcome := do
  if name = "" ∨ name.toList.contains '/' then
    .fail (.failed s!"'{name}' is not a valid entry name")
  else
    let index := indexOf (← .own collection)
    if Table.contains index name then
      .fail (.failed s!"'{name}' is already in collection '{collection.name}'")
    else
      let dir := collection.filePath name
      .orRefused (fun e => s!"cannot create {dir.text}: {e.message}") (← .makeDirs dir)
      let e ← Script.byPath dir
      .updateParameters e data
      .persist e
      storeIndex collection (Table.insert index name (.str name))
      return .entry e

def addEntry : Operation where
  name := "add_entry"
  doc := "Create an entry directory, index it and store its initial data."
  shape := { required := ["entry_name"], optional := [("data", .obj [])] }
  body call := do
    let name ← .ofExcept (call.args.requireText "entry_name")
    let data ← .ofExcept (dataOf call.args)
    insertEntry call.entry name data

def eraseEntry (collection : Entry) (name : String) : Script Outcome := do
  let index := indexOf (← .own collection)
  match Table.get? index name with
  | none => .fail (.entryNotFound name)
  | some (.str place) =>
    storeIndex collection (Table.erase index name)
    let dir := collection.filePath place
    if ← .pathExists dir then
      .orRefused (fun e => s!"cannot remove {dir.text}: {e.message}") (← .removeDirs dir)
    return .data (.str name)
  | some _ => .fail (.failed s!"index path of '{name}' is not a string")

def deleteEntry : Operation where
  name := "delete_entry"
  doc := "Unindex an entry and remove its directory."
  shape := { required := ["entry_name"] }
  body call := do eraseEntry call.entry (← .ofExcept (call.args.requireText "entry_name"))

def searchPath : Operation where
  name := "searchpath"
  doc := "Sub-collections searched after the index."
  shape := {}
  body call := return .data ((Table.get? (← .own call.entry) searchPathKey).getD (.arr []))

end Collection

namespace Catalog

def collection : Namespace :=
  .ofList "collection" "A collection of entries, searchable by name."
    [Collection.byName, Collection.showMap, Collection.allEntries, Collection.addEntry,
      Collection.deleteEntry, Collection.searchPath]

end Catalog
end Lineage
