import Lineage.Catalog.Collection
import Lineage.Catalog.Help

/-!
Operations that every entry has: those about the entry itself and, after them, those about the
registry.
-/
namespace Lineage

namespace Builtin

def getPath : Operation where
  name := "get_path"
  doc := "The entry directory, or a file inside it (absolute names are returned as-is)."
  shape := { optional := [("file_name", .null)] }
  body call := return .data (.str (call.entry.filePath (call.args.text? "file_name")).text)

def getName : Operation where
  name := "get_name"
  doc := "The entry name."
  shape := {}
  body call := return .data (.str call.entry.name)

def help : Operation where
  name := "help"
  doc := "Describe the entry, or one of its methods."
  shape := { optional := [("method_name", .null)] }
  body call :=
    match call.args.text? "method_name" with
    | some method => return .data (← .describeMethod call.entry method)
    | none => return .data (← .describeEntry call.entry)

def parameters : Operation where
  name := "parameters"
  doc := "The entry's own parameters."
  shape := {}
  body call := return .data (.obj (← .own call.entry))

def mergedParameters : Operation where
  name := "merged_parameters"
  doc := "Parameters merged along the ancestry chain."
  shape := {}
  body call := return .data (.obj (← .merged call.entry))

def getParameter : Operation where
  name := "get_parameter"
  doc := "One parameter from the merged view, or null."
  shape := { required := ["param_name"] }
  body call := do
    let name ← .ofExcept (call.args.requireText "param_name")
    return .data ((Table.get? (← .merged call.entry) name).getD .null)

def setParameter : Operation where
  name := "set_parameter"
  doc := "Set one of the entry's own parameters (in memory)."
  shape := { required := ["param_name", "value"] }
  body call := do
    let name ← .ofExcept (call.args.requireText "param_name")
    let value ← .ofExcept (call.args.require "value")
    .setParameter call.entry name value
    return .data value

def update : Operation where
  name := "update"
  doc := "Merge data into the entry's own parameters and store them."
  shape := { optional := [("data", .obj [])] }
  body call := do
    let data ← .ofExcept (Collection.dataOf call.args)
    .updateParameters call.entry data
    .persist call.entry
    return .data (.obj (← .own call.entry))

def version : Operation where
  name := "version"
  doc := "Kernel version."
  shape := {}
  body _ := return .data (.str Registry.version)

def getKernelPath : Operation where
  name := "get_kernel_path"
  doc := "The kernel directory, or a file inside it."
  shape := { optional := [("file_name", .null)] }
  body call := return .data (.str (← .basePath (call.args.text? "file_name")).text)

def byPath : Operation where
  name := "bypath"
  doc := "The entry at a path (relative paths start at the kernel directory)."
  shape := { required := ["path"] }
  body call := do
    let path ← .ofExcept (call.args.requireText "path")
    return .entry (← .byPath (← .basePath path))

def byName : Operation where
  name := "byname"
  doc := "Find an entry by name across all collections."
  shape := { required := ["entry_name"] }
  body call := do
    let name ← .ofExcept (call.args.requireText "entry_name")
    let e ← Script.ofOption (.entryNotFound name) (← .byName name)
    return .entry e

def workingCollection : Operation where
  name := "working_collection"
  doc := "The first configured collection."
  shape := {}
  body _ := return .entry (← .workingCollection)

def cached : Operation where
  name := "cached"
  doc := "An entry already resolved by name, or null."
  shape := { required := ["entry_name"] }
  body call := do
    let name ← .ofExcept (call.args.requireText "entry_name")
    return .ofOption (← .cached name)

end Builtin

namespace Catalog

def entryLayer : Namespace :=
  .ofList "entry" "Operations every entry understands."
    [Builtin.getPath, Builtin.getName, Builtin.help, Builtin.parameters, Builtin.mergedParameters,
      Builtin.getParameter, Builtin.setParameter, Builtin.update]

def kernelLayer : Namespace :=
  .ofList "kernel" "Registry-level operations."
    [Builtin.version, Builtin.getKernelPath, Builtin.byPath, Builtin.byName,
      Builtin.workingCollection, Builtin.cached]

/-- The namespaces that metadata can name without further ado. -/
def standard : Catalog := .ofList [collection, params, help]

def builtins : List Namespace := [entryLayer, kernelLayer]

end Catalog
end Lineage
