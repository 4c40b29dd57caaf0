import Lineage.CommandLine.Run

/-!
The program. It reads the directories that a run can reach by its configuration into a value, runs
there, and writes back what has changed. Links are left alone.
-/
namespace Lineage.CommandLine

/-- The names that lead from the root to a path. -/
def locationOf (cwd path : Path) : Location :=
  (cwd.join path.text).components.foldl (fun loc c =>
    match c with
    | .name s => loc ++ [s]
    | .up => loc.dropLast
    | .root | .here => loc) []

def textOf (loc : Location) : String := "/" ++ "/".intercalate loc

/-- The directories from the root to a location, outermost first. -/
def within (loc : Location) : List Location := (List.range loc.length).map fun n => loc.take (n + 1)

/-- Adds what is below a directory. -/
partial def readTree (d : Disk) (loc : Location) : IO Disk := do
  let root ← IO.currentDir
  let mut disk := d
  for entry in ← (root / textOf loc).readDir do
    let place := loc ++ [entry.fileName]
    match (← entry.path.symlinkMetadata).type with
    | .dir => disk ← readTree (disk.put place .dir) place
    | .file =>
      match ← (IO.FS.readFile entry.path).toBaseIO with
      | .ok text => disk := disk.put place (.file text)
      | .error _ => pure ()
    | _ => pure ()
  return disk

/-- Adds a directory, those above it and what is below it, unless it is known already. -/
def capture (d : Disk) (loc : Location) : IO Disk := do
  if (d.node? loc).isSome && loc ≠ [] then return d
  let root ← IO.currentDir
  if ← (root / textOf loc).isDir then
    readTree ((within loc).foldl (fun d l => d.put l .dir) d) loc
  else return d

/-- The part of the file system that a run starts from. -/
def snapshot (o : Options) (cwd : Path) : IO Disk := do
  let here := locationOf cwd cwd
  let mut disk ← readTree ⟨here, (within here).map fun l => (l, .dir)⟩ here
  if let some file := o.config then disk ← capture disk (locationOf cwd file).dropLast
  if let .ok (config, base) := configured o cwd disk then
    for spec in (withCollections o cwd config).collections do
      disk ← capture disk (locationOf cwd (base.join spec.path.text))
  return disk

def stays : FileNode → Option FileNode → Bool
  | .dir, some .dir | .file _, some (.file _) => true
  | _, _ => false

/-- Makes the file system follow a change from one disk to another. -/
def follow (before after : Disk) : IO Unit := do
  let root ← IO.currentDir
  for (loc, node) in before.nodes do
    let place := root / textOf loc
    if !stays node (after.node? loc) && (← place.pathExists) then
      match node with
      | .dir => IO.FS.removeDirAll place
      | .file _ => IO.FS.removeFile place
  for (loc, node) in after.nodes.mergeSort (fun a b => a.1.length ≤ b.1.length) do
    if before.node? loc ≠ some node then
      match node with
      | .dir => IO.FS.createDirAll (root / textOf loc)
      | .file text => IO.FS.writeFile (root / textOf loc) text

def usage : String :=
  "Usage: clip [--config FILE] [--collection DIR]... [--dry-run] [--keep-going] [-v] [PIPELINE]..."

def Refusal.message : Refusal → String
  | helpAsked => usage
  | versionAsked => "clip " ++ Registry.version
  | missingValue => "error: an option lacks its value\n" ++ usage
  | unwantedValue => "error: an option takes no value\n" ++ usage
  | repeated => "error: an option is given twice\n" ++ usage

end Lineage.CommandLine

open Lineage CommandLine in
def main (args : List String) : IO UInt32 := do
  match Options.ofArgs args with
  | .error refusal =>
    if refusal.exitCode = 0 then IO.println refusal.message else IO.eprintln refusal.message
    return refusal.exitCode.toUInt32
  | .ok o =>
    let cwd : Path := ⟨(← IO.currentDir).toString⟩
    let before ← snapshot o cwd
    let (output, after) := run o cwd before
    follow before after
    for line in output.err do IO.eprintln line
    for line in output.out do IO.println line
    return output.code.toUInt32
