import Lineage.Catalog.Builtin
import Lineage.CommandLine.Options
import Lineage.Execution
import Lineage.Pipeline.Plan

/-!
The program on a disk: reads the configuration and the pipeline, runs it, and says what to print.
-/
namespace Lineage.CommandLine

/-- Printed lines and the exit code. -/
structure Output where
  out : List String := []
  err : List String := []
  code : Nat := 0
deriving DecidableEq, Repr, Inhabited

def Output.fail (o : Output) (e : Error) : Output :=
  { o with err := o.err ++ [s!"error: {e.message}"], code := e.exitCode }

def pretty (value : Json) : String := value.render (.indented 2)

/-- The configuration with the directory where its relative paths start: that of the file given,
else the working directory, whether it has a file or leaves everything at its default. -/
def configured (o : Options) (cwd : Path) (d : Disk) : Except Error (Config × Path) := do
  match o.config with
  | some path =>
    let file := cwd.join path.text
    return (← Config.load d file, file.parent?.getD cwd)
  | none =>
    let file := cwd.join Config.fileName
    if d.isFile file then return (← Config.load d file, cwd) else return ({}, cwd)

/-- A collection root given on the command line. -/
def givenCollection (cwd dir : Path) : CollectionSpec :=
  let path := cwd.join dir.text
  ⟨Entry.nameOf path, path⟩

/-- Roots on the command line stand in for the configured ones. -/
def withCollections (o : Options) (cwd : Path) (config : Config) : Config :=
  if o.collections.isEmpty then config
  else { config with collections := o.collections.map (givenCollection cwd) }

def report (x : Execution) : Output :=
  let o : Output := {
    out := if x.result.isNull then [] else [pretty x.result.toJson]
    err := x.failures.map fun f =>
      s!"warning: step {f.index + 1} ({f.method}) failed: {f.error.message}" }
  if x.failures.isEmpty then o else o.fail (.failed s!"{x.failures.length} step(s) failed")

def perform (config : Config) (base : Path) (keepGoing : Bool) (steps : List Step) :
    Action Execution := do
  let r ← Registry.ofConfig config base Catalog.standard Catalog.builtins
  r.execute keepGoing steps

/-- The output of the program, and the disk it leaves. -/
def run (o : Options) (cwd : Path) (d : Disk) : Output × Disk :=
  match configured o cwd d with
  | .error e => (Output.fail {} e, d)
  | .ok (config, base) =>
    let config := withCollections o cwd config
    let problems := config.problems
    if !problems.isEmpty then
      let o : Output := { err := problems.map ("  ERROR: " ++ ·) }
      (o.fail (.malformed s!"{problems.length} config validation error(s)"), d)
    else
      match Plan.ofTokens o.pipeline with
      | .error e => (Output.fail {} e, d)
      | .ok steps =>
        if o.dryRun then ({ out := [pretty (.arr (steps.map Step.toJson))] }, d)
        else
          match perform config base o.keepGoing steps { disk := d } with
          | .ok x w => (report x, w.disk)
          | .error e w => (Output.fail {} e, w.disk)

end Lineage.CommandLine
