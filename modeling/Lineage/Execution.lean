import Lineage.Pipeline.Step
import Lineage.Registry.Invocation

/-!
Running a pipeline against a moving target. A step first aims, then works out its keywords, is then
invoked on its target, and last moves the target on. Iteration starts with a step that asks for it
and ends with a return to the root.
-/
namespace Lineage

inductive Target where
  | one (e : Entry)
  | many (entries : List Entry)
deriving DecidableEq, Repr, Inhabited

def Target.entries : Target → List Entry
  | one e => [e]
  | many entries => entries

/-- A failed step that was passed over. -/
structure Failure where
  index : Nat
  method : String
  error : Error
deriving Inhabited

/-- What a run has produced. -/
structure Execution where
  /-- Of the last step, null if it failed. -/
  result : Outcome := .null
  /-- The last result under each label. -/
  cache : Table String Outcome := []
  failures : List Failure := []
deriving Inhabited

structure Run where
  root : Entry
  target : Target
  /-- Entries that the last step listed; the next step may iterate over them. -/
  pending : Option (List Entry) := none
  iterating : Bool := false
  position : Nat := 0
  soFar : Execution := {}
deriving Inhabited

/-- An error of a reference or of a part of it. -/
def unresolved (reference : List String) (reason : String) : Error :=
  .unresolvedReference (".".intercalate reference) reason

namespace Registry

/-- One key further into an outcome that `reference` leads through. -/
def member (r : Registry) (reference : List String) (outcome : Outcome) (key : String) :
    Action Outcome :=
  match outcome with
  | .data (.obj fields) =>
    match Table.get? fields key with
    | some value => return .data value
    | none => throw (unresolved reference s!"no key '{key}'")
  | .data (.arr items) =>
    match element items key with
    | .ok value => return .data value
    | .error e => throw (unresolved reference e.message)
  | .list items =>
    match element items key with
    | .ok item => return item
    | .error e => throw (unresolved reference e.message)
  | .entry e => do
    match ← r.parameter e key with
    | some value => return .data value
    | none => throw (unresolved reference s!"entry '{e.name}' has no parameter '{key}'")
  | .data value => throw (unresolved reference (PathFault.noMembers value.kind key).message)

/-- The outcome that a reference means: a label, and keys into what is cached under it. -/
def lookup (r : Registry) (cache : Table String Outcome) (reference : List String) :
    Action Outcome :=
  match reference with
  | [] => throw (unresolved reference "empty reference")
  | label :: keys =>
    match Table.get? cache label with
    | some outcome => keys.foldlM (r.member reference) outcome
    | none => throw (unresolved reference s!"no result is labelled '{label}'")

/-- One more assignment in a keyword tree. -/
def assignInto (r : Registry) (cache : Table String Outcome) (tree : Params) :
    Assignment → Action Params
  | .literal key value => return Step.assign tree key value
  | .reference target source => do
    match Params.writeAt? tree target (← r.lookup cache source).toJson with
    | some tree => return tree
    | none => throw (unresolved source "only a map can be merged into the keyword root")

/-- The keyword tree of a step, literals and references in the order given. -/
def keywordTree (r : Registry) (cache : Table String Outcome) (step : Step) : Action Params :=
  step.assignments.foldlM (r.assignInto cache) []

def cachedTarget (r : Registry) (cache : Table String Outcome) (reference : List String) :
    Action Target := do
  match ← r.lookup cache reference with
  | .entry e => return .one e
  | outcome =>
    match outcome.many? with
    | some entries => return .many entries
    | none => throw (unresolved reference "the cached value is not an entry")

/-- Takes the target of a step. Entries left pending are taken by a step that iterates from where
the last one stopped, and by no other. -/
def aim (r : Registry) (run : Run) (step : Step) : Action Run := do
  let run ← match step.restart with
    | .stay =>
      match step.iterate, run.pending with
      | true, some entries => pure { run with target := .many entries }
      | _, _ => pure run
    | .root => pure { run with target := .one run.root, iterating := false }
    | .cached reference =>
      pure { run with target := ← r.cachedTarget run.soFar.cache reference }
    | .entry path => pure { run with target := .one (← byPath path) }
  return { run with pending := none, iterating := run.iterating || step.iterate }

/-- Invokes a step on its target, or on each entry of it while iterating. -/
def perform (r : Registry) (run : Run) (step : Step) (named : Params) : Action Outcome :=
  let invokeOn := fun e => r.invoke e step.method step.positional named
  if run.iterating then return .list (← run.target.entries.mapM invokeOn)
  else
    match run.target with
    | .one e => invokeOn e
    | .many entries =>
      throw (.malformed <|
        s!"'{step.method}' needs a single target but the current target is a list of "
          ++ s!"{entries.length} entries; iterate with ',\x7b'")

end Registry

namespace Run

def advance (run : Run) (step : Step) (outcome : Outcome) : Run :=
  let cache := match step.label with
    | some label => Table.insert run.soFar.cache label outcome
    | none => run.soFar.cache
  let run := { run with
    position := run.position + 1
    soFar := { run.soFar with result := outcome, cache } }
  match outcome.one?, outcome.many? with
  | some e, _ => { run with target := .one e }
  | none, some entries =>
    if run.iterating then { run with target := .many entries }
    else { run with pending := some entries }
  | none, none => run

def passOver (run : Run) (step : Step) (error : Error) : Run :=
  { run with
    position := run.position + 1
    soFar := { run.soFar with
      result := .null
      failures := run.soFar.failures ++ [⟨run.position, step.method, error⟩] } }

end Run

namespace Registry

/-- Runs a step. An error of an operation is passed over if the run is to keep going. -/
def runStep (r : Registry) (keepGoing : Bool) (run : Run) (step : Step) : Action Run := do
  let run ← r.aim run step
  let named ← r.keywordTree run.soFar.cache step
  fun w =>
    match r.perform run step named w with
    | .ok outcome w => .ok (run.advance step outcome) w
    | .error e w =>
      if keepGoing && e.isRaised then .ok (run.passOver step e) w else .error e w

/-- Runs a pipeline from the working collection. An empty one asks for help. -/
def execute (r : Registry) (keepGoing : Bool) (steps : List Step) : Action Execution := do
  let root ← r.workingCollection
  let steps := if steps.isEmpty then [{ method := "help" }] else steps
  let run ← steps.foldlM (r.runStep keepGoing) { root, target := .one root }
  return run.soFar

end Registry
end Lineage
