import Lineage.Execution
import Lineage.Proofs.Action

/-!
Executions told as histories: which step was invoked on what, and what came of it. A history knows
no moving target, no list held aside and no sticky flag; whether a step iterates is read off the
plan, and its target off the step before it. Nothing here runs the code of an execution.
-/
namespace Lineage

structure Invoked where
  step : Step
  target : Target
  iterating : Bool
  result : Except Error Outcome

namespace Invoked

/-- The target that a step leaves: the entry that it returned, the entries that it returned while
iterating, and otherwise the one that it ran on. -/
def leaves (x : Invoked) : Target :=
  match x.result with
  | .ok (.entry e) => .one e
  | .ok outcome =>
    match outcome.many?, x.iterating with
    | some entries, true => .many entries
    | _, _ => x.target
  | .error _ => x.target

def offers (x : Invoked) : Option (List Entry) :=
  match x.result, x.iterating with
  | .ok outcome, false => outcome.many?
  | _, _ => none

/-- Whether the next step comes after it: it succeeded, or its failure is passed over. -/
def Passes (keepGoing : Bool) (x : Invoked) : Prop :=
  ∀ e, x.result = .error e → keepGoing = true ∧ e.isRaised = true

def bind (cache : Table String Outcome) (x : Invoked) : Table String Outcome :=
  match x.step.label, x.result with
  | some label, .ok outcome => Table.insert cache label outcome
  | _, _ => cache

/-- What a step at a position adds to the failures. -/
def failure (position : Nat) (x : Invoked) : List Failure :=
  match x.result with
  | .ok _ => []
  | .error e => [⟨position, x.step.method, e⟩]

end Invoked

namespace History

/-- The target that the steps so far leave; at the start it is the root. -/
def target (root : Entry) (past : List Invoked) : Target :=
  (past.getLast?.map Invoked.leaves).getD (.one root)

def bindings (past : List Invoked) : Table String Outcome := past.foldl Invoked.bind []

def failures (past : List Invoked) : List Failure :=
  past.zipIdx.flatMap fun (x, position) => x.failure position

/-- The outcome of the last step, null if it failed. -/
def lastOutcome (past : List Invoked) : Outcome :=
  match past.getLast?.map Invoked.result with
  | some (.ok outcome) => outcome
  | _ => .null

def summary (past : List Invoked) : Execution := ⟨lastOutcome past, bindings past, failures past⟩

end History

/-- Whether a step of a plan iterates: it or one before it asks for iteration, and none after that
one goes back to the root. -/
def IteratesAt (steps : List Step) (i : Nat) : Prop :=
  ∃ j s, j ≤ i ∧ steps[j]? = some s ∧ s.iterate = true ∧
    ∀ k t, j < k → k ≤ i → steps[k]? = some t → t.restart ≠ .root

/-- The steps that are run for a plan: an empty one asks for help. -/
def Plan.orHelp (plan : List Step) : List Step :=
  if plan.isEmpty then [{ method := "help" }] else plan

def Step.needsSingleTarget (step : Step) (entries : List Entry) : Error :=
  .malformed <| s!"'{step.method}' needs a single target but the current target is a list of "
    ++ s!"{entries.length} entries; iterate with ',\x7b'"

section

variable (r : Registry)

/-- The target of a step, and the world once it is found. -/
inductive Aims (root : Entry) (past : List Invoked) (step : Step) (w : World) :
    Target → World → Prop
  | root (h : step.restart = .root) : Aims root past step w (.one root) w
  | entry {path e w'} (h : step.restart = .entry path) (found : Registry.byPath path w = .ok e w') :
      Aims root past step w (.one e) w'
  | cachedEntry {reference e w'} (h : step.restart = .cached reference)
      (found : r.lookup (History.bindings past) reference w = .ok (.entry e) w') :
      Aims root past step w (.one e) w'
  | cachedEntries {reference entries w'} (h : step.restart = .cached reference) (ne : entries ≠ [])
      (found : r.lookup (History.bindings past) reference w = .ok (.list (entries.map .entry)) w') :
      Aims root past step w (.many entries) w'
  | offered {entries} (h : step.restart = .stay) (iterate : step.iterate = true)
      (offer : past.getLast?.bind Invoked.offers = some entries) :
      Aims root past step w (.many entries) w
  | left (h : step.restart = .stay)
      (unoffered : step.iterate = true → past.getLast?.bind Invoked.offers = none) :
      Aims root past step w (History.target root past) w

/-- Invokes a step on entries in order, each in the world that the one before it left. -/
inductive InvokesEach (step : Step) (named : Params) :
    List Entry → World → List Outcome → World → Prop
  | nil {w} : InvokesEach step named [] w [] w
  | cons {e entries outcome outcomes w w₁ w₂}
      (head : r.invoke e step.method step.positional named w = .ok outcome w₁)
      (tail : InvokesEach step named entries w₁ outcomes w₂) :
      InvokesEach step named (e :: entries) w (outcome :: outcomes) w₂

/-- Performs a step: while iterating on every entry of its target up to the first that fails, else
on its single target. -/
inductive Performs (step : Step) (named : Params) (w : World) :
    Bool → Target → Except Error Outcome → World → Prop
  | single {e answer w'}
      (h : r.invoke e step.method step.positional named w = Action.result answer w') :
      Performs step named w false (.one e) answer w'
  | several {entries} :
      Performs step named w false (.many entries) (.error (step.needsSingleTarget entries)) w
  | each {target outcomes w'} (h : InvokesEach r step named target.entries w outcomes w') :
      Performs step named w true target (.ok (.list outcomes)) w'
  | eachFails {target done e rest outcomes error w₁ w'} (split : target.entries = done ++ e :: rest)
      (before : InvokesEach r step named done w outcomes w₁)
      (h : r.invoke e step.method step.positional named w₁ = .error error w') :
      Performs step named w true target (.error error) w'

variable (root : Entry) (steps : List Step)

/-- One step by the rule: it comes next in the plan, iterates as the plan says, and runs with its
keywords on the target that it has. -/
structure Executes (past : List Invoked) (w : World) (x : Invoked) (w' : World) : Prop where
  next : steps[past.length]? = some x.step
  mode : x.iterating = true ↔ IteratesAt steps past.length
  run : ∃ w₁ named w₂, Aims r root past x.step w x.target w₁ ∧
    r.keywordTree (History.bindings past) x.step w₁ = .ok named w₂ ∧
    Performs r x.step named w₂ x.iterating x.target x.result w'

/-- Steps executed one after the other, none of which ended the run. -/
inductive History (keepGoing : Bool) : List Invoked → World → List Invoked → World → Prop
  | done {past w} : History keepGoing past w [] w
  | step {past w x w₁ more w₂} (head : Executes r root steps past w x w₁)
      (passes : x.Passes keepGoing) (tail : History keepGoing (past ++ [x]) w₁ more w₂) :
      History keepGoing past w (x :: more) w₂

/-- What ends a run after some steps: the next one finds no target, lacks a keyword, or fails and is
not passed over. -/
inductive Ends (keepGoing : Bool) (past : List Invoked) (w : World) : Error → World → Prop
  | noResult {step reference error w'} (next : steps[past.length]? = some step)
      (h : step.restart = .cached reference)
      (lost : r.lookup (History.bindings past) reference w = .error error w') :
      Ends keepGoing past w error w'
  | noEntry {step reference outcome w'} (next : steps[past.length]? = some step)
      (h : step.restart = .cached reference)
      (found : r.lookup (History.bindings past) reference w = .ok outcome w')
      (one : ∀ e, outcome ≠ .entry e)
      (many : ∀ entries, entries ≠ [] → outcome ≠ .list (entries.map .entry)) :
      Ends keepGoing past w (unresolved reference "the cached value is not an entry") w'
  | noKeyword {step target w₁ error w'} (next : steps[past.length]? = some step)
      (aims : Aims r root past step w target w₁)
      (lost : r.keywordTree (History.bindings past) step w₁ = .error error w') :
      Ends keepGoing past w error w'
  | fails {x error w'} (last : Executes r root steps past w x w') (failed : x.result = .error error)
      (stops : ¬ x.Passes keepGoing) : Ends keepGoing past w error w'

variable {r root steps}

theorem Ends.next {keepGoing : Bool} {past : List Invoked} {w w' : World} {error : Error}
    (h : Ends r root steps keepGoing past w error w') : ∃ step, steps[past.length]? = some step := by
  cases h with
  | noResult next | noEntry next | noKeyword next => exact ⟨_, next⟩
  | fails last => exact ⟨_, last.next⟩

end
end Lineage
