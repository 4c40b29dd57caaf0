import Lineage.Proofs.Execution.Records
import Lineage.Catalog.Builtin
import Lineage.Proofs.Registry.Arguments
import Lineage.Proofs.Table

/-!
Returns to the root. A step that goes back to the root reads nothing of the target, the list held
aside and the mode that it finds; so a plan from such a step on runs as it does on its own, behind
what the steps before it came to. What it may still read of them is their labelled results.
-/
namespace Lineage

/-- The label that a reference looks up first. -/
def Assignment.mentions : Assignment → List String
  | .literal .. => []
  | .reference _ source => source.take 1

def Restart.mentions : Restart → List String
  | .stay | .root | .entry _ => []
  | .cached reference => reference.take 1

/-- The labels under which a step looks up earlier results. -/
def Step.mentions (step : Step) : List String :=
  step.restart.mentions ++ step.assignments.flatMap Assignment.mentions

/-- What `n` steps that came to `x` and then steps that came to `y` come to together. -/
def Execution.followedBy (x : Execution) (n : Nat) (y : Execution) : Execution where
  result := y.result
  cache := Table.overlay x.cache y.cache
  failures := x.failures ++ y.failures.map fun f => { f with index := n + f.index }

/-- A run as it is behind `n` steps that came to `x`. -/
def Run.behind (x : Execution) (n : Nat) (run : Run) : Run :=
  { run with position := n + run.position, soFar := x.followedBy n run.soFar }

theorem Action.map_apply {α β : Type} (f : α → β) (act : Action α) (w : World) :
    (f <$> act) w = match act w with
      | .ok a w₁ => .ok (f a) w₁
      | .error e w₁ => .error e w₁ := by
  change EStateM.map f act w = _
  rw [EStateM.map]
  cases act w <;> rfl

section

variable {r : Registry} {x : Execution} {n : Nat} {run : Run} {step : Step}

/-! ### What a step reads of earlier results -/

theorem lookup_followedBy {cache : Table String Outcome} (distinct : Table.Distinct cache)
    {reference : List String} (apart : ∀ label ∈ reference.take 1, label ∉ Table.keys x.cache) :
    r.lookup (Table.overlay x.cache cache) reference = r.lookup cache reference := by
  cases reference with
  | nil => rfl
  | cons label keys =>
      have unknown : Table.get? x.cache label = none :=
        (Table.get?_eq_none_iff _ _).mpr (apart label (by simp))
      simp only [Registry.lookup]
      rw [Table.get?_overlay _ distinct, unknown, Option.or_none]

theorem assignInto_followedBy {cache : Table String Outcome} (distinct : Table.Distinct cache)
    (tree : Params) {a : Assignment} (apart : ∀ label ∈ a.mentions, label ∉ Table.keys x.cache) :
    r.assignInto (Table.overlay x.cache cache) tree a = r.assignInto cache tree a := by
  cases a with
  | literal key value => rfl
  | reference target source =>
      simp only [Registry.assignInto]
      rw [lookup_followedBy distinct apart]

theorem keywordTree_followedBy {cache : Table String Outcome} (distinct : Table.Distinct cache)
    (apart : ∀ label ∈ step.mentions, label ∉ Table.keys x.cache) :
    r.keywordTree (Table.overlay x.cache cache) step = r.keywordTree cache step := by
  have each : ∀ a ∈ step.assignments, ∀ label ∈ a.mentions, label ∉ Table.keys x.cache := by
    intro a ha label hl
    exact apart label (List.mem_append_right _ (List.mem_flatMap.mpr ⟨a, ha, hl⟩))
  rw [Registry.keywordTree, Registry.keywordTree]
  generalize ([] : Params) = tree
  generalize step.assignments = assignments at each
  induction assignments generalizing tree with
  | nil => rfl
  | cons a rest ih =>
      obtain ⟨here, later⟩ := List.forall_mem_cons.mp each
      rw [List.foldlM_cons, List.foldlM_cons, assignInto_followedBy distinct tree here]
      exact congrArg _ (funext fun tree => ih tree later)

/-! ### One step behind others -/

theorem cachedTarget_followedBy {cache : Table String Outcome} (distinct : Table.Distinct cache)
    {reference : List String} (apart : ∀ label ∈ reference.take 1, label ∉ Table.keys x.cache) :
    r.cachedTarget (Table.overlay x.cache cache) reference = r.cachedTarget cache reference := by
  rw [Registry.cachedTarget, Registry.cachedTarget, lookup_followedBy distinct apart]

theorem aim_behind (distinct : Table.Distinct run.soFar.cache)
    (apart : ∀ label ∈ step.mentions, label ∉ Table.keys x.cache) (w : World) :
    r.aim (run.behind x n) step w = (Run.behind x n <$> r.aim run step) w := by
  rw [Action.map_apply]
  cases hr : step.restart with
  | stay =>
      simp only [Registry.aim, hr]
      cases step.iterate with
      | false => rfl
      | true => cases hp : run.pending <;> simp only [Run.behind, hp] <;> rfl
  | root =>
      simp only [Registry.aim, hr]
      rfl
  | cached reference =>
      have apart : ∀ label ∈ reference.take 1, label ∉ Table.keys x.cache := by
        intro label hl
        exact apart label (List.mem_append_left _ (by rwa [hr]))
      have same : r.cachedTarget (run.behind x n).soFar.cache reference =
          r.cachedTarget run.soFar.cache reference := cachedTarget_followedBy distinct apart
      simp only [Registry.aim, hr, same]
      rw [Action.bind_apply, Action.bind_apply]
      cases r.cachedTarget run.soFar.cache reference w <;> rfl
  | entry path =>
      simp only [Registry.aim, hr]
      rw [Action.bind_apply, Action.bind_apply]
      cases Registry.byPath path w <;> rfl

theorem advance_behind (distinct : Table.Distinct run.soFar.cache) (outcome : Outcome) :
    (run.behind x n).advance step outcome = (run.advance step outcome).behind x n := by
  cases hl : step.label with
  | none =>
      simp only [Run.advance, hl]
      cases outcome.one? <;> cases outcome.many? <;> cases hi : run.iterating <;>
        simp [Run.behind, Execution.followedBy, hi, Nat.add_assoc]
  | some label =>
      simp only [Run.advance, hl]
      cases outcome.one? <;> cases outcome.many? <;> cases hi : run.iterating <;>
        simp [Run.behind, Execution.followedBy, hi, Nat.add_assoc,
          Table.overlay_insert _ distinct]

theorem passOver_behind (error : Error) :
    (run.behind x n).passOver step error = (run.passOver step error).behind x n := by
  simp [Run.passOver, Run.behind, Execution.followedBy, Nat.add_assoc]

end

/-! ### The state in front of a return to the root -/

theorem History.distinct_bindings (past : List Invoked) : Table.Distinct (bindings past) := by
  induction past using List.reverseRecOn with
  | nil => exact Table.distinct_nil
  | append_singleton past x ih =>
      rw [bindings, List.foldl_append, List.foldl_cons, List.foldl_nil, Invoked.bind]
      split
      · exact ih.insert _ _
      · exact ih

theorem History.label_of_bindings {past : List Invoked} {label : String}
    (h : label ∈ Table.keys (bindings past)) : ∃ x ∈ past, x.step.label = some label := by
  rw [(caches_bindings past).labels, List.mem_eraseDups, List.mem_filterMap] at h
  obtain ⟨x, mem, kept⟩ := h
  exact ⟨x, mem, (Invoked.label?_eq_some_iff.mp kept).1⟩

theorem History.step_mem {r : Registry} {root : Entry} {steps : List Step} {keepGoing : Bool}
    {past more : List Invoked} {w w' : World} (h : History r root steps keepGoing past w more w') :
    ∀ x ∈ more, x.step ∈ steps := by
  induction h with
  | done => exact fun x hx => nomatch hx
  | step head _ _ ih => exact List.forall_mem_cons.mpr ⟨List.mem_of_getElem? head.next, ih⟩

section

variable {r : Registry} {root : Entry} {keepGoing : Bool} {past : List Invoked} {x : Execution}
  {n : Nat} {step : Step}

theorem runStep_behind (apart : ∀ label ∈ step.mentions, label ∉ Table.keys x.cache) (w : World) :
    r.runStep keepGoing ((Run.after root past).behind x n) step w =
      (Run.behind x n <$> r.runStep keepGoing (Run.after root past) step) w := by
  have distinct : Table.Distinct (Run.after root past).soFar.cache := History.distinct_bindings past
  rw [Action.map_apply, runStep_apply, runStep_apply, aim_behind distinct apart, Action.map_apply]
  cases ha : r.aim (Run.after root past) step w with
  | error error w₁ => rfl
  | ok run w₁ =>
      obtain ⟨target, -, rfl⟩ := aims_of_aim ha
      have keywords : r.keywordTree ((Run.aimed root past step target).behind x n).soFar.cache step =
          r.keywordTree (Run.aimed root past step target).soFar.cache step :=
        keywordTree_followedBy distinct apart
      have performs (named : Params) :
          r.perform ((Run.aimed root past step target).behind x n) step named =
            r.perform (Run.aimed root past step target) step named := rfl
      simp only [keywords, performs]
      cases r.keywordTree (Run.aimed root past step target).soFar.cache step w₁ with
      | error error w₂ => rfl
      | ok named w₂ =>
          dsimp only
          cases r.perform (Run.aimed root past step target) step named w₂ with
          | ok outcome w₃ =>
              have aimed : Table.Distinct (Run.aimed root past step target).soFar.cache := distinct
              dsimp only
              rw [advance_behind aimed]
          | error error w₃ =>
              dsimp only
              rw [passOver_behind]
              split <;> rfl

/-- A step that goes back to the root finds what the first step of a run finds. -/
theorem runStep_of_root (back : step.restart = .root) (w : World) :
    r.runStep keepGoing (Run.after root past) step w =
      r.runStep keepGoing ((Run.after root []).behind (History.summary past) past.length) step
        w := by
  let here := Run.aimed root past step (.one root)
  let fresh := (Run.aimed root [] step (.one root)).behind (History.summary past) past.length
  have aim_here : r.aim (Run.after root past) step w = .ok here w := aim_root back
  have aim_fresh : r.aim ((Run.after root []).behind (History.summary past) past.length) step w =
      .ok fresh w := by
    simp only [Registry.aim, back]
    simp [fresh, Run.behind, Run.aimed, Run.nextMode, back]
    rfl
  -- Only the result of the step before is different, and nothing reads it.
  have same : here = { fresh with soFar := { fresh.soFar with result := here.soFar.result } } := by
    simp [here, fresh, Run.behind, Run.aimed, Run.nextMode, Run.after, back, Execution.followedBy,
      History.summary, History.bindings, History.failures, Table.overlay]
  have advance (outcome : Outcome) : here.advance step outcome = fresh.advance step outcome := by
    rw [same]
    rfl
  have passOver (error : Error) : here.passOver step error = fresh.passOver step error := by
    rw [same]
    rfl
  have cache : here.soFar.cache = fresh.soFar.cache := by rw [same]
  have performs (named : Params) : r.perform here step named = r.perform fresh step named := by
    rw [same]
    rfl
  rw [runStep_apply, runStep_apply, aim_here, aim_fresh]
  simp only [cache, performs, advance, passOver]

theorem foldlM_behind {steps rest : List Step} (mode : ModeAgrees root steps past)
    (left : steps.drop past.length = rest)
    (apart : ∀ step ∈ rest, ∀ label ∈ step.mentions, label ∉ Table.keys x.cache) (w : World) :
    rest.foldlM (r.runStep keepGoing) ((Run.after root past).behind x n) w =
      (Run.behind x n <$> rest.foldlM (r.runStep keepGoing) (Run.after root past)) w := by
  induction rest generalizing past w with
  | nil => rfl
  | cons step rest ih =>
      obtain ⟨here, later⟩ := List.forall_mem_cons.mp apart
      rw [Action.map_apply, List.foldlM_cons, List.foldlM_cons, Action.bind_apply,
        Action.bind_apply, runStep_behind here, Action.map_apply]
      cases hs : r.runStep keepGoing (Run.after root past) step w with
      | error error w₁ => rfl
      | ok run w₁ =>
          obtain ⟨y, executes, -, rfl⟩ := (runStep_eq_ok_iff mode (next_of_drop left)).mp hs
          exact (ih executes.mode_agrees (drop_of_drop left y) later w₁).trans
            (Action.map_apply _ _ _)

end

theorem workingCollection_any {r : Registry} {w : World} {root : Entry}
    (h : r.workingCollection w = .ok root w) (w' : World) :
    r.workingCollection w' = .ok root w' := by
  cases hr : r.roots with
  | nil =>
      simp only [Registry.workingCollection, hr] at h
      cases h
  | cons first rest =>
      simp only [Registry.workingCollection, hr] at h ⊢
      cases h
      rfl

theorem Plan.orHelp_of_ne {plan : List Step} (h : plan ≠ []) : orHelp plan = plan := by
  rw [orHelp, if_neg (by simpa using h)]

/-! ### The main statement -/

/-- A return to the root isolates what follows. If a plan runs to its end, and another starts at the
root and looks up none of its labels, then both in a row do what the other does in the world that
the first one left: the same error in the same world, or the same result in the same world, with the
labelled results laid upon those of the first plan and the failures behind its failures. -/
theorem root_restart_isolates (r : Registry) (keepGoing : Bool) {p q : List Step} {first : Step}
    (some_p : p ≠ []) (starts : q.head? = some first) (back : first.restart = .root)
    (apart : ∀ step ∈ q, ∀ label ∈ step.mentions, ∀ earlier ∈ p, earlier.label ≠ some label)
    {w w₁ : World} {x : Execution} (done : r.execute keepGoing p w = .ok x w₁) :
    r.execute keepGoing (p ++ q) w =
      match r.execute keepGoing q w₁ with
      | .ok y w₂ => .ok (x.followedBy p.length y) w₂
      | .error error w₂ => .error error w₂ := by
  obtain ⟨root, past, hroot, history, length, rfl⟩ := (execute_eq_ok_iff r keepGoing p).mp done
  rw [Plan.orHelp_of_ne some_p] at history length
  obtain ⟨rest, rfl⟩ : ∃ rest, q = first :: rest := List.head?_eq_some_iff.mp starts
  have unknown : ∀ step ∈ first :: rest, ∀ label ∈ step.mentions,
      label ∉ Table.keys (History.summary past).cache := by
    intro step hs label hl known
    obtain ⟨y, hy, bound⟩ := History.label_of_bindings known
    exact apart step hs label hl y.step (history.step_mem y hy) bound
  have front : p.foldlM (r.runStep keepGoing) (Run.after root []) w =
      .ok (Run.after root past) w₁ :=
    (foldlM_runStep_eq_ok_iff (.nil root p) rfl).mpr ⟨past, history, length, rfl⟩
  have rear : (first :: rest).foldlM (r.runStep keepGoing) (Run.after root past) w₁ =
      (Run.behind (History.summary past) past.length <$>
        (first :: rest).foldlM (r.runStep keepGoing) (Run.after root [])) w₁ := by
    have behind : (first :: rest).foldlM (r.runStep keepGoing)
        ((Run.after root []).behind (History.summary past) past.length) w₁ =
          (Run.behind (History.summary past) past.length <$>
            (first :: rest).foldlM (r.runStep keepGoing) (Run.after root [])) w₁ :=
      foldlM_behind (.nil root (first :: rest)) rfl unknown w₁
    rw [← behind, List.foldlM_cons, List.foldlM_cons, Action.bind_apply, Action.bind_apply,
      runStep_of_root back]
  rw [execute_of_root keepGoing _ hroot, execute_of_root keepGoing _ (workingCollection_any hroot w₁),
    Plan.orHelp_of_ne (by simp), Plan.orHelp_of_ne (by simp), List.foldlM_append,
    Action.bind_apply, Action.bind_of_ok front, rear, Action.map_apply, Action.bind_apply, ← length]
  cases (first :: rest).foldlM (r.runStep keepGoing) (Run.after root []) w₁ <;> rfl

namespace Registry.Sample

/-- Leaves a run that iterates, with a labelled result and a failure. -/
def leaving : List Step :=
  [{ label := some "name", method := "get_name", iterate := true },
    { method := "update", positional := [.int 3] }]

/-- Starts at the root and goes on from the entry that its own first step returned. -/
def returning : List Step :=
  [{ label := some "start", method := "working_collection", restart := .root },
    { method := "get_name", restart := .cached ["start"] }]

def oneRoot : Registry := { registry with roots := [upper], builtins := Catalog.builtins }

/-- The root offers no operation under the name of a built-in. -/
theorem invoke_builtin {method layer : String} {positional : List Json} {named : Params}
    {op : Operation} {binding : Binding} {given : Except Error Outcome} {w : World}
    (own : (upperCells.operations.get!.bind fun ns => ns.get? method) = none)
    (found : oneRoot.builtin? method = some (.builtin layer op))
    (binds : op.shape.bind op.name positional (withoutReserved named) = .ok binding)
    (plays : oneRoot.Plays (op.body ⟨upper, method, ⟨op.shape, binding⟩⟩) world given w) :
    oneRoot.invoke upper method positional named world =
      Action.result (given.mapError (Error.within method "upper" (withoutReserved named))) w := by
  have dispatched : oneRoot.dispatch upper method world = .ok (.builtin layer op) world :=
    dispatch_of_builtin (reach_of_judges (.missing rfl own rfl)) found
  have received : oneRoot.received upper method positional named world =
      .ok ⟨op, ⟨op.shape, binding⟩, withoutReserved named⟩ world := by
    rw [received, Action.bind_of_ok dispatched]
    dsimp only
    rw [bound, binds]
    rfl
  exact (Returns.ran received plays).invoke

theorem name_invoked : oneRoot.invoke upper "get_name" [] [] world =
    .ok (.data (.str "upper")) world := by
  have plays : oneRoot.Plays (Builtin.getName.body ⟨upper, "get_name", ⟨{}, ⟨[], []⟩⟩⟩) world
      (.ok (.data (.str "upper"))) world := .done
  exact invoke_builtin rfl rfl rfl plays

theorem root_invoked : oneRoot.invoke upper "working_collection" [] [] world =
    .ok (.entry upper) world := by
  have root : oneRoot.answer .workingCollection world = Action.result (.ok upper) world := rfl
  have plays : oneRoot.Plays (Builtin.workingCollection.body
      ⟨upper, "working_collection", ⟨{}, ⟨[], []⟩⟩⟩) world (.ok (.entry upper)) world :=
    .ask root .done
  exact invoke_builtin rfl rfl rfl plays

theorem update_invoked : ∃ err, oneRoot.invoke upper "update" [.int 3] [] world =
    .error err world ∧ err.isRaised = true := by
  have plays : oneRoot.Plays (Builtin.update.body
      ⟨upper, "update", ⟨Builtin.update.shape, ⟨[.int 3], []⟩⟩⟩) world
      (.error (.failed "'data' must be a map")) world := .fail
  exact ⟨_, invoke_builtin rfl rfl rfl plays, rfl⟩

theorem leaving_done : ∃ x, oneRoot.execute true leaving world = .ok x world ∧
    x.failures.map Failure.index = [1] := by
  obtain ⟨e, update, raised⟩ := update_invoked
  let past : List Invoked :=
    [⟨leaving[0], .one upper, true, .ok (.list [.data (.str "upper")])⟩,
      ⟨leaving[1], .one upper, true, .error e⟩]
  have iterates : IteratesAt leaving 0 := (iteratesAt_zero rfl).mpr rfl
  have history : History oneRoot upper leaving true [] world past world := by
    refine .step ⟨rfl, ?_, world, [], world, .left rfl fun _ => rfl, rfl, ?_⟩ ?_
      (.step ⟨rfl, ?_, world, [], world, .left rfl fun _ => rfl, rfl, ?_⟩ ?_ .done)
    · exact iff_of_true rfl iterates
    · exact .each (.cons name_invoked .nil)
    · exact fun _ h => nomatch h
    · exact iff_of_true rfl ((iteratesAt_succ rfl).mpr (.inr ⟨nofun, iterates⟩))
    · exact .eachFails rfl .nil update
    · intro e' h
      cases h
      exact ⟨rfl, raised⟩
  exact ⟨_, (execute_eq_ok_iff oneRoot true leaving).mpr ⟨upper, past, rfl, history, rfl, rfl⟩, rfl⟩

theorem returning_done : ∃ y, oneRoot.execute true returning world = .ok y world := by
  let past : List Invoked :=
    [⟨returning[0], .one upper, false, .ok (.entry upper)⟩,
      ⟨returning[1], .one upper, false, .ok (.data (.str "upper"))⟩]
  have stays : ¬ IteratesAt returning 0 := fun h => nomatch (iteratesAt_zero rfl).mp h
  have history : History oneRoot upper returning true [] world past world := by
    refine .step ⟨rfl, ?_, world, [], world, .root rfl, rfl, .single root_invoked⟩ (fun _ h => nomatch h)
      (.step ⟨rfl, ?_, world, [], world, .cachedEntry rfl rfl, rfl, .single name_invoked⟩
        (fun _ h => nomatch h) .done)
    · exact iff_of_false nofun stays
    · refine iff_of_false nofun fun h => ?_
      rcases (iteratesAt_succ rfl).mp h with h | h
      · cases h
      · exact stays h.2
  exact ⟨_, (execute_eq_ok_iff oneRoot true returning).mpr ⟨upper, past, rfl, history, rfl, rfl⟩⟩

theorem returns_after_failure : ∃ x w₁ y w₂, oneRoot.execute true leaving world = .ok x w₁ ∧
    x.failures.map Failure.index = [1] ∧ oneRoot.execute true returning w₁ = .ok y w₂ ∧
    oneRoot.execute true (leaving ++ returning) world = .ok (x.followedBy 2 y) w₂ := by
  obtain ⟨x, done, failures⟩ := leaving_done
  have both := root_restart_isolates oneRoot true (List.cons_ne_nil _ _) rfl rfl
    (q := returning) (by decide) done
  obtain ⟨y, later⟩ := returning_done
  rw [later] at both
  exact ⟨x, world, y, world, done, failures, later, both⟩

end Registry.Sample

end Lineage
