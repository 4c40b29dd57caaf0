import Lineage.Proofs.Execution.Records
import Lineage.Proofs.Execution.References

/-!
The books of a run that completes. Its table of labels, its failures and its result are those of the
steps of its plan; and each step found the table as the steps before it tell it, so that what it looked
up were outcomes of these.
-/
namespace Lineage

open Action

/-- A step is attempted with a table of labelled outcomes: a restart and references look there. -/
def Registry.AttemptsWith (r : Registry) (cache : Table String Outcome) (run : Run) (step : Step)
    (w : World) (answer : Except Error Outcome) (w' : World) : Prop :=
  ∃ aimed w₁ named w₂, r.aim run step w = .ok aimed w₁ ∧
    (∀ reference, step.restart = .cached reference →
      r.cachedTarget cache reference w = .ok aimed.target w₁) ∧
    r.keywordTree cache step w₁ = .ok named w₂ ∧
    r.perform aimed step named w₂ = result answer w'

/-- What a step looks up: its restart, if that goes to a labelled outcome, and its references. -/
def Step.lookups (step : Step) : List (List String) :=
  (match step.restart with
    | .cached reference => [reference]
    | _ => []) ++ step.references.map Prod.snd

namespace Registry

/-- How a reference is followed behind some steps: its keys lead on from the outcome of the last step
that bears its label and succeeded. Without such a step it does not resolve. -/
structure Refers (r : Registry) (past : List Invoked) (label : String) (keys : List String)
    (look : Action Outcome) : Prop where
  kept : ∀ outcome, History.Last past label outcome →
    look = keys.foldlM (r.member (label :: keys)) outcome
  lost : (∀ outcome, ¬ History.Last past label outcome) →
    look = throw (unresolved (label :: keys) s!"no result is labelled '{label}'")

variable {r : Registry} {cache : Table String Outcome} {step : Step} {w w' : World}

/-- Only a reference with a label in the table resolves. -/
theorem lookup_bound {reference : List String} {outcome : Outcome}
    (found : r.lookup cache reference w = .ok outcome w') :
    ∃ label keys kept, reference = label :: keys ∧ Table.get? cache label = some kept := by
  cases reference with
  | nil => cases found
  | cons label keys =>
      rw [lookup] at found
      cases held : Table.get? cache label with
      | none =>
          rw [held] at found
          cases found
      | some kept => exact ⟨label, keys, kept, rfl, held⟩

/-- All that an attempted step looks up is in the table. -/
theorem AttemptsWith.bound {run : Run} {answer : Except Error Outcome}
    (h : r.AttemptsWith cache run step w answer w') {reference : List String}
    (mem : reference ∈ step.lookups) :
    ∃ label keys kept, reference = label :: keys ∧ Table.get? cache label = some kept := by
  obtain ⟨aimed, w₁, named, w₂, -, restarts, keywords, -⟩ := h
  rcases List.mem_append.mp mem with restart | mem
  · split at restart
    · rename_i cached
      cases List.mem_singleton.mp restart
      obtain ⟨outcome, _, found, -⟩ := bind_eq_ok_iff.mp (restarts _ cached)
      exact lookup_bound found
    · cases restart
  · obtain ⟨⟨target, source⟩, listed, rfl⟩ := List.mem_map.mp mem
    obtain ⟨outcomes, resolved, -⟩ := keywordTree_eq_ok_iff.mp keywords
    obtain ⟨outcome, _, _, found⟩ := ok_of_mem_mapM resolved listed
    exact lookup_bound found

end Registry

namespace History

variable {r : Registry} {root : Entry} {steps : List Step} {past : List Invoked} {x : Invoked}
  {cache : Table String Outcome} {w w' : World}

theorem attemptsWith_of_executes (mode : ModeAgrees root steps past)
    (h : Executes r root steps past w x w') :
    r.AttemptsWith (bindings past) (Run.after root past) x.step w x.result w' := by
  obtain ⟨w₁, named, w₂, aims, keywords, performed⟩ := h.performed mode
  exact ⟨Run.aimed root past x.step x.target, w₁, named, w₂, aim_of_aims aims,
    fun reference cached => cachedTarget_of_aims aims cached, keywords, performed⟩

theorem Caches.refers (h : Caches past cache) (r : Registry) (label : String) (keys : List String) :
    r.Refers past label keys (r.lookup cache (label :: keys)) where
  kept outcome last := by rw [Registry.lookup, (h.last label outcome).mpr last]
  lost lacks := by
    have unknown : Table.get? cache label = none :=
      Option.eq_none_iff_forall_ne_some.mpr fun outcome held =>
        lacks outcome ((h.last label outcome).mp held)
    rw [Registry.lookup, unknown]

end History

theorem Plan.orHelp_ne_nil (plan : List Step) : orHelp plan ≠ [] := by
  cases plan <;> simp [orHelp]

/-- What a completed run keeps of its steps. Its table holds, for each label, the outcome of the last
step that bears it and succeeded, in the order in which labels were first kept. Each step looked up its
references and its restart in such a table for the steps before it: a reference leads on from the
outcome of the last of these with its label that succeeded, and there was one for each that the step
looked up. Its failures are those of the steps that failed, in order, and every other step succeeded.
Its result is the outcome of the last step, or null if that is among the failures. -/
theorem run_bookkeeping {r : Registry} {keepGoing : Bool} {plan : List Step} {x : Execution}
    {w w' : World} (completes : r.execute keepGoing plan w = .ok x w') :
    ∃ past : List Invoked, past.map Invoked.step = Plan.orHelp plan ∧
      History.Caches past x.cache ∧
      (∀ i y, past[i]? = some y → ∃ run w₁ w₂, r.ComesTo keepGoing plan w i run w₁ ∧
        History.Caches (past.take i) run.soFar.cache ∧
        (∀ label keys,
          r.Refers (past.take i) label keys (r.lookup run.soFar.cache (label :: keys))) ∧
        (∀ reference ∈ y.step.lookups, ∃ label keys outcome, reference = label :: keys ∧
          History.Last (past.take i) label outcome) ∧
        r.AttemptsWith run.soFar.cache run y.step w₁ y.result w₂) ∧
      History.Records past x.failures ∧
      (∀ i y, past[i]? = some y →
        ((∃ f ∈ x.failures, f.index = i) ↔ ∀ outcome, y.result ≠ .ok outcome)) ∧
      ∃ last, past.getLast? = some last ∧
        (last.result = .ok x.result ∨
          x.result = .null ∧ ∃ f ∈ x.failures, f.index + 1 = past.length) := by
  obtain ⟨root, past, atRoot, history, length, rfl⟩ :=
    (execute_eq_ok_iff r keepGoing plan).mp completes
  have steps := History.map_step_eq history length
  have records : History.Records past (History.failures past) := History.records_failures past
  refine ⟨past, steps, History.caches_bindings past, ?_, records, ?_, ?_⟩
  · intro i y at_
    obtain ⟨w₁, w₂, before, executes⟩ := History.executes_at history at_
    have start := ModeAgrees.nil root (Plan.orHelp plan)
    have caches := History.caches_bindings (past.take i)
    have attempts :=
      History.attemptsWith_of_executes (History.mode_agrees start before) executes
    refine ⟨Run.after root (past.take i), w₁, w₂, ⟨root, atRoot, ?_⟩, caches, caches.refers r,
      fun reference mem => ?_, attempts⟩
    · rw [← steps, ← List.map_take]
      exact History.foldlM_runStep start before
    · obtain ⟨label, keys, outcome, rfl, held⟩ := attempts.bound mem
      exact ⟨label, keys, outcome, rfl, (caches.last label outcome).mp held⟩
  · intro i y at_
    exact records.failed_iff at_
  · have filled : past ≠ [] := by
      rintro rfl
      exact Plan.orHelp_ne_nil plan steps.symm
    obtain ⟨last, at_⟩ := Option.isSome_iff_exists.mp (List.getLast?_isSome.mpr filled)
    refine ⟨last, at_, ?_⟩
    rcases History.lastOutcome_cases at_ with succeeded | ⟨null, failed⟩
    · exact .inl succeeded
    · rw [List.getLast?_eq_getElem?] at at_
      obtain ⟨f, mem, index⟩ := (records.failed_iff at_).mpr failed
      have lt := records.lt mem
      exact .inr ⟨null, f, mem, by omega⟩

namespace Registry.Sample

/-- Binds a label, fails to bind it again, and binds it again from what it holds, on what another label
holds. -/
def rebinding : List Step :=
  [{ label := some "a", method := "get_name" },
    { label := some "a", method := "update", positional := [.int 3] },
    { label := some "b", method := "working_collection" },
    { label := some "a", method := "get_path", restart := .cached ["b"],
      assignments := [.reference ["file_name"] ["a"]] }]

theorem rebinding_stays (i : Nat) : ¬ IteratesAt rebinding i := by
  rintro ⟨j, s, -, at_, iterate, -⟩
  have each : ∀ s ∈ rebinding, s.iterate = false := by simp [rebinding]
  rw [each s (List.mem_of_getElem? at_)] at iterate
  cases iterate

theorem rebinding_done : ∃ x, oneRoot.execute true rebinding world = .ok x world ∧
    Table.keys x.cache = ["a", "b"] ∧ x.failures.map Failure.index = [1] := by
  obtain ⟨e, update, raised⟩ := update_invoked
  have path : oneRoot.invoke upper "get_path" [] [("file_name", .str "upper")] world =
      .ok (.data (.str "upper/upper")) world := by
    have binds : Builtin.getPath.shape.bind "get_path" [] [("file_name", .str "upper")] =
        .ok ⟨[], [("file_name", .str "upper")]⟩ := rfl
    have plays : oneRoot.Plays (Builtin.getPath.body
        ⟨upper, "get_path", ⟨Builtin.getPath.shape, ⟨[], [("file_name", .str "upper")]⟩⟩⟩) world
        (.ok (.data (.str "upper/upper"))) world := .done
    exact invoke_builtin rfl rfl binds plays
  let past : List Invoked :=
    [⟨rebinding[0], .one upper, false, .ok (.data (.str "upper"))⟩,
      ⟨rebinding[1], .one upper, false, .error e⟩,
      ⟨rebinding[2], .one upper, false, .ok (.entry upper)⟩,
      ⟨rebinding[3], .one upper, false, .ok (.data (.str "upper/upper"))⟩]
  have still (i : Nat) : false = true ↔ IteratesAt rebinding i :=
    iff_of_false Bool.false_ne_true (rebinding_stays i)
  have history : History oneRoot upper rebinding true [] world past world := by
    refine .step ⟨rfl, still 0, world, [], world, .left rfl nofun, rfl, .single name_invoked⟩ ?_ <|
      .step ⟨rfl, still 1, world, [], world, .left rfl nofun, rfl, .single update⟩ ?_ <|
      .step ⟨rfl, still 2, world, [], world, .left rfl nofun, rfl, .single root_invoked⟩ ?_ <|
      .step ⟨rfl, still 3, world, _, world, .cachedEntry rfl rfl, rfl, .single path⟩ ?_ .done
    · exact fun _ h => nomatch h
    · intro e' h
      cases h
      exact ⟨rfl, raised⟩
    · exact fun _ h => nomatch h
    · exact fun _ h => nomatch h
  exact ⟨_, (execute_eq_ok_iff oneRoot true rebinding).mpr ⟨upper, past, rfl, history, rfl, rfl⟩,
    rfl, rfl⟩

theorem rebinding_kept : ∃ x past, oneRoot.execute true rebinding world = .ok x world ∧
    past.map Invoked.step = rebinding ∧ Table.keys x.cache = ["a", "b"] ∧
    History.Caches past x.cache ∧ x.failures.map Failure.index = [1] ∧
    History.Records past x.failures ∧ ∃ outcome, History.Last (past.take 3) "a" outcome := by
  obtain ⟨x, done, labels, failures⟩ := rebinding_done
  obtain ⟨past, steps, caches, saw, records, -⟩ := run_bookkeeping done
  refine ⟨x, past, done, steps, labels, caches, failures, records, ?_⟩
  have last : (past.map Invoked.step)[3]? = some _ := congrArg (·[3]?) steps
  rw [List.getElem?_map] at last
  obtain ⟨y, at_, step⟩ := Option.map_eq_some_iff.mp last
  obtain ⟨run, w₁, w₂, -, -, -, bound, -⟩ := saw 3 y at_
  obtain ⟨label, keys, outcome, same, kept⟩ := bound ["a"] (by rw [step]; decide)
  cases same
  exact ⟨outcome, kept⟩

end Registry.Sample
end Lineage
