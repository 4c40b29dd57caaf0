import Lineage.CommandLine.Run
import Lineage.Proofs.Execution.Refinement
import Lineage.Proofs.Registry.Failures

/-!
Strict runs and runs that keep going. Up to the first failure of an operation they are one run: the
same steps in the same worlds. An error that is no such failure ends both alike, and one that is
becomes the first failure recorded by the run that keeps going.
-/
namespace Lineage

section

variable {r : Registry} {root : Entry} {steps : List Step} {keepGoing : Bool} {past : List Invoked}
  {w w' w₁ : World} {error : Error}

theorem Invoked.Passes.succeeded {x : Invoked} (h : x.Passes false) :
    ∃ outcome, x.result = .ok outcome := by
  cases hx : x.result with
  | ok outcome => exact ⟨outcome, rfl⟩
  | error e => cases (h e hx).1

theorem History.failures_of_successes (h : ∀ x ∈ past, ∃ outcome, x.result = .ok outcome) :
    History.failures past = [] := by
  rw [History.failures, List.flatMap_eq_nil_iff]
  rintro ⟨x, position⟩ hx
  obtain ⟨outcome, ho⟩ := h x (List.fst_mem_of_mem_zipIdx hx)
  simp [Invoked.failure, ho]

theorem History.failures_append (past more : List Invoked) :
    ∃ later, History.failures (past ++ more) = History.failures past ++ later := by
  rw [History.failures, List.zipIdx_append, List.flatMap_append]
  exact ⟨_, rfl⟩

theorem History.append {more more' : List Invoked} {w₂ : World}
    (h : History r root steps keepGoing past w more w₁)
    (h' : History r root steps keepGoing (past ++ more) w₁ more' w₂) :
    History r root steps keepGoing past w (more ++ more') w₂ := by
  induction h with
  | done => rwa [List.append_nil] at h'
  | step head passes _ ih =>
      refine .step head passes (ih ?_)
      rwa [List.append_assoc, List.singleton_append]

/-- Every step that a strict run executes succeeds, so it would be executed as well by a run that
keeps going. -/
theorem History.strict {more : List Invoked} (h : History r root steps false past w more w₁) :
    History r root steps true past w more w₁ ∧ ∀ x ∈ more, ∃ outcome, x.result = .ok outcome := by
  induction h with
  | done => exact ⟨.done, fun x hx => nomatch hx⟩
  | step head passes _ ih =>
      refine ⟨.step head (fun e he => absurd (passes e he).1 (by decide)) ih.1, ?_⟩
      exact List.forall_mem_cons.mpr ⟨passes.succeeded, ih.2⟩

/-- A failure of an operation ends a run only in its own step, and only a strict run. -/
theorem Ends.of_raised (h : Ends r root steps keepGoing past w error w')
    (raised : error.isRaised = true) :
    keepGoing = false ∧ ∃ x, Executes r root steps past w x w' ∧ x.result = .error error := by
  cases h with
  | noResult next h lost =>
      rw [Registry.lookup_unraised r _ _ _ _ _ lost] at raised
      cases raised
  | noEntry next h found one many => cases raised
  | noKeyword next aims lost =>
      rw [Registry.keywordTree_unraised r _ _ _ _ _ lost] at raised
      cases raised
  | fails last failed stops =>
      refine ⟨?_, _, last, failed⟩
      cases keepGoing with
      | false => rfl
      | true =>
          refine absurd (fun e he => ?_) stops
          cases failed.symm.trans he
          exact ⟨rfl, raised⟩

theorem Ends.lenient (h : Ends r root steps false past w error w') (plain : error.isRaised = false) :
    Ends r root steps true past w error w' := by
  cases h with
  | noResult next h lost => exact .noResult next h lost
  | noEntry next h found one many => exact .noEntry next h found one many
  | noKeyword next aims lost => exact .noKeyword next aims lost
  | fails last failed stops =>
      refine .fails last failed fun passes => ?_
      rw [(passes error failed).2] at plain
      cases plain

end

namespace Registry

/-- A run executes some steps, passing over failures, and the next one ends it. -/
def FailsAt (r : Registry) (keepGoing : Bool) (plan : List Step) (w : World) (position : Nat)
    (recorded : List Failure) (error : Error) (w' : World) : Prop :=
  ∃ root past w₁, r.workingCollection w = .ok root w ∧
    History r root (Plan.orHelp plan) keepGoing [] w past w₁ ∧
    past.length = position ∧ recorded = History.failures past ∧
    Ends r root (Plan.orHelp plan) keepGoing past w₁ error w'

variable {r : Registry} {keepGoing : Bool} {plan : List Step} {w w' : World} {error : Error}

theorem workingCollection_error (h : r.workingCollection w = .error error w') :
    error.isRaised = false := by
  cases hr : r.roots with
  | nil =>
      simp only [workingCollection, hr] at h
      cases h
      rfl
  | cons root rest =>
      simp only [workingCollection, hr] at h
      cases h

theorem execute_eq_error (r : Registry) (keepGoing : Bool) (plan : List Step) :
    r.execute keepGoing plan w = .error error w' ↔
      r.workingCollection w = .error error w' ∨
        ∃ position recorded, r.FailsAt keepGoing plan w position recorded error w' := by
  refine (execute_eq_error_iff r keepGoing plan).trans (or_congr_right ?_)
  constructor
  · rintro ⟨root, past, w₁, hroot, history, ends⟩
    exact ⟨_, _, root, past, w₁, hroot, history, rfl, rfl, ends⟩
  · rintro ⟨_, _, root, past, w₁, hroot, history, -, -, ends⟩
    exact ⟨root, past, w₁, hroot, history, ends⟩

theorem FailsAt.execute {position : Nat} {recorded : List Failure}
    (h : r.FailsAt keepGoing plan w position recorded error w') :
    r.execute keepGoing plan w = .error error w' :=
  (execute_eq_error r keepGoing plan).mpr (.inr ⟨position, recorded, h⟩)

theorem execute_of_success {x : Execution} (h : r.execute false plan w = .ok x w') :
    x.failures = [] ∧ r.execute true plan w = .ok x w' := by
  obtain ⟨root, past, hroot, history, length, rfl⟩ := (execute_eq_ok_iff r false plan).mp h
  obtain ⟨lenient, successes⟩ := history.strict
  exact ⟨History.failures_of_successes successes,
    (execute_eq_ok_iff r true plan).mpr ⟨root, past, hroot, lenient, length, rfl⟩⟩

theorem FailsAt.lenient {position : Nat} {recorded : List Failure}
    (h : r.FailsAt false plan w position recorded error w') (plain : error.isRaised = false) :
    r.FailsAt true plan w position [] error w' := by
  obtain ⟨root, past, w₁, hroot, history, length, -, ends⟩ := h
  obtain ⟨history, successes⟩ := history.strict
  exact ⟨root, past, w₁, hroot, history, length,
    (History.failures_of_successes successes).symm, ends.lenient plain⟩

theorem execute_lenient_error (h : r.execute true plan w = .error error w') :
    error.isRaised = false := by
  rcases (execute_eq_error r true plan).mp h with none | ⟨_, _, _, _, _, _, _, _, _, ends⟩
  · exact workingCollection_error none
  · cases raised : error.isRaised with
    | false => rfl
    | true => cases (ends.of_raised raised).1

/-- The step at which a strict run fails is the first that a run that keeps going records, unless
that run ends in a later one. -/
theorem FailsAt.recorded {position : Nat} {recorded : List Failure}
    (h : r.FailsAt false plan w position recorded error w') (raised : error.isRaised = true) :
    ∃ step, (Plan.orHelp plan)[position]? = some step ∧
      ((∃ x w'', r.execute true plan w = .ok x w'' ∧
        x.failures.head? = some ⟨position, step.method, error⟩) ∨
      ∃ error' w'' later recorded', r.FailsAt true plan w later recorded' error' w'' ∧
        position < later) := by
  obtain ⟨root, past, w₁, hroot, history, rfl, -, ends⟩ := h
  obtain ⟨-, x, executes, failed⟩ := ends.of_raised raised
  obtain ⟨history, successes⟩ := history.strict
  have passes : x.Passes true := by
    intro e he
    cases failed.symm.trans he
    exact ⟨rfl, raised⟩
  have upTo : History r root (Plan.orHelp plan) true [] w (past ++ [x]) w' :=
    history.append (.step executes passes .done)
  refine ⟨x.step, executes.next, ?_⟩
  -- From here on the run that keeps going is on its own.
  generalize hrest : (Plan.orHelp plan).drop (past ++ [x]).length = rest
  cases run : rest.foldlM (r.runStep true) (Run.after root (past ++ [x])) w' with
  | ok last w'' =>
      obtain ⟨more, tail, length, -⟩ := (foldlM_runStep_eq_ok_iff executes.mode_agrees hrest).mp run
      obtain ⟨later, hlater⟩ := History.failures_append (past ++ [x]) more
      have all : (past ++ [x] ++ more).length = (Plan.orHelp plan).length := by
        have lt := (List.getElem?_eq_some_iff.mp executes.next).1
        have := congrArg List.length hrest
        simp only [List.length_drop, List.length_append, List.length_singleton] at this ⊢
        omega
      refine .inl ⟨_, w'', (execute_eq_ok_iff r true plan).mpr
        ⟨root, _, hroot, upTo.append tail, all, rfl⟩, ?_⟩
      show (History.failures (past ++ [x] ++ more)).head? = _
      rw [hlater, Run.failures_snoc, History.failures_of_successes successes]
      simp [Invoked.failure, failed]
  | error error' w'' =>
      obtain ⟨more, w₂, tail, last⟩ :=
        (foldlM_runStep_eq_error_iff executes.mode_agrees hrest).mp run
      exact .inr ⟨error', w'', _, _, ⟨root, _, w₂, hroot, upTo.append tail, rfl, rfl, last⟩,
        by simp⟩

end Registry

/-! ### The command line -/

namespace CommandLine

theorem exitCode_ne_zero (e : Error) : e.exitCode ≠ 0 := by
  cases e <;> simp [Error.exitCode]

theorem report_code_eq_zero {x : Execution} (h : (report x).code = 0) : x.failures = [] := by
  cases hf : x.failures with
  | nil => rfl
  | cons f fs =>
      simp only [report, hf] at h
      cases h

theorem perform_of_success {config : Config} {base : Path} {steps : List Step} {w w' : World}
    {x : Execution} (h : perform config base false steps w = .ok x w') :
    perform config base true steps w = .ok x w' := by
  obtain ⟨r, w₁, start, run⟩ := Action.bind_eq_ok_iff.mp h
  exact Action.bind_eq_ok_iff.mpr ⟨r, w₁, start, (Registry.execute_of_success run).2⟩

theorem perform_strict {config : Config} {base : Path} {steps : List Step} {w w' : World}
    {x : Execution} (h : perform config base true steps w = .ok x w') (none : x.failures = []) :
    perform config base false steps w = .ok x w' := by
  obtain ⟨r, w₁, start, run⟩ := Action.bind_eq_ok_iff.mp h
  refine Action.bind_eq_ok_iff.mpr ⟨r, w₁, start, ?_⟩
  cases strict : r.execute false steps w₁ with
  | ok y w₂ => rw [← (Registry.execute_of_success strict).2, run]
  | error e w₂ =>
      exfalso
      rcases (Registry.execute_eq_error r false steps).mp strict with lost | ⟨i, recorded, fails⟩
      · have := (Registry.execute_eq_error r true steps).mpr (.inl lost)
        cases run.symm.trans this
      · cases raised : e.isRaised with
        | false => cases run.symm.trans (fails.lenient raised).execute
        | true =>
            obtain ⟨step, -, ⟨y, w₃, run', first⟩ | ⟨e', w₃, _, _, fails', -⟩⟩ :=
              fails.recorded raised
            · cases run.symm.trans run'
              rw [none] at first
              cases first
            · cases run.symm.trans fails'.execute

/-- A program that ends well does so whether or not it was to keep going, and with one output. -/
theorem run_keepGoing (o : Options) (cwd : Path) (d : Disk) :
    ((run { o with keepGoing := true } cwd d).1.code = 0 ↔
      (run { o with keepGoing := false } cwd d).1.code = 0) ∧
    ((run { o with keepGoing := false } cwd d).1.code = 0 →
      run { o with keepGoing := true } cwd d = run { o with keepGoing := false } cwd d) := by
  have same : (run { o with keepGoing := true } cwd d).1.code = 0 ∨
      (run { o with keepGoing := false } cwd d).1.code = 0 →
      run { o with keepGoing := true } cwd d = run { o with keepGoing := false } cwd d := by
    have configured_eq (b : Bool) : configured { o with keepGoing := b } cwd d =
        configured o cwd d := rfl
    have roots_eq (b : Bool) (config : Config) :
        withCollections { o with keepGoing := b } cwd config = withCollections o cwd config := rfl
    simp only [run, configured_eq, roots_eq]
    cases configured o cwd d with
    | error e => exact fun _ => rfl
    | ok found =>
        obtain ⟨config, base⟩ := found
        dsimp only
        generalize withCollections o cwd config = config
        by_cases sane : (!config.problems.isEmpty) = true
        · simp only [if_pos sane, implies_true]
        simp only [if_neg sane]
        cases Plan.ofTokens o.pipeline with
        | error e => exact fun _ => rfl
        | ok steps =>
            dsimp only
            by_cases dry : o.dryRun = true
            · simp only [if_pos dry, implies_true]
            simp only [if_neg dry]
            rintro (zero | zero)
            · cases hx : perform config base true steps { disk := d } with
              | ok x w =>
                  rw [hx] at zero
                  rw [perform_strict hx (report_code_eq_zero zero)]
              | error e w =>
                  rw [hx] at zero
                  exact absurd zero (exitCode_ne_zero e)
            · cases hx : perform config base false steps { disk := d } with
              | ok x w => rw [perform_of_success hx]
              | error e w =>
                  rw [hx] at zero
                  exact absurd zero (exitCode_ne_zero e)
  refine ⟨⟨fun h => ?_, fun h => ?_⟩, fun h => same (.inr h)⟩
  · rwa [← same (.inl h)]
  · rwa [same (.inr h)]

end CommandLine

/-! ### The main statement -/

/-- Strict runs and runs that keep going agree up to the first failure. What a strict run achieves,
the other achieves with nothing recorded. An error that is no failure of an operation ends both at
one step, in one world, before anything is recorded. A failure of an operation is the first that is
recorded, if the run that keeps going does not end later; and such a failure never ends that run.
The program succeeds with one of the two exactly if it does with the other, and then prints the
same. -/
theorem keep_going_agrees (r : Registry) (plan : List Step) (w : World) :
    (∀ x w', r.execute false plan w = .ok x w' →
      x.failures = [] ∧ r.execute true plan w = .ok x w') ∧
    (∀ e w', r.execute false plan w = .error e w' → e.isRaised = false →
      r.execute true plan w = .error e w' ∧
      ∀ i recorded, r.FailsAt false plan w i recorded e w' → r.FailsAt true plan w i [] e w') ∧
    (∀ e w', r.execute false plan w = .error e w' → e.isRaised = true →
      ∃ i recorded step, r.FailsAt false plan w i recorded e w' ∧
        (Plan.orHelp plan)[i]? = some step ∧
        ((∃ x w'', r.execute true plan w = .ok x w'' ∧
          x.failures.head? = some ⟨i, step.method, e⟩) ∨
        ∃ e' w'' j recorded', r.execute true plan w = .error e' w'' ∧ e'.isRaised = false ∧
          i < j ∧ r.FailsAt true plan w j recorded' e' w'')) ∧
    (∀ e w', r.execute true plan w = .error e w' → e.isRaised = false) ∧
    ∀ (o : CommandLine.Options) (cwd : Path) (d : Disk),
      let strict := CommandLine.run { o with keepGoing := false } cwd d
      let lenient := CommandLine.run { o with keepGoing := true } cwd d
      (lenient.1.code = 0 ↔ strict.1.code = 0) ∧
        (strict.1.code = 0 → lenient.1.out = strict.1.out) := by
  refine ⟨?_, ?_, ?_, ?_, ?_⟩
  · intro x w' h
    exact Registry.execute_of_success h
  · intro e w' h plain
    refine ⟨?_, fun i recorded fails => fails.lenient plain⟩
    rcases (Registry.execute_eq_error r false plan).mp h with lost | ⟨i, recorded, fails⟩
    · exact (Registry.execute_eq_error r true plan).mpr (.inl lost)
    · exact (fails.lenient plain).execute
  · intro e w' h raised
    rcases (Registry.execute_eq_error r false plan).mp h with lost | ⟨i, recorded, fails⟩
    · rw [Registry.workingCollection_error lost] at raised
      cases raised
    · obtain ⟨step, next, later⟩ := fails.recorded raised
      refine ⟨i, recorded, step, fails, next, later.imp_right ?_⟩
      rintro ⟨e', w'', j, recorded', fails', lt⟩
      exact ⟨e', w'', j, recorded', fails'.execute,
        Registry.execute_lenient_error fails'.execute, lt, fails'⟩
  · intro e w' h
    exact Registry.execute_lenient_error h
  · intro o cwd d
    obtain ⟨code, output⟩ := CommandLine.run_keepGoing o cwd d
    exact ⟨code, fun zero => by rw [output zero]⟩

end Lineage
