import Lineage.Proofs.Execution.Restart
import Lineage.Proofs.Json.Numerals
import Lineage.Proofs.Registry.Failures

/-!
Lists as targets. Between two steps of a run a target is a list only while iterating, and no list that
is a target or is held aside is empty: each step keeps that, whether it succeeds or is passed over. A
step in between can break it in one way, by taking a list from a labelled result without iterating;
such a step needs a single target, and that it has none ends the run.
-/
namespace Lineage

open Action

/-- What holds between two steps. -/
structure Run.Settled (run : Run) : Prop where
  iterates : ∀ entries, run.target = .many entries → run.iterating = true
  listed : ∀ entries, run.target = .many entries → entries ≠ []
  offers : ∀ entries, run.pending = some entries → entries ≠ []

namespace Registry

/-- What a run has come to once it executed the first `n` steps of a plan, and the world there. -/
def ComesTo (r : Registry) (keepGoing : Bool) (plan : List Step) (w : World) (n : Nat) (run : Run)
    (w₁ : World) : Prop :=
  ∃ root, r.workingCollection w = .ok root w ∧
    ((Plan.orHelp plan).take n).foldlM (r.runStep keepGoing) { root, target := .one root } w =
      .ok run w₁

/-- A step has its target and its keywords and is performed, with some answer. -/
def Attempts (r : Registry) (run : Run) (step : Step) (w : World) (aimed : Run)
    (answer : Except Error Outcome) (w' : World) : Prop :=
  ∃ w₁ named w₂, r.aim run step w = .ok aimed w₁ ∧
    r.keywordTree aimed.soFar.cache step w₁ = .ok named w₂ ∧
    r.perform aimed step named w₂ = result answer w'

/-- A step takes a list of entries from a labelled result, and neither it nor the run iterates. -/
structure TakesList (r : Registry) (run : Run) (step : Step) (w : World) (entries : List Entry)
    (w₁ : World) : Prop where
  single : run.iterating = false ∧ step.iterate = false
  filled : entries ≠ []
  found : ∃ reference, step.restart = .cached reference ∧
    r.lookup run.soFar.cache reference w = .ok (.list (entries.map .entry)) w₁

/-- Such a step gets its keywords, and has more targets than the one that it needs. -/
def Refuses (r : Registry) (run : Run) (step : Step) (w : World) (entries : List Entry)
    (w' : World) : Prop :=
  ∃ w₁ named, r.TakesList run step w entries w₁ ∧
    r.keywordTree run.soFar.cache step w₁ = .ok named w'

end Registry

/-! ### Errors of targets -/

theorem Json.kind_last (x : Json) : x.kind.toList.getLast? ≠ some '\'' := by
  cases x <;> rw [Json.kind] <;> decide

namespace Error

/-- Any error but that a step needs a single target. -/
def Elsewhere (err : Error) : Prop := ∀ step entries, err ≠ Step.needsSingleTarget step entries

theorem needsSingleTarget_last (step : Step) (entries : List Entry) :
    ∃ reason, step.needsSingleTarget entries = .malformed reason ∧
      reason.toList.getLast? = some '\'' :=
  ⟨_, rfl, last_append _ (last_append _ rfl)⟩

theorem elsewhere_of_last {reason : String} (h : reason.toList.getLast? ≠ some '\'') :
    Elsewhere (.malformed reason) := by
  intro step entries same
  obtain ⟨reason', shape, last⟩ := needsSingleTarget_last step entries
  cases same.trans shape
  exact h last

theorem Misread.elsewhere {reason : String} (h : Misread reason) : Elsewhere (.malformed reason) := by
  refine elsewhere_of_last ?_
  -- What was found stands last, and what stands before it ends with a blank.
  cases h with
  | parent key e found =>
      refine last_append_ne ?_ found.kind_last
      rw [last_append _ rfl]
      decide
  | operations key e found =>
      refine last_append_ne ?_ (compact_last found)
      rw [last_append _ rfl]
      decide

theorem references_elsewhere : OfReferences Elsewhere where
  storage _ _ := nofun
  malformed _ h := h.elsewhere
  unbounded := nofun
  cyclic _ := nofun
  unresolved _ _ := nofun

theorem calls_elsewhere : OfCalls Elsewhere where
  storage _ _ := nofun
  malformed _ h := h.elsewhere
  unbounded := nofun
  cyclic _ := nofun
  notFound _ _ := nofun
  missing _ _ := nofun
  tooMany _ _ _ := nofun
  within _ _ _ err := by cases err <;> exact nofun

end Error

section

variable {r : Registry} {keepGoing : Bool} {plan : List Step} {run aimed run' : Run} {step : Step}
  {named : Params} {w w' w₁ : World} {outcome : Outcome} {error : Error}

namespace Run

theorem offers_none (none : run.pending = none) :
    ∀ entries, run.pending = some entries → entries ≠ [] := by
  intro entries held
  cases none.symm.trans held

theorem settled_one {e : Entry} (one : run.target = .one e)
    (offers : ∀ entries, run.pending = some entries → entries ≠ []) : run.Settled := by
  refine ⟨fun entries many => ?_, fun entries many => ?_, offers⟩
  · cases one.symm.trans many
  · cases one.symm.trans many

theorem settled_many {entries : List Entry} (many : run.target = .many entries)
    (filled : entries ≠ []) (iterating : run.iterating = true)
    (offers : ∀ entries, run.pending = some entries → entries ≠ []) : run.Settled := by
  refine ⟨fun _ _ => iterating, fun entries' many' => ?_, offers⟩
  cases many.symm.trans many'
  exact filled

theorem Settled.advance (h : run.Settled) (step : Step) (outcome : Outcome) :
    (run.advance step outcome).Settled := by
  rw [Run.advance]
  dsimp only
  split
  · exact settled_one rfl h.offers
  · rename_i entries many
    obtain ⟨filled, -⟩ := (Outcome.many?_eq_some_iff _ _).mp many
    split
    · rename_i iterating
      exact settled_many rfl filled iterating h.offers
    · refine ⟨h.iterates, h.listed, fun _ same => ?_⟩
      cases same
      exact filled
  · exact ⟨h.iterates, h.listed, h.offers⟩

theorem Settled.passOver (h : run.Settled) (step : Step) (error : Error) :
    (run.passOver step error).Settled :=
  ⟨h.iterates, h.listed, h.offers⟩

end Run

/-! ### Aiming -/

/-- The state of a run for a step that takes a list without iterating. -/
def Run.onList (run : Run) (entries : List Entry) : Run :=
  { run with target := .many entries, pending := none, iterating := false }

theorem aim_of_takesList {entries : List Entry} (h : r.TakesList run step w entries w₁) :
    r.aim run step w = .ok (run.onList entries) w₁ := by
  obtain ⟨⟨still, single⟩, filled, reference, cached, found⟩ := h
  have many := (Outcome.many?_eq_some_iff (.list (entries.map .entry)) entries).mpr ⟨filled, rfl⟩
  have taken : r.cachedTarget run.soFar.cache reference w = .ok (.many entries) w₁ := by
    rw [cachedTarget_apply, found]
    simp only [Outcome.one?, many]
  simp only [Registry.aim, cached]
  rw [Action.bind_apply, taken, still, single]
  rfl

/-- A step that has its target finds the run settled, or has taken a list without iterating. -/
theorem aim_settled (settled : run.Settled) (h : r.aim run step w = .ok aimed w₁) :
    aimed.Settled ∨ ∃ entries, r.TakesList run step w entries w₁ ∧ aimed = run.onList entries := by
  -- A target that the step keeps, under a mode that it keeps or turns on.
  have kept {iterating : Bool} (on : run.iterating = true → iterating = true) :
      Run.Settled { run with pending := none, iterating } :=
    ⟨fun entries many => on (settled.iterates entries many), settled.listed, Run.offers_none rfl⟩
  cases restart : step.restart with
  | stay =>
      cases iterate : step.iterate with
      | false =>
          simp only [Registry.aim, restart, iterate] at h
          cases h
          exact .inl (kept fun on => by rw [on, Bool.true_or])
      | true =>
          cases pending : run.pending with
          | none =>
              simp only [Registry.aim, restart, iterate, pending] at h
              cases h
              exact .inl (kept fun _ => Bool.or_true _)
          | some entries =>
              simp only [Registry.aim, restart, iterate, pending] at h
              cases h
              exact .inl (Run.settled_many rfl (settled.offers entries pending) (Bool.or_true _)
                (Run.offers_none rfl))
  | root =>
      simp only [Registry.aim, restart] at h
      cases h
      exact .inl (Run.settled_one rfl (Run.offers_none rfl))
  | entry path =>
      simp only [Registry.aim, restart] at h
      obtain ⟨e, w₂, -, last⟩ := bind_eq_ok_iff.mp h
      cases last
      exact .inl (Run.settled_one rfl (Run.offers_none rfl))
  | cached reference =>
      simp only [Registry.aim, restart] at h
      obtain ⟨target, w₂, taken, last⟩ := bind_eq_ok_iff.mp h
      cases last
      rw [cachedTarget_apply] at taken
      split at taken
      · rename_i outcome w₃ found
        split at taken
        · cases taken
          exact .inl (Run.settled_one rfl (Run.offers_none rfl))
        · rename_i entries _ many
          cases taken
          obtain ⟨filled, rfl⟩ := (Outcome.many?_eq_some_iff _ _).mp many
          cases mode : run.iterating || step.iterate with
          | true => exact .inl (Run.settled_many rfl filled rfl (Run.offers_none rfl))
          | false =>
              exact .inr ⟨entries, ⟨by simpa using mode, filled, reference, restart, found⟩, rfl⟩
        · cases taken
      · cases taken

/-! ### Performing -/

theorem perform_onList (entries : List Entry) (step : Step) (named : Params) :
    r.perform (run.onList entries) step named = throw (step.needsSingleTarget entries) :=
  perform_several rfl rfl

/-- A settled run has a single target for a step, or iterates. -/
theorem perform_fails (settled : run.Settled) {kind : Error → Prop} (errors : Error.OfCalls kind) :
    Fails kind (r.perform run step named) := by
  cases iterating : run.iterating with
  | true =>
      rw [perform_iterating iterating]
      refine .bind (.mapM (fun e => ?_) _) fun _ => .pure _
      exact Registry.invoke_fails r errors e _ _ _
  | false =>
      cases target : run.target with
      | one e =>
          rw [perform_single iterating target]
          exact Registry.invoke_fails r errors e _ _ _
      | many entries => cases iterating.symm.trans (settled.iterates entries target)

theorem InvokesEach.length_eq {entries : List Entry} {outcomes : List Outcome}
    (h : InvokesEach r step named entries w outcomes w') : outcomes.length = entries.length := by
  induction h with
  | nil => rfl
  | cons _ _ ih => rw [List.length_cons, List.length_cons, ih]

theorem Run.Settled.entries_ne (settled : run.Settled) : run.target.entries ≠ [] := by
  cases target : run.target with
  | one e => exact List.cons_ne_nil e []
  | many entries => exact settled.listed entries target

/-- A step that iterates returns an outcome for each entry of its target, which has some. -/
theorem perform_filled (settled : run.Settled) (iterating : run.iterating = true)
    (h : r.perform run step named w = .ok outcome w') :
    ∃ first rest, outcome = .list (first :: rest) := by
  rw [perform_iterating iterating] at h
  obtain ⟨outcomes, w₁, each, last⟩ := bind_eq_ok_iff.mp h
  cases last
  have length := (mapM_invoke_eq_ok_iff.mp each).length_eq
  cases outcomes with
  | nil => exact absurd (List.length_eq_zero_iff.mp length.symm) settled.entries_ne
  | cons first rest => exact ⟨first, rest, rfl⟩

/-! ### One step -/

theorem needsSingleTarget_aborts (keepGoing : Bool) (step : Step) (entries : List Entry) :
    (keepGoing && (step.needsSingleTarget entries).isRaised) = false :=
  Bool.and_false _

theorem runStep_settled (settled : run.Settled)
    (h : r.runStep keepGoing run step w = .ok run' w') : run'.Settled := by
  rw [runStep_apply] at h
  split at h
  · cases h
  · rename_i aimed w₁ aims
    split at h
    · cases h
    · rename_i named w₂ keywords
      rcases aim_settled settled aims with settled | ⟨entries, -, rfl⟩
      · split at h
        · cases h
          exact settled.advance step _
        · split at h
          · cases h
            exact settled.passOver step _
          · cases h
      · rw [perform_onList, throw_apply] at h
        simp only [needsSingleTarget_aborts, Bool.false_eq_true, if_false] at h
        cases h

/-- That a single target is needed ends a step in one case: it took a list without iterating. -/
theorem runStep_needs_iff (settled : run.Settled) (culprit : Step) (listed : List Entry) :
    r.runStep keepGoing run step w = .error (culprit.needsSingleTarget listed) w' ↔
      ∃ entries, r.Refuses run step w entries w' ∧
        culprit.needsSingleTarget listed = step.needsSingleTarget entries := by
  rw [runStep_apply]
  constructor
  · intro h
    split at h
    · rename_i aims
      cases h
      exact absurd rfl (Registry.aim_fails r Error.references_elsewhere _ _ _ _ _ aims _ _)
    · rename_i aimed w₁ aims
      split at h
      · rename_i keywords
        cases h
        exact absurd rfl
          (Registry.keywordTree_fails r Error.references_elsewhere _ _ _ _ _ keywords _ _)
      · rename_i named w₂ keywords
        rcases aim_settled settled aims with settled | ⟨entries, takes, rfl⟩
        · split at h
          · cases h
          · rename_i performs
            split at h
            · cases h
            · cases h
              exact absurd rfl (perform_fails settled Error.calls_elsewhere _ _ _ performs _ _)
        · rw [perform_onList, throw_apply] at h
          simp only [needsSingleTarget_aborts, Bool.false_eq_true, if_false,
            EStateM.Result.error.injEq] at h
          obtain ⟨same, rfl⟩ := h
          exact ⟨entries, ⟨w₁, named, takes, keywords⟩, same.symm⟩
  · rintro ⟨entries, ⟨w₁, named, takes, keywords⟩, same⟩
    rw [aim_of_takesList takes]
    dsimp only
    rw [show r.keywordTree (run.onList entries).soFar.cache step w₁ = _ from keywords]
    dsimp only
    rw [perform_onList, throw_apply, same]
    simp only [needsSingleTarget_aborts, Bool.false_eq_true, if_false]

theorem runStep_of_attempts (h : r.Attempts run step w aimed (.error error) w')
    (stops : (keepGoing && error.isRaised) = false) :
    r.runStep keepGoing run step w = .error error w' := by
  obtain ⟨w₁, named, w₂, aims, keywords, performs⟩ := h
  rw [runStep_apply, aims]
  dsimp only
  rw [keywords]
  dsimp only
  rw [performs]
  simp only [result, stops, Bool.false_eq_true, if_false]

/-! ### Whole runs -/

namespace Registry

theorem ComesTo.settled {n : Nat} (h : r.ComesTo keepGoing plan w n run w₁) : run.Settled := by
  obtain ⟨root, -, steps⟩ := h
  have start : Run.Settled { root, target := .one root } := Run.settled_one rfl (Run.offers_none rfl)
  exact foldlM_keeps (fun _ _ _ _ _ settled h => runStep_settled settled h) start steps

theorem workingCollection_elsewhere : Fails Error.Elsewhere r.workingCollection := by
  rw [workingCollection]
  split
  · exact .pure _
  · exact .throw (Error.elsewhere_of_last (by decide))

/-- A run fails where there is no collection, or in the step that is next after some others. -/
theorem execute_fails_iff : r.execute keepGoing plan w = .error error w' ↔
    r.workingCollection w = .error error w' ∨
      ∃ n run w₁ step, r.ComesTo keepGoing plan w n run w₁ ∧ (Plan.orHelp plan)[n]? = some step ∧
        r.runStep keepGoing run step w₁ = .error error w' := by
  cases hr : r.workingCollection w with
  | error e w₁ => simp [execute_of_error keepGoing plan hr, ComesTo, hr]
  | ok root w₁ =>
      obtain rfl := workingCollection_world hr
      rw [execute_of_root keepGoing plan hr, bind_eq_error_iff, foldlM_eq_error_iff]
      constructor
      · rintro (⟨n, step, run, w₁, next, before, fails⟩ | ⟨_, _, _, last⟩)
        · exact .inr ⟨n, run, w₁, step, ⟨root, hr, before⟩, next, fails⟩
        · cases last
      · rintro (none | ⟨n, run, w₁, step, ⟨root', same, before⟩, next, fails⟩)
        · cases none
        · cases hr.symm.trans same
          exact .inl ⟨n, step, run, w₁, next, before, fails⟩

theorem execute_needs_iff (culprit : Step) (listed : List Entry) :
    r.execute keepGoing plan w = .error (culprit.needsSingleTarget listed) w' ↔
      ∃ n run w₁ step entries, r.ComesTo keepGoing plan w n run w₁ ∧
        (Plan.orHelp plan)[n]? = some step ∧ r.Refuses run step w₁ entries w' ∧
        culprit.needsSingleTarget listed = step.needsSingleTarget entries := by
  rw [execute_fails_iff]
  constructor
  · rintro (none | ⟨n, run, w₁, step, comes, next, fails⟩)
    · exact absurd rfl (workingCollection_elsewhere _ _ _ none _ _)
    · obtain ⟨entries, refuses, same⟩ := (runStep_needs_iff comes.settled culprit listed).mp fails
      exact ⟨n, run, w₁, step, entries, comes, next, refuses, same⟩
  · rintro ⟨n, run, w₁, step, entries, comes, next, refuses, same⟩
    exact .inr ⟨n, run, w₁, step, comes, next,
      (runStep_needs_iff comes.settled culprit listed).mpr ⟨entries, refuses, same⟩⟩

end Registry

/-! ### The main statement -/

/-- Between two steps of a run a target is a list only while iterating, and no list that is a target
or held aside is empty. So a step that iterates returns some outcomes. That a single target is needed
ends a run exactly where a step takes a list of entries from a labelled result while neither it nor
the run iterates, and gets its keywords; a run that is to keep going is no exception. -/
theorem list_targets_iterate (r : Registry) (keepGoing : Bool) (plan : List Step) (w : World) :
    (∀ n run w₁, r.ComesTo keepGoing plan w n run w₁ → run.Settled) ∧
    (∀ n run w₁ step aimed outcome w₂, r.ComesTo keepGoing plan w n run w₁ →
      (Plan.orHelp plan)[n]? = some step → r.Attempts run step w₁ aimed (.ok outcome) w₂ →
      aimed.iterating = true → ∃ first rest, outcome = .list (first :: rest)) ∧
    (∀ (culprit : Step) listed w',
      r.execute keepGoing plan w = .error (culprit.needsSingleTarget listed) w' ↔
      ∃ n run w₁ step entries, r.ComesTo keepGoing plan w n run w₁ ∧
        (Plan.orHelp plan)[n]? = some step ∧ r.Refuses run step w₁ entries w' ∧
        culprit.needsSingleTarget listed = step.needsSingleTarget entries) ∧
    ∀ n run w₁ step aimed (culprit : Step) listed w₂, r.ComesTo keepGoing plan w n run w₁ →
      (Plan.orHelp plan)[n]? = some step →
      r.Attempts run step w₁ aimed (.error (culprit.needsSingleTarget listed)) w₂ →
      r.execute keepGoing plan w = .error (culprit.needsSingleTarget listed) w₂ := by
  refine ⟨?_, ?_, ?_, ?_⟩
  · intro n run w₁ comes
    exact comes.settled
  · intro n run w₁ step aimed outcome w₂ comes next ⟨w₃, named, w₄, aims, keywords, performs⟩
      iterating
    rcases aim_settled comes.settled aims with settled | ⟨entries, -, rfl⟩
    · exact perform_filled settled iterating performs
    · cases iterating
  · intro culprit listed w'
    exact Registry.execute_needs_iff culprit listed
  · intro n run w₁ step aimed culprit listed w₂ comes next attempts
    exact Registry.execute_fails_iff.mpr (.inr ⟨n, run, w₁, step, comes, next,
      runStep_of_attempts attempts (needsSingleTarget_aborts keepGoing culprit listed)⟩)

end

namespace Registry.Sample

/-- Labels a list of entries while iterating, and takes it up again once that has ended. -/
def relisting : List Step :=
  [{ label := some "all", method := "working_collection", iterate := true },
    { method := "get_name", restart := .root },
    { method := "get_name", restart := .cached ["all"] }]

theorem relisting_refused : oneRoot.execute true relisting world =
    .error (.malformed ("'get_name' needs a single target but the current target is a list of "
      ++ "1 entries; iterate with ',\x7b'")) world := by
  let past : List Invoked :=
    [⟨relisting[0], .one upper, true, .ok (.list [.entry upper])⟩,
      ⟨relisting[1], .one upper, false, .ok (.data (.str "upper"))⟩]
  have history : History oneRoot upper (relisting.take 2) true [] world past world := by
    refine .step ⟨rfl, ?_, world, [], world, .left rfl fun _ => rfl, rfl, ?_⟩ (fun _ h => nomatch h)
      (.step ⟨rfl, ?_, world, [], world, .root rfl, rfl, .single name_invoked⟩
        (fun _ h => nomatch h) .done)
    · exact iff_of_true rfl ((iteratesAt_zero rfl).mpr rfl)
    · exact .each (.cons root_invoked .nil)
    · refine iff_of_false nofun fun h => ?_
      rcases (iteratesAt_succ rfl).mp h with h | h
      · cases h
      · exact h.1 rfl
  have comes : oneRoot.ComesTo true relisting world 2 (Run.after upper past) world :=
    ⟨upper, rfl, (foldlM_runStep_eq_ok_iff (.nil upper _) rfl).mpr ⟨past, history, rfl, rfl⟩⟩
  have refuses : oneRoot.Refuses (Run.after upper past) relisting[2] world [upper] world :=
    ⟨world, [], ⟨⟨rfl, rfl⟩, nofun, ["all"], rfl, rfl⟩, rfl⟩
  exact ((list_targets_iterate oneRoot true relisting world).2.2.1 relisting[2] [upper] world).mpr
    ⟨2, _, world, _, [upper], comes, rfl, refuses, rfl⟩

end Registry.Sample
end Lineage
