import Lineage.Proofs.Execution.History

/-!
Executions and histories agree. The state of a run between two steps is a function of the steps so
far, aiming and performing from that state are the rule of a single step, and by induction on the
plan a run succeeds, or ends with an error, exactly as some history does.
-/
namespace Lineage

namespace Outcome

theorem mapM_one?_eq_some_iff (items : List Outcome) (entries : List Entry) :
    items.mapM one? = some entries ↔ items = entries.map .entry := by
  induction items generalizing entries with
  | nil => simp [eq_comm]
  | cons x items ih =>
      cases x with
      | data _ | list _ => cases entries <;> simp [one?]
      | entry e =>
          cases entries with
          | nil => simp [one?, Option.bind_eq_some_iff]
          | cons f entries =>
              simp only [List.mapM_cons, one?, Option.bind_eq_bind, Option.bind_some,
                Option.bind_eq_some_iff, ih, Option.pure_def, Option.some.injEq, List.cons.injEq,
                List.map_cons, entry.injEq]
              constructor
              · intro h
                obtain ⟨_, hi, he, hf⟩ := h
                exact ⟨he, hf ▸ hi⟩
              · intro h
                exact ⟨_, h.2, h.1, rfl⟩

theorem one?_eq_some_iff (outcome : Outcome) (e : Entry) :
    outcome.one? = some e ↔ outcome = .entry e := by
  cases outcome <;> simp [one?]

theorem one?_eq_none_iff (outcome : Outcome) : outcome.one? = none ↔ ∀ e, outcome ≠ .entry e := by
  cases outcome <;> simp [one?]

theorem many?_eq_some_iff (outcome : Outcome) (entries : List Entry) :
    outcome.many? = some entries ↔ entries ≠ [] ∧ outcome = .list (entries.map .entry) := by
  cases outcome with
  | data _ | entry _ => simp [many?]
  | list items =>
      cases items with
      | nil => cases entries <;> simp [many?]
      | cons x items =>
          simp only [many?, mapM_one?_eq_some_iff, list.injEq]
          cases entries <;> simp

theorem many?_eq_none_iff (outcome : Outcome) :
    outcome.many? = none ↔ ∀ entries, entries ≠ [] → outcome ≠ .list (entries.map .entry) := by
  rw [Option.eq_none_iff_forall_not_mem]
  simp only [Option.mem_def, many?_eq_some_iff, not_and]

end Outcome

/-! ### Iteration as the plan says it -/

theorem iteratesAt_zero {steps : List Step} {s : Step} (h : steps[0]? = some s) :
    IteratesAt steps 0 ↔ s.iterate = true := by
  constructor
  · rintro ⟨j, t, hj, ht, iterate, -⟩
    obtain rfl : j = 0 := by omega
    obtain rfl : s = t := Option.some.inj (h.symm.trans ht)
    exact iterate
  · intro iterate
    exact ⟨0, s, Nat.le_refl 0, h, iterate, fun k _ hk hk' => by omega⟩

/-- A step iterates if it asks for it, or if the step before it does and it does not go back to the
root. -/
theorem iteratesAt_succ {steps : List Step} {i : Nat} {s : Step} (h : steps[i + 1]? = some s) :
    IteratesAt steps (i + 1) ↔ s.iterate = true ∨ s.restart ≠ .root ∧ IteratesAt steps i := by
  constructor
  · rintro ⟨j, t, hj, ht, iterate, stays⟩
    by_cases hi : j = i + 1
    · subst hi
      obtain rfl : s = t := Option.some.inj (h.symm.trans ht)
      exact .inl iterate
    · refine .inr ⟨stays (i + 1) s (by omega) (Nat.le_refl _) h, j, t, by omega, ht, iterate, ?_⟩
      exact fun k u hk hk' => stays k u hk (by omega)
  · rintro (iterate | ⟨here, j, t, hj, ht, iterate, stays⟩)
    · exact ⟨i + 1, s, Nat.le_refl _, h, iterate, fun k _ hk hk' => by omega⟩
    · refine ⟨j, t, by omega, ht, iterate, fun k u hk hk' hu => ?_⟩
      by_cases hi : k = i + 1
      · subst hi
        obtain rfl : s = u := Option.some.inj (h.symm.trans hu)
        exact here
      · exact stays k u hk (by omega) hu

/-! ### The state of a run as a function of its history -/

namespace Run

/-- The state between the steps so far and the next one. -/
def after (root : Entry) (past : List Invoked) : Run where
  root := root
  target := History.target root past
  pending := past.getLast?.bind Invoked.offers
  iterating := (past.getLast?.map Invoked.iterating).getD false
  position := past.length
  soFar := History.summary past

/-- Whether the step after some others iterates. -/
def nextMode (root : Entry) (past : List Invoked) (step : Step) : Bool :=
  (if step.restart = .root then false else (after root past).iterating) || step.iterate

/-- The state once the next step has its target. -/
def aimed (root : Entry) (past : List Invoked) (step : Step) (target : Target) : Run :=
  { after root past with target, pending := none, iterating := nextMode root past step }

theorem after_cache (root : Entry) (past : List Invoked) :
    (after root past).soFar.cache = History.bindings past := rfl

theorem failures_snoc (past : List Invoked) (x : Invoked) :
    History.failures (past ++ [x]) = History.failures past ++ x.failure past.length := by
  simp [History.failures, List.zipIdx_append]

/-- One more step changes the state by what it leaves, offers, binds and adds to the failures. -/
theorem after_snoc (root : Entry) (past : List Invoked) (x : Invoked) :
    after root (past ++ [x]) =
      { root, target := x.leaves, pending := x.offers, iterating := x.iterating
        position := past.length + 1
        soFar :=
          { result := History.lastOutcome [x]
            cache := x.bind (History.bindings past)
            failures := History.failures past ++ x.failure past.length } } := by
  simp [after, History.target, History.summary, History.bindings, History.lastOutcome, failures_snoc]

theorem advance_aimed (root : Entry) (past : List Invoked) (step : Step) (target : Target)
    (outcome : Outcome) :
    (aimed root past step target).advance step outcome =
      after root (past ++ [⟨step, target, nextMode root past step, .ok outcome⟩]) := by
  rw [after_snoc]
  cases hl : step.label <;> cases outcome with
  | data value | entry e =>
      cases hi : nextMode root past step <;>
        simp [advance, aimed, after, History.summary, History.lastOutcome, Invoked.leaves,
          Invoked.offers, Invoked.bind, Invoked.failure, Outcome.one?, Outcome.many?, hl, hi]
  | list items =>
      cases hm : (Outcome.list items).many? <;> cases hi : nextMode root past step <;>
        simp [advance, aimed, after, History.summary, History.lastOutcome, Invoked.leaves,
          Invoked.offers, Invoked.bind, Invoked.failure, Outcome.one?, hm, hl, hi]

theorem passOver_aimed (root : Entry) (past : List Invoked) (step : Step) (target : Target)
    (error : Error) :
    (aimed root past step target).passOver step error =
      after root (past ++ [⟨step, target, nextMode root past step, .error error⟩]) := by
  rw [after_snoc]
  cases hl : step.label <;>
    simp [passOver, aimed, after, History.summary, History.lastOutcome, Invoked.leaves,
      Invoked.offers, Invoked.bind, Invoked.failure, hl]

end Run

/-! ### One step -/

section

variable {r : Registry} {root : Entry} {past : List Invoked} {step : Step} {w w' : World}

open Run (aimed)

/-- A cache restart takes an entry or a list of entries that is not empty. -/
theorem cachedTarget_apply {reference : List String} {cache : Table String Outcome} :
    r.cachedTarget cache reference w =
      match r.lookup cache reference w with
      | .ok outcome w' =>
        match outcome.one?, outcome.many? with
        | some e, _ => .ok (.one e) w'
        | none, some entries => .ok (.many entries) w'
        | none, none => .error (unresolved reference "the cached value is not an entry") w'
      | .error error w' => .error error w' := by
  rw [Registry.cachedTarget, Action.bind_apply]
  cases r.lookup cache reference w with
  | error error w' => rfl
  | ok outcome w' =>
      cases outcome with
      | entry e => rfl
      | data value => rfl
      | list items => cases hm : (Outcome.list items).many? <;> simp [hm, Outcome.one?] <;> rfl

theorem byPath_ok (path : Path) (w : World) : ∃ e w', Registry.byPath path w = .ok e w' := by
  rw [Registry.byPath]
  rw [Action.bind_of_ok (Action.get_apply w)]
  cases h : Table.get? w.byPath path.normalize.components with
  | some e => exact ⟨e, w, rfl⟩
  | none => exact ⟨_, _, rfl⟩

theorem aim_root (h : step.restart = .root) :
    r.aim (Run.after root past) step w = .ok (aimed root past step (.one root)) w := by
  simp only [Registry.aim, h, aimed, Run.nextMode, if_true]
  rfl

theorem aim_entry {path : Path} {e : Entry} (h : step.restart = .entry path)
    (found : Registry.byPath path w = .ok e w') :
    r.aim (Run.after root past) step w = .ok (aimed root past step (.one e)) w' := by
  simp only [Registry.aim, h, aimed, Run.nextMode, reduceCtorEq, if_false]
  rw [Action.bind_of_ok found]
  rfl

theorem aim_offered {entries : List Entry} (h : step.restart = .stay) (iterate : step.iterate = true)
    (offer : past.getLast?.bind Invoked.offers = some entries) :
    r.aim (Run.after root past) step w = .ok (aimed root past step (.many entries)) w := by
  simp only [Registry.aim, h, aimed, Run.nextMode, reduceCtorEq, if_false, iterate, Run.after, offer]
  rfl

theorem aim_left (h : step.restart = .stay)
    (unoffered : step.iterate = true → past.getLast?.bind Invoked.offers = none) :
    r.aim (Run.after root past) step w =
      .ok (aimed root past step (History.target root past)) w := by
  cases hi : step.iterate with
  | false =>
      simp only [Registry.aim, h, aimed, Run.nextMode, reduceCtorEq, if_false, hi]
      rfl
  | true =>
      simp only [Registry.aim, h, aimed, Run.nextMode, reduceCtorEq, if_false, hi, Run.after,
        unoffered hi]
      rfl

theorem aim_cached {reference : List String} (h : step.restart = .cached reference) :
    r.aim (Run.after root past) step w =
      match r.lookup (History.bindings past) reference w with
      | .ok outcome w' =>
        match outcome.one?, outcome.many? with
        | some e, _ => .ok (aimed root past step (.one e)) w'
        | none, some entries => .ok (aimed root past step (.many entries)) w'
        | none, none => .error (unresolved reference "the cached value is not an entry") w'
      | .error error w' => .error error w' := by
  simp only [Registry.aim, h, aimed, Run.nextMode, reduceCtorEq, if_false, Run.after_cache]
  rw [Action.bind_apply, cachedTarget_apply]
  cases r.lookup (History.bindings past) reference w with
  | error error w' => rfl
  | ok outcome w' =>
      dsimp only
      cases outcome.one? <;> cases outcome.many? <;> rfl

/-- Aiming finds the target of the step and forgets the entries held aside. -/
theorem aims_of_aim {run : Run} (ok : r.aim (Run.after root past) step w = .ok run w') :
    ∃ target, Aims r root past step w target w' ∧ run = aimed root past step target := by
  cases h : step.restart with
  | stay =>
      cases hi : step.iterate with
      | false =>
          have unoffered : step.iterate = true → past.getLast?.bind Invoked.offers = none := by
            simp [hi]
          cases (aim_left h unoffered).symm.trans ok
          exact ⟨_, .left h unoffered, rfl⟩
      | true =>
          cases ho : past.getLast?.bind Invoked.offers with
          | none =>
              cases (aim_left h (fun _ => ho)).symm.trans ok
              exact ⟨_, .left h (fun _ => ho), rfl⟩
          | some entries =>
              cases (aim_offered h hi ho).symm.trans ok
              exact ⟨_, .offered h hi ho, rfl⟩
  | root =>
      cases (aim_root h).symm.trans ok
      exact ⟨_, .root h, rfl⟩
  | entry path =>
      obtain ⟨e, w₁, found⟩ := byPath_ok path w
      cases (aim_entry h found).symm.trans ok
      exact ⟨_, .entry h found, rfl⟩
  | cached reference =>
      rw [aim_cached h] at ok
      split at ok
      · rename_i outcome w₁ found
        split at ok
        · rename_i one
          cases ok
          obtain rfl := (Outcome.one?_eq_some_iff outcome _).mp one
          exact ⟨_, .cachedEntry h found, rfl⟩
        · rename_i many
          cases ok
          obtain ⟨ne, rfl⟩ := (Outcome.many?_eq_some_iff outcome _).mp many
          exact ⟨_, .cachedEntries h ne found, rfl⟩
        · cases ok
      · cases ok

theorem aim_of_aims {target : Target} (aims : Aims r root past step w target w') :
    r.aim (Run.after root past) step w = .ok (aimed root past step target) w' := by
  cases aims with
  | root h => exact aim_root h
  | entry h found => exact aim_entry h found
  | cachedEntry h found =>
      rw [aim_cached h, found]
      rfl
  | cachedEntries h ne found =>
      have many := (Outcome.many?_eq_some_iff _ _).mpr ⟨ne, rfl⟩
      rw [aim_cached h, found]
      simp only [Outcome.one?, many]
  | offered h iterate offer => exact aim_offered h iterate offer
  | left h unoffered => exact aim_left h unoffered

/-- Aiming fails at a reference that has no result, or one that is no entry and no entries. -/
theorem aim_eq_error_iff {error : Error} :
    r.aim (Run.after root past) step w = .error error w' ↔
      ∃ reference, step.restart = .cached reference ∧
        (r.lookup (History.bindings past) reference w = .error error w' ∨
          ∃ outcome, r.lookup (History.bindings past) reference w = .ok outcome w' ∧
            error = unresolved reference "the cached value is not an entry" ∧
            (∀ e, outcome ≠ .entry e) ∧
            ∀ entries, entries ≠ [] → outcome ≠ .list (entries.map .entry)) := by
  constructor
  · intro fails
    cases h : step.restart with
    | stay =>
        have left : step.iterate = true → past.getLast?.bind Invoked.offers ≠ none := by
          intro hi ho
          cases (aim_left h (fun _ => ho)).symm.trans fails
        by_cases hi : step.iterate = true
        · obtain ⟨entries, ho⟩ := Option.ne_none_iff_exists'.mp (left hi)
          cases (aim_offered h hi ho).symm.trans fails
        · cases (aim_left h (fun hi' => absurd hi' hi)).symm.trans fails
    | root => cases (aim_root h).symm.trans fails
    | entry path =>
        obtain ⟨e, w₁, found⟩ := byPath_ok path w
        cases (aim_entry h found).symm.trans fails
    | cached reference =>
        refine ⟨reference, rfl, ?_⟩
        rw [aim_cached h] at fails
        split at fails
        · rename_i outcome w₁ found
          split at fails
          · cases fails
          · cases fails
          · rename_i one many
            cases fails
            exact .inr ⟨outcome, found, rfl, (Outcome.one?_eq_none_iff outcome).mp one,
              (Outcome.many?_eq_none_iff outcome).mp many⟩
        · rename_i lost
          cases fails
          exact .inl lost
  · rintro ⟨reference, h, lost | ⟨outcome, found, rfl, one, many⟩⟩
    · rw [aim_cached h, lost]
    · rw [aim_cached h, found]
      simp only [(Outcome.one?_eq_none_iff outcome).mpr one,
        (Outcome.many?_eq_none_iff outcome).mpr many]

variable {named : Params}

theorem mapM_invoke_eq_ok_iff {entries : List Entry} {outcomes : List Outcome} :
    entries.mapM (fun e => r.invoke e step.method step.positional named) w = .ok outcomes w' ↔
      InvokesEach r step named entries w outcomes w' := by
  induction entries generalizing w outcomes with
  | nil =>
      rw [List.mapM_nil, Action.pure_apply]
      constructor
      · intro h
        cases h
        exact .nil
      · rintro ⟨⟩
        rfl
  | cons e entries ih =>
      rw [List.mapM_cons, Action.bind_eq_ok_iff]
      constructor
      · rintro ⟨outcome, w₁, head, tail⟩
        obtain ⟨rest, w₂, tail, last⟩ := Action.bind_eq_ok_iff.mp tail
        cases last
        exact .cons head (ih.mp tail)
      · rintro (_ | ⟨head, tail⟩)
        exact ⟨_, _, head, Action.bind_eq_ok_iff.mpr ⟨_, _, ih.mpr tail, rfl⟩⟩

theorem mapM_invoke_eq_error_iff {entries : List Entry} {error : Error} :
    entries.mapM (fun e => r.invoke e step.method step.positional named) w = .error error w' ↔
      ∃ done e rest outcomes w₁, entries = done ++ e :: rest ∧
        InvokesEach r step named done w outcomes w₁ ∧
        r.invoke e step.method step.positional named w₁ = .error error w' := by
  induction entries generalizing w with
  | nil =>
      rw [List.mapM_nil, Action.pure_apply]
      simp
  | cons e entries ih =>
      rw [List.mapM_cons, Action.bind_eq_error_iff]
      constructor
      · rintro (h | ⟨outcome, w₁, head, tail⟩)
        · exact ⟨[], e, entries, [], w, rfl, .nil, h⟩
        · rcases Action.bind_eq_error_iff.mp tail with tail | ⟨_, _, _, last⟩
          · obtain ⟨done, f, rest, outcomes, w₂, rfl, before, h⟩ := ih.mp tail
            exact ⟨e :: done, f, rest, outcome :: outcomes, w₂, rfl, .cons head before, h⟩
          · cases last
      · rintro ⟨done, f, rest, outcomes, w₁, split, before, h⟩
        cases before with
        | nil =>
            cases split
            exact .inl h
        | cons head tail =>
            cases split
            exact .inr ⟨_, _, head, Action.bind_eq_error_iff.mpr
              (.inl (ih.mpr ⟨_, _, _, _, _, rfl, tail, h⟩))⟩

theorem perform_iterating {run : Run} (h : run.iterating = true) :
    r.perform run step named =
      (run.target.entries.mapM fun e => r.invoke e step.method step.positional named) >>=
        fun outcomes => pure (.list outcomes) := by
  simp only [Registry.perform, h, if_true]

theorem perform_single {run : Run} {e : Entry} (h : run.iterating = false)
    (one : run.target = .one e) :
    r.perform run step named = r.invoke e step.method step.positional named := by
  simp only [Registry.perform, h, one, Bool.false_eq_true, if_false]

theorem perform_several {run : Run} {entries : List Entry} (h : run.iterating = false)
    (many : run.target = .many entries) :
    r.perform run step named = throw (step.needsSingleTarget entries) := by
  simp only [Registry.perform, h, many, Bool.false_eq_true, if_false]
  rfl

theorem performs_of_perform {run : Run} {answer : Except Error Outcome}
    (h : r.perform run step named w = Action.result answer w') :
    Performs r step named w run.iterating run.target answer w' := by
  cases hi : run.iterating with
  | true =>
      rw [perform_iterating hi] at h
      cases answer with
      | ok outcome =>
          obtain ⟨outcomes, w₁, each, last⟩ := Action.bind_eq_ok_iff.mp h
          cases last
          exact .each (mapM_invoke_eq_ok_iff.mp each)
      | error error =>
          rcases Action.bind_eq_error_iff.mp h with fails | ⟨_, _, _, last⟩
          · obtain ⟨_, _, _, _, _, at_, before, h⟩ := mapM_invoke_eq_error_iff.mp fails
            exact .eachFails at_ before h
          · cases last
  | false =>
      cases ht : run.target with
      | one e =>
          rw [perform_single hi ht] at h
          exact .single h
      | many entries =>
          rw [perform_several hi ht, Action.throw_apply] at h
          cases answer with
          | ok outcome => cases h
          | error error =>
              cases h
              exact .several

theorem perform_of_performs {run : Run} {answer : Except Error Outcome}
    (h : Performs r step named w run.iterating run.target answer w') :
    r.perform run step named w = Action.result answer w' := by
  cases hi : run.iterating with
  | true =>
      rw [hi] at h
      rw [perform_iterating hi]
      cases h with
      | each each => exact Action.bind_eq_ok_iff.mpr ⟨_, _, mapM_invoke_eq_ok_iff.mpr each, rfl⟩
      | eachFails at_ before h =>
          exact Action.bind_eq_error_iff.mpr
            (.inl (mapM_invoke_eq_error_iff.mpr ⟨_, _, _, _, _, at_, before, h⟩))
  | false =>
      rw [hi] at h
      cases ht : run.target with
      | one e =>
          rw [ht] at h
          rw [perform_single hi ht]
          cases h
          assumption
      | many entries =>
          rw [ht] at h
          rw [perform_several hi ht]
          cases h
          rfl

theorem perform_eq_result_iff {run : Run} {answer : Except Error Outcome} :
    r.perform run step named w = Action.result answer w' ↔
      Performs r step named w run.iterating run.target answer w' :=
  ⟨performs_of_perform, perform_of_performs⟩

theorem Performs.unique {iterating : Bool} {target : Target} {answer answer' : Except Error Outcome}
    {w₁ w₂ : World} (h : Performs r step named w iterating target answer w₁)
    (h' : Performs r step named w iterating target answer' w₂) : answer = answer' ∧ w₁ = w₂ := by
  let run : Run := { root := default, target, iterating }
  have first : r.perform run step named w = _ := perform_of_performs h
  have second : r.perform run step named w = _ := perform_of_performs h'
  exact Action.result_inj.mp (first.symm.trans second)

theorem runStep_apply (keepGoing : Bool) (run : Run) :
    r.runStep keepGoing run step w =
      match r.aim run step w with
      | .error error w₁ => .error error w₁
      | .ok run w₁ =>
        match r.keywordTree run.soFar.cache step w₁ with
        | .error error w₂ => .error error w₂
        | .ok named w₂ =>
          match r.perform run step named w₂ with
          | .ok outcome w₃ => .ok (run.advance step outcome) w₃
          | .error error w₃ =>
            if keepGoing && error.isRaised then .ok (run.passOver step error) w₃
            else .error error w₃ := by
  rw [Registry.runStep, Action.bind_apply]
  cases r.aim run step w with
  | error error w₁ => rfl
  | ok run w₁ =>
      dsimp only
      cases hk : r.keywordTree run.soFar.cache step w₁ with
      | error error w₂ => exact Action.bind_of_error hk _
      | ok named w₂ => exact Action.bind_of_ok hk _

/-- What the mode of a run stands for between two steps. -/
def ModeAgrees (root : Entry) (steps : List Step) (past : List Invoked) : Prop :=
  (Run.after root past).iterating = true ↔ past ≠ [] ∧ IteratesAt steps (past.length - 1)

theorem ModeAgrees.nil (root : Entry) (steps : List Step) : ModeAgrees root steps [] := by
  simp [ModeAgrees, Run.after]

variable {steps : List Step} {keepGoing : Bool}

theorem nextMode_iff (mode : ModeAgrees root steps past)
    (next : steps[past.length]? = some step) :
    Run.nextMode root past step = true ↔ IteratesAt steps past.length := by
  have split : Run.nextMode root past step = true ↔
      step.iterate = true ∨ step.restart ≠ .root ∧ past ≠ [] ∧ IteratesAt steps (past.length - 1) := by
    rw [ModeAgrees] at mode
    rw [← mode]
    by_cases h : step.restart = .root <;> simp [Run.nextMode, h, or_comm]
  rw [split]
  cases past with
  | nil => simp [iteratesAt_zero next]
  | cons x past => simp [iteratesAt_succ next]

theorem Executes.mode_agrees {x : Invoked} (h : Executes r root steps past w x w') :
    ModeAgrees root steps (past ++ [x]) := by
  have last : (Run.after root (past ++ [x])).iterating = x.iterating := by rw [Run.after_snoc]
  rw [ModeAgrees, last, h.mode]
  simp

theorem Executes.iterating_eq {x : Invoked} (mode : ModeAgrees root steps past)
    (h : Executes r root steps past w x w') : x.iterating = Run.nextMode root past x.step := by
  rw [Bool.eq_iff_iff]
  exact h.mode.trans (nextMode_iff mode h.next).symm

/-- The run performs a step that the rule executes on the target that the rule gives it. -/
theorem Executes.performed {x : Invoked} (mode : ModeAgrees root steps past)
    (h : Executes r root steps past w x w') :
    ∃ w₁ named w₂, Aims r root past x.step w x.target w₁ ∧
      r.keywordTree (History.bindings past) x.step w₁ = .ok named w₂ ∧
      r.perform (aimed root past x.step x.target) x.step named w₂ = Action.result x.result w' := by
  obtain ⟨w₁, named, w₂, aims, keywords, performs⟩ := h.run
  rw [h.iterating_eq mode] at performs
  exact ⟨w₁, named, w₂, aims, keywords, perform_of_performs performs⟩

/-- A step that the rule executes leads to the state of one more step, or ends the run. -/
theorem runStep_of_executes {x : Invoked} (mode : ModeAgrees root steps past)
    (h : Executes r root steps past w x w') :
    r.runStep keepGoing (Run.after root past) x.step w =
      match x.result with
      | .ok _ => .ok (Run.after root (past ++ [x])) w'
      | .error error =>
        if keepGoing && error.isRaised then .ok (Run.after root (past ++ [x])) w'
        else .error error w' := by
  obtain ⟨w₁, named, w₂, aims, keywords, performed⟩ := h.performed mode
  obtain ⟨step, target, iterating, answer⟩ := x
  obtain rfl : iterating = Run.nextMode root past step := h.iterating_eq mode
  rw [runStep_apply, aim_of_aims aims]
  dsimp only
  rw [show r.keywordTree (aimed root past step target).soFar.cache step w₁ = _ from keywords]
  dsimp only
  rw [performed]
  cases answer with
  | ok outcome => simp only [Action.result, Run.advance_aimed]
  | error error => simp only [Action.result, Run.passOver_aimed]

theorem executes_or_ends (keepGoing : Bool) (mode : ModeAgrees root steps past)
    (next : steps[past.length]? = some step) :
    (∃ x w', x.step = step ∧ Executes r root steps past w x w') ∨
      ∃ error w', Ends r root steps keepGoing past w error w' ∧
        r.runStep keepGoing (Run.after root past) step w = .error error w' := by
  cases ha : r.aim (Run.after root past) step w with
  | error error w₁ =>
      refine .inr ⟨error, w₁, ?_, by rw [runStep_apply, ha]⟩
      obtain ⟨reference, h, lost | ⟨outcome, found, rfl, one, many⟩⟩ := aim_eq_error_iff.mp ha
      · exact .noResult next h lost
      · exact .noEntry next h found one many
  | ok run w₁ =>
      obtain ⟨target, aims, rfl⟩ := aims_of_aim ha
      cases hk : r.keywordTree (History.bindings past) step w₁ with
      | error error w₂ =>
          refine .inr ⟨error, w₂, .noKeyword next aims hk, ?_⟩
          rw [runStep_apply, ha]
          dsimp only
          rw [show r.keywordTree (aimed root past step target).soFar.cache step w₁ = _ from hk]
      | ok named w₂ =>
          have performs := performs_of_perform
            (Action.eq_result (r.perform (aimed root past step target) step named) w₂)
          exact .inl ⟨⟨step, target, Run.nextMode root past step, _⟩, _, rfl, next,
            nextMode_iff mode next, w₁, named, w₂, aims, hk, performs⟩

theorem runStep_eq_ok_iff {run : Run} (mode : ModeAgrees root steps past)
    (next : steps[past.length]? = some step) :
    r.runStep keepGoing (Run.after root past) step w = .ok run w' ↔
      ∃ x, Executes r root steps past w x w' ∧ x.Passes keepGoing ∧
        run = Run.after root (past ++ [x]) := by
  constructor
  · intro ok
    rcases executes_or_ends (r := r) (w := w) keepGoing mode next with
      ⟨x, w₁, rfl, h⟩ | ⟨error, w₁, -, fails⟩
    · rw [runStep_of_executes mode h] at ok
      split at ok
      · rename_i done
        cases ok
        exact ⟨x, h, fun e failed => (by rw [done] at failed; cases failed), rfl⟩
      · rename_i error failed
        split at ok
        · rename_i raised
          cases ok
          refine ⟨x, h, fun e failed' => ?_, rfl⟩
          cases failed.symm.trans failed'
          simpa using raised
        · cases ok
    · cases fails.symm.trans ok
  · rintro ⟨x, h, passes, rfl⟩
    obtain rfl : step = x.step := Option.some.inj (next.symm.trans h.next)
    rw [runStep_of_executes mode h]
    split
    · rfl
    · rename_i error failed
      obtain ⟨going, raised⟩ := passes error failed
      rw [going, raised]
      rfl

theorem runStep_eq_error_iff {error : Error} (mode : ModeAgrees root steps past)
    (next : steps[past.length]? = some step) :
    r.runStep keepGoing (Run.after root past) step w = .error error w' ↔
      Ends r root steps keepGoing past w error w' := by
  constructor
  · intro fails
    rcases executes_or_ends (r := r) (w := w) keepGoing mode next with
      ⟨x, w₁, rfl, h⟩ | ⟨error', w₁, ends, fails'⟩
    · rw [runStep_of_executes mode h] at fails
      split at fails
      · cases fails
      · rename_i error' failed
        split at fails
        · cases fails
        · rename_i stops
          cases fails
          refine .fails h failed fun passes => stops ?_
          simpa using passes error failed
    · cases fails'.symm.trans fails
      exact ends
  · intro ends
    cases ends with
    | noResult next' h lost =>
        cases next.symm.trans next'
        rw [runStep_apply, aim_eq_error_iff.mpr ⟨_, h, .inl lost⟩]
    | noEntry next' h found one many =>
        cases next.symm.trans next'
        rw [runStep_apply, aim_eq_error_iff.mpr ⟨_, h, .inr ⟨_, found, rfl, one, many⟩⟩]
    | noKeyword next' aims lost =>
        cases next.symm.trans next'
        rw [runStep_apply, aim_of_aims aims]
        dsimp only
        rw [show r.keywordTree (aimed root past step _).soFar.cache step _ = _ from lost]
    | fails last failed stops =>
        rename_i x
        cases next.symm.trans last.next
        rw [runStep_of_executes mode last, failed]
        refine if_neg fun passed => stops fun e failed' => ?_
        cases failed.symm.trans failed'
        simpa using passed

/-! ### Whole runs -/

theorem Executes.unique {x y : Invoked} {w₁ w₂ : World}
    (h : Executes r root steps past w x w₁) (h' : Executes r root steps past w y w₂) :
    x = y ∧ w₁ = w₂ := by
  obtain ⟨step, target, iterating, answer⟩ := x
  obtain ⟨step', target', iterating', answer'⟩ := y
  obtain ⟨next, inMode, _, _, _, aims, keywords, performs⟩ := h
  obtain ⟨next', inMode', _, _, _, aims', keywords', performs'⟩ := h'
  cases next.symm.trans next'
  obtain rfl : iterating = iterating' := by
    rw [Bool.eq_iff_iff]
    exact inMode.trans inMode'.symm
  have aimed_eq := (aim_of_aims aims).symm.trans (aim_of_aims aims')
  simp only [EStateM.Result.ok.injEq, aimed, Run.mk.injEq] at aimed_eq
  obtain ⟨⟨-, rfl, -⟩, rfl⟩ := aimed_eq
  cases keywords.symm.trans keywords'
  obtain ⟨rfl, rfl⟩ := performs.unique performs'
  exact ⟨rfl, rfl⟩

theorem next_of_drop {rest : List Step} (left : steps.drop past.length = step :: rest) :
    steps[past.length]? = some step := by
  have first : (steps.drop past.length)[0]? = some step := by rw [left]; rfl
  simpa using first

theorem drop_of_drop {rest : List Step} (left : steps.drop past.length = step :: rest)
    (x : Invoked) : steps.drop (past ++ [x]).length = rest := by
  have tail : (steps.drop past.length).tail = rest := by rw [left]; rfl
  simpa using tail

theorem foldlM_runStep_eq_ok_iff {rest : List Step} {run : Run} (mode : ModeAgrees root steps past)
    (left : steps.drop past.length = rest) :
    rest.foldlM (r.runStep keepGoing) (Run.after root past) w = .ok run w' ↔
      ∃ more, History r root steps keepGoing past w more w' ∧ more.length = rest.length ∧
        run = Run.after root (past ++ more) := by
  induction rest generalizing past w with
  | nil =>
      rw [List.foldlM_nil, Action.pure_apply]
      constructor
      · intro ok
        cases ok
        exact ⟨[], .done, rfl, by rw [List.append_nil]⟩
      · rintro ⟨more, history, length, rfl⟩
        cases List.length_eq_zero_iff.mp length
        cases history
        rw [List.append_nil]
  | cons step rest ih =>
      have next := next_of_drop left
      rw [List.foldlM_cons, Action.bind_eq_ok_iff]
      constructor
      · rintro ⟨run₁, w₁, head, tail⟩
        obtain ⟨x, executes, passes, rfl⟩ := (runStep_eq_ok_iff mode next).mp head
        obtain ⟨more, history, length, rfl⟩ :=
          (ih executes.mode_agrees (drop_of_drop left x)).mp tail
        exact ⟨x :: more, .step executes passes history, by simp [length],
          by rw [List.append_assoc, List.singleton_append]⟩
      · rintro ⟨more, history, length, rfl⟩
        cases history with
        | done => simp at length
        | step executes passes history =>
            rename_i x w₁ more
            refine ⟨_, w₁, (runStep_eq_ok_iff mode next).mpr ⟨x, executes, passes, rfl⟩, ?_⟩
            refine (ih executes.mode_agrees (drop_of_drop left x)).mpr ⟨more, history, ?_, ?_⟩
            · simpa using length
            · rw [List.append_assoc, List.singleton_append]

theorem foldlM_runStep_eq_error_iff {rest : List Step} {error : Error}
    (mode : ModeAgrees root steps past) (left : steps.drop past.length = rest) :
    rest.foldlM (r.runStep keepGoing) (Run.after root past) w = .error error w' ↔
      ∃ more w₁, History r root steps keepGoing past w more w₁ ∧
        Ends r root steps keepGoing (past ++ more) w₁ error w' := by
  induction rest generalizing past w with
  | nil =>
      rw [List.foldlM_nil, Action.pure_apply]
      constructor
      · rintro ⟨⟩
      rintro ⟨more, w₁, -, ends⟩
      obtain ⟨step, next⟩ := ends.next
      have short : steps.length ≤ past.length := List.drop_eq_nil_iff.mp left
      obtain ⟨long, -⟩ := List.getElem?_eq_some_iff.mp next
      rw [List.length_append] at long
      omega
  | cons step rest ih =>
      have next := next_of_drop left
      rw [List.foldlM_cons, Action.bind_eq_error_iff]
      constructor
      · rintro (fails | ⟨run₁, w₁, head, tail⟩)
        · refine ⟨[], w, .done, ?_⟩
          rw [List.append_nil]
          exact (runStep_eq_error_iff mode next).mp fails
        · obtain ⟨x, executes, passes, rfl⟩ := (runStep_eq_ok_iff mode next).mp head
          obtain ⟨more, w₂, history, ends⟩ :=
            (ih executes.mode_agrees (drop_of_drop left x)).mp tail
          refine ⟨x :: more, w₂, .step executes passes history, ?_⟩
          rwa [List.append_assoc, List.singleton_append] at ends
      · rintro ⟨more, w₁, history, ends⟩
        cases history with
        | done =>
            rw [List.append_nil] at ends
            exact .inl ((runStep_eq_error_iff mode next).mpr ends)
        | step executes passes history =>
            rename_i x w₂ more
            refine .inr ⟨_, w₂, (runStep_eq_ok_iff mode next).mpr ⟨x, executes, passes, rfl⟩, ?_⟩
            refine (ih executes.mode_agrees (drop_of_drop left x)).mpr ⟨more, w₁, history, ?_⟩
            rwa [List.append_assoc, List.singleton_append]

/-- There is one history of each length. -/
theorem History.unique {more more' : List Invoked} {w₁ w₂ : World}
    (h : History r root steps keepGoing past w more w₁)
    (h' : History r root steps keepGoing past w more' w₂) (length : more.length = more'.length) :
    more = more' ∧ w₁ = w₂ := by
  induction h generalizing more' with
  | done =>
      cases h' with
      | done => exact ⟨rfl, rfl⟩
      | step => simp at length
  | step executes passes history ih =>
      cases h' with
      | done => simp at length
      | step executes' passes' history' =>
          obtain ⟨rfl, rfl⟩ := executes.unique executes'
          obtain ⟨rfl, rfl⟩ := ih history' (by simpa using length)
          exact ⟨rfl, rfl⟩

end

theorem workingCollection_world {r : Registry} {w w' : World} {root : Entry}
    (h : r.workingCollection w = .ok root w') : w' = w := by
  cases hr : r.roots <;> simp only [Registry.workingCollection, hr] at h <;> cases h
  rfl

theorem execute_of_error {r : Registry} {w w' : World} {error : Error} (keepGoing : Bool)
    (plan : List Step) (h : r.workingCollection w = .error error w') :
    r.execute keepGoing plan w = .error error w' :=
  Action.bind_of_error h _

theorem execute_of_root {r : Registry} {w : World} {root : Entry} (keepGoing : Bool)
    (plan : List Step) (h : r.workingCollection w = .ok root w) :
    r.execute keepGoing plan w =
      (((Plan.orHelp plan).foldlM (r.runStep keepGoing) (Run.after root [])) >>=
        fun run => pure run.soFar) w :=
  Action.bind_of_ok h _

theorem execute_eq_ok_iff (r : Registry) (keepGoing : Bool) (plan : List Step)
    {execution : Execution} {w w' : World} : r.execute keepGoing plan w = .ok execution w' ↔
      ∃ root past, r.workingCollection w = .ok root w ∧
        History r root (Plan.orHelp plan) keepGoing [] w past w' ∧
        past.length = (Plan.orHelp plan).length ∧ execution = History.summary past := by
  cases hr : r.workingCollection w with
  | error e w₁ => simp [execute_of_error keepGoing plan hr]
  | ok root w₁ =>
      obtain rfl := workingCollection_world hr
      rw [execute_of_root keepGoing plan hr, Action.bind_eq_ok_iff]
      constructor
      · rintro ⟨run, w₂, ok, last⟩
        cases last
        obtain ⟨past, history, length, rfl⟩ :=
          (foldlM_runStep_eq_ok_iff (.nil root (Plan.orHelp plan)) rfl).mp ok
        exact ⟨root, past, rfl, history, length, rfl⟩
      · rintro ⟨root', past, same, history, length, rfl⟩
        cases same
        exact ⟨_, w', (foldlM_runStep_eq_ok_iff (.nil root (Plan.orHelp plan)) rfl).mpr
          ⟨past, history, length, rfl⟩, rfl⟩

theorem execute_eq_error_iff (r : Registry) (keepGoing : Bool) (plan : List Step)
    {error : Error} {w w' : World} : r.execute keepGoing plan w = .error error w' ↔
      r.workingCollection w = .error error w' ∨
      ∃ root past w₁, r.workingCollection w = .ok root w ∧
        History r root (Plan.orHelp plan) keepGoing [] w past w₁ ∧
        Ends r root (Plan.orHelp plan) keepGoing past w₁ error w' := by
  cases hr : r.workingCollection w with
  | error e w₁ => simp [execute_of_error keepGoing plan hr]
  | ok root w₁ =>
      obtain rfl := workingCollection_world hr
      rw [execute_of_root keepGoing plan hr, Action.bind_eq_error_iff]
      constructor
      · rintro (fails | ⟨_, _, _, last⟩)
        · obtain ⟨past, w₂, history, ends⟩ :=
            (foldlM_runStep_eq_error_iff (.nil root (Plan.orHelp plan)) rfl).mp fails
          exact .inr ⟨root, past, w₂, rfl, history, ends⟩
        · cases last
      · rintro (none | ⟨root', past, w₂, same, history, ends⟩)
        · cases none
        · cases same
          exact .inl ((foldlM_runStep_eq_error_iff (.nil root (Plan.orHelp plan)) rfl).mpr
            ⟨past, w₂, history, ends⟩)

/-- An execution follows the target rule, step by step and up to its end. It succeeds exactly when
the whole plan has a history, and then returns the summary of it; it fails exactly when there is no
collection to work in or some history of its first steps is ended. Histories are unique, so each
step that is executed has one mode, one target and one outcome. -/
theorem execute_follows_rule (r : Registry) (keepGoing : Bool) (plan : List Step) (w : World) :
    let steps := Plan.orHelp plan
    (∀ execution w', r.execute keepGoing plan w = .ok execution w' ↔
      ∃ root past, r.workingCollection w = .ok root w ∧
        History r root steps keepGoing [] w past w' ∧ past.length = steps.length ∧
        execution = History.summary past) ∧
    (∀ error w', r.execute keepGoing plan w = .error error w' ↔
      r.workingCollection w = .error error w' ∨
      ∃ root past w₁, r.workingCollection w = .ok root w ∧
        History r root steps keepGoing [] w past w₁ ∧
        Ends r root steps keepGoing past w₁ error w') ∧
    ∀ root past past' w₁ w₂, History r root steps keepGoing [] w past w₁ →
      History r root steps keepGoing [] w past' w₂ → past.length = past'.length →
      past = past' ∧ w₁ = w₂ := by
  intro steps
  refine ⟨?_, ?_, ?_⟩
  · intro execution w'
    exact execute_eq_ok_iff r keepGoing plan
  · intro error w'
    exact execute_eq_error_iff r keepGoing plan
  · intro root past past' w₁ w₂ h h' length
    exact h.unique h' length

end Lineage
