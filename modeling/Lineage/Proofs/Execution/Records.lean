import Lineage.Proofs.Execution.Refinement
import Lineage.Proofs.Table

/-!
What a history keeps of its steps: the labelled outcomes, the failures and the result. They are made
step by step; here they are told without that, by the last step that bears a label and by the steps
that failed. And a history can be cut at any step: that step is executed behind those before it.
-/
namespace Lineage

open Action

/-- The label under which the outcome of a step is kept: its own, if the step succeeded. -/
def Invoked.label? (x : Invoked) : Option String :=
  match x.result with
  | .ok _ => x.step.label
  | .error _ => none

namespace History

/-- The last step that bears a label and succeeded has an outcome. -/
def Last (past : List Invoked) (label : String) (outcome : Outcome) : Prop :=
  ∃ before x after, past = before ++ x :: after ∧ x.label? = some label ∧ x.result = .ok outcome ∧
    label ∉ after.filterMap Invoked.label?

/-- A table holds the last outcome of every label, in the order in which labels were first kept. -/
structure Caches (past : List Invoked) (cache : Table String Outcome) : Prop where
  labels : Table.keys cache = (past.filterMap Invoked.label?).eraseDups
  last : ∀ label outcome, Table.get? cache label = some outcome ↔ Last past label outcome

/-- Failures are those of the steps, in the order of the steps. -/
structure Records (past : List Invoked) (failures : List Failure) : Prop where
  failed : ∀ f, f ∈ failures ↔ ∃ x, past[f.index]? = some x ∧ x.result = .error f.error ∧
    f.method = x.step.method
  ordered : failures.Pairwise fun f g => f.index < g.index

end History

/-! ### What one step keeps -/

namespace Invoked

variable {x : Invoked} {cache : Table String Outcome}

theorem label?_eq_some_iff {label : String} : x.label? = some label ↔
    x.step.label = some label ∧ ∃ outcome, x.result = .ok outcome := by
  cases h : x.result <;> simp [label?, h]

theorem bind_of_unlabelled (h : x.label? = none) : x.bind cache = cache := by
  rw [bind]
  split
  · rename_i bears succeeded
    cases h.symm.trans (label?_eq_some_iff.mpr ⟨bears, _, succeeded⟩)
  · rfl

theorem mem_failure_iff {position : Nat} {f : Failure} : f ∈ x.failure position ↔
    f.index = position ∧ x.result = .error f.error ∧ f.method = x.step.method := by
  obtain ⟨index, method, error⟩ := f
  rw [failure]
  split
  · rename_i succeeded
    simp [succeeded]
  · rename_i failed
    rw [List.mem_singleton, failed, Failure.mk.injEq, Except.error.injEq]
    constructor
    · rintro ⟨rfl, rfl, rfl⟩
      exact ⟨rfl, rfl, rfl⟩
    · rintro ⟨rfl, rfl, rfl⟩
      exact ⟨rfl, rfl, rfl⟩

end Invoked

namespace History

variable {past : List Invoked} {x : Invoked} {label : String} {outcome : Outcome}

/-! ### Labels -/

theorem labels_snoc (past : List Invoked) (x : Invoked) : (past ++ [x]).filterMap Invoked.label? =
    past.filterMap Invoked.label? ++ x.label?.toList := by
  rw [List.filterMap_append]
  cases h : x.label? <;> simp [h]

theorem last_snoc_iff : Last (past ++ [x]) label outcome ↔
    x.label? = some label ∧ x.result = .ok outcome ∨
      x.label? ≠ some label ∧ Last past label outcome := by
  constructor
  · rintro ⟨before, y, after, split, bears, succeeded, unused⟩
    -- The new step is the one in question, or the last of those behind it.
    induction after using List.reverseRecOn with
    | nil =>
        obtain ⟨-, same⟩ := List.append_inj' split rfl
        cases same
        exact .inl ⟨bears, succeeded⟩
    | append_singleton after z _ =>
        rw [← List.cons_append, ← List.append_assoc] at split
        obtain ⟨rfl, same⟩ := List.append_inj' split rfl
        cases same
        rw [labels_snoc, List.mem_append, Option.mem_toList, not_or] at unused
        exact .inr ⟨unused.2, before, y, after, rfl, bears, succeeded, unused.1⟩
  · rintro (⟨bears, succeeded⟩ | ⟨other, before, y, after, rfl, bears, succeeded, unused⟩)
    · exact ⟨past, x, [], rfl, bears, succeeded, List.not_mem_nil⟩
    · refine ⟨before, y, after ++ [x], by simp, bears, succeeded, ?_⟩
      rw [labels_snoc, List.mem_append, Option.mem_toList, not_or]
      exact ⟨unused, other⟩

theorem Caches.nil : Caches [] [] where
  labels := rfl
  last label outcome := by
    refine iff_of_false (by simp [Table.get?]) ?_
    rintro ⟨before, x, after, split, -⟩
    simp at split

/-- One more step keeps its outcome if it is labelled and succeeds, and nothing otherwise. -/
theorem Caches.snoc {cache : Table String Outcome} (h : Caches past cache) (x : Invoked) :
    Caches (past ++ [x]) (x.bind cache) := by
  cases kept : x.label? with
  | none =>
      rw [Invoked.bind_of_unlabelled kept]
      refine ⟨by rw [labels_snoc, kept, Option.toList_none, List.append_nil, h.labels], ?_⟩
      intro label outcome
      rw [last_snoc_iff, h.last, kept]
      simp
  | some label =>
      obtain ⟨bears, outcome, succeeded⟩ := Invoked.label?_eq_some_iff.mp kept
      have inserted : x.bind cache = Table.insert cache label outcome := by
        rw [Invoked.bind, bears, succeeded]
      rw [inserted]
      constructor
      · rw [labels_snoc, kept, Option.toList_some, Table.eraseDups_snoc, Table.keys_insert, h.labels]
        simp only [List.mem_eraseDups]
      · intro other outcome'
        rw [last_snoc_iff, Table.get?_insert, kept, succeeded]
        by_cases same : label = other
        · simp [same]
        · simp [same, h.last]

theorem caches_bindings (past : List Invoked) : Caches past (bindings past) := by
  induction past using List.reverseRecOn with
  | nil => exact .nil
  | append_singleton past x ih =>
      have last : bindings (past ++ [x]) = x.bind (bindings past) := by
        rw [bindings, List.foldl_append]
        rfl
      rw [last]
      exact ih.snoc x

/-! ### Failures and the result -/

theorem getElem?_snoc {i : Nat} {y : Invoked} :
    (past ++ [x])[i]? = some y ↔ past[i]? = some y ∨ i = past.length ∧ x = y := by
  rw [List.getElem?_append]
  split
  · rename_i lt
    simp [Nat.ne_of_lt lt]
  · rename_i ge
    have le := Nat.le_of_not_lt ge
    rw [List.getElem?_eq_none le, List.getElem?_singleton]
    by_cases eq : i = past.length
    · simp [eq]
    · simp [eq, show i - past.length ≠ 0 by omega]

theorem Records.nil : Records [] [] where
  failed f := by simp
  ordered := .nil

theorem Records.lt {failures : List Failure} (h : Records past failures) {f : Failure}
    (mem : f ∈ failures) : f.index < past.length := by
  obtain ⟨x, at_, -⟩ := (h.failed f).mp mem
  exact (List.getElem?_eq_some_iff.mp at_).1

theorem Records.snoc {failures : List Failure} (h : Records past failures) (x : Invoked) :
    Records (past ++ [x]) (failures ++ x.failure past.length) where
  failed f := by
    rw [List.mem_append, h.failed, Invoked.mem_failure_iff]
    simp only [getElem?_snoc]
    constructor
    · rintro (⟨y, earlier, failed, method⟩ | ⟨last, failed, method⟩)
      · exact ⟨y, .inl earlier, failed, method⟩
      · exact ⟨x, .inr ⟨last, rfl⟩, failed, method⟩
    · rintro ⟨y, earlier | ⟨last, rfl⟩, failed, method⟩
      · exact .inl ⟨y, earlier, failed, method⟩
      · exact .inr ⟨last, failed, method⟩
  ordered := by
    refine List.pairwise_append.mpr ⟨h.ordered, ?_, fun f mem g last => ?_⟩
    · rw [Invoked.failure]
      split
      · exact .nil
      · exact List.pairwise_singleton _ _
    · rw [(Invoked.mem_failure_iff.mp last).1]
      exact h.lt mem

theorem records_failures (past : List Invoked) : Records past (failures past) := by
  induction past using List.reverseRecOn with
  | nil => exact .nil
  | append_singleton past x ih =>
      rw [Run.failures_snoc]
      exact ih.snoc x

/-- A step is among the failures, or it succeeded. -/
theorem Records.failed_iff {failures : List Failure} (h : Records past failures) {i : Nat}
    (at_ : past[i]? = some x) :
    (∃ f ∈ failures, f.index = i) ↔ ∀ outcome, x.result ≠ .ok outcome := by
  constructor
  · rintro ⟨f, mem, rfl⟩ outcome succeeded
    obtain ⟨y, same, failed, -⟩ := (h.failed f).mp mem
    cases at_.symm.trans same
    cases succeeded.symm.trans failed
  · intro unsuccessful
    cases failed : x.result with
    | ok outcome => exact absurd failed (unsuccessful outcome)
    | error error => exact ⟨⟨i, x.step.method, error⟩, (h.failed _).mpr ⟨x, at_, failed, rfl⟩, rfl⟩

theorem lastOutcome_cases (last : past.getLast? = some x) :
    x.result = .ok (lastOutcome past) ∨
      lastOutcome past = .null ∧ ∀ outcome, x.result ≠ .ok outcome := by
  rw [lastOutcome, last, Option.map_some]
  cases h : x.result with
  | ok outcome => exact .inl rfl
  | error error => exact .inr ⟨rfl, by simp⟩

/-! ### The steps of a history -/

section

variable {r : Registry} {root : Entry} {steps : List Step} {keepGoing : Bool} {more : List Invoked}
  {w w' : World}

/-- Each step of a history is executed behind those before it. -/
theorem executes_at (h : History r root steps keepGoing past w more w') {i : Nat}
    (at_ : more[i]? = some x) : ∃ w₁ w₂, History r root steps keepGoing past w (more.take i) w₁ ∧
      Executes r root steps (past ++ more.take i) w₁ x w₂ := by
  induction h generalizing i with
  | done => simp at at_
  | step head passes _ ih =>
      cases i with
      | zero =>
          cases at_
          rw [List.take_zero, List.append_nil]
          exact ⟨_, _, .done, head⟩
      | succ i =>
          obtain ⟨w₁, w₂, before, executes⟩ := ih at_
          rw [List.append_assoc, List.singleton_append] at executes
          exact ⟨w₁, w₂, .step head passes before, executes⟩

theorem map_step_eq (h : History r root steps keepGoing [] w past w')
    (length : past.length = steps.length) : past.map Invoked.step = steps := by
  refine List.ext_getElem (by rw [List.length_map, length]) fun i lt lt' => ?_
  rw [List.length_map] at lt
  obtain ⟨w₁, w₂, -, executes⟩ := executes_at h (List.getElem?_eq_getElem lt)
  have next := executes.next
  rw [List.nil_append, List.length_take, Nat.min_eq_left (Nat.le_of_lt lt),
    List.getElem?_eq_getElem lt'] at next
  rw [List.getElem_map, Option.some.inj next]

theorem mode_agrees (mode : ModeAgrees root steps past)
    (h : History r root steps keepGoing past w more w') : ModeAgrees root steps (past ++ more) := by
  induction h with
  | done => rwa [List.append_nil]
  | step head _ _ ih =>
      have last := ih head.mode_agrees
      rwa [List.append_assoc, List.singleton_append] at last

/-- The steps of a history, run one after the other. The history need not go through the whole plan. -/
theorem foldlM_runStep (mode : ModeAgrees root steps past)
    (h : History r root steps keepGoing past w more w') :
    (more.map Invoked.step).foldlM (r.runStep keepGoing) (Run.after root past) w =
      .ok (Run.after root (past ++ more)) w' := by
  induction h with
  | done => rw [List.append_nil]; rfl
  | step head passes _ ih =>
      rw [List.map_cons, List.foldlM_cons,
        bind_of_ok ((runStep_eq_ok_iff mode head.next).mpr ⟨_, head, passes, rfl⟩),
        ih head.mode_agrees, List.append_assoc, List.singleton_append]

theorem cachedTarget_of_aims {step : Step} {target : Target} {reference : List String}
    (aims : Aims r root past step w target w') (cached : step.restart = .cached reference) :
    r.cachedTarget (bindings past) reference w = .ok target w' := by
  cases aims with
  | root other | entry other | offered other | left other => cases cached.symm.trans other
  | cachedEntry same found =>
      cases cached.symm.trans same
      rw [cachedTarget_apply, found]
      rfl
  | cachedEntries same ne found =>
      cases cached.symm.trans same
      rw [cachedTarget_apply, found]
      simp only [Outcome.one?, (Outcome.many?_eq_some_iff _ _).mpr ⟨ne, rfl⟩]

end
end History
end Lineage
