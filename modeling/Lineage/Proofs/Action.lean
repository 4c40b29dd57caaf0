import Lineage.Registry.Basic

/-!
Steps in a world, taken apart: what a sequence of steps did is what its parts did one after the
other, and what a loop did is what its steps did until one of them answered. These are the equations
by which later modules read a `do` block.
-/
namespace Lineage.Action

variable {α β : Type}

/-- What an action answers, with the world that it leaves. -/
def result (answer : Except Error α) (w : World) : EStateM.Result Error World α :=
  match answer with
  | .ok a => .ok a w
  | .error e => .error e w

/-- The world after an action, whether or not it failed. -/
def after (act : Action α) (w : World) : World :=
  match act w with
  | .ok _ w' => w'
  | .error _ w' => w'

/-- The answer of an action, whatever world it leaves. -/
def value (act : Action α) (w : World) : Except Error α :=
  match act w with
  | .ok a _ => .ok a
  | .error e _ => .error e

theorem eq_result (act : Action α) (w : World) : act w = result (value act w) (after act w) := by
  rw [value, after]
  cases act w <;> rfl

theorem result_inj {a b : Except Error α} {w w' : World} :
    result a w = result b w' ↔ a = b ∧ w = w' := by
  cases a <;> cases b <;> simp [result]

theorem ok_eq_result {a : α} {answer : Except Error α} {w w' : World} :
    (.ok a w : EStateM.Result Error World α) = result answer w' ↔ answer = .ok a ∧ w' = w := by
  cases answer <;> simp [result, eq_comm]

theorem error_eq_result {e : Error} {answer : Except Error α} {w w' : World} :
    (.error e w : EStateM.Result Error World α) = result answer w' ↔
      answer = .error e ∧ w' = w := by
  cases answer <;> simp [result, eq_comm]

theorem bind_apply (act : Action α) (next : α → Action β) (w : World) :
    (act >>= next) w = match act w with
      | .ok a w₁ => next a w₁
      | .error e w₁ => .error e w₁ := by
  change EStateM.bind act next w = _
  rw [EStateM.bind]
  cases act w <;> rfl

theorem value_bind (act : Action α) (next : α → Action β) (w : World) :
    value (act >>= next) w = match value act w with
      | .ok a => value (next a) (after act w)
      | .error e => .error e := by
  simp only [value, after]
  rw [bind_apply]
  cases act w <;> rfl

theorem after_bind (act : Action α) (next : α → Action β) (w : World) :
    after (act >>= next) w = match act w with
      | .ok a w₁ => after (next a) w₁
      | .error _ w₁ => w₁ := by
  rw [after, bind_apply]
  cases act w <;> rfl

theorem after_of_result {act : Action α} {answer : Except Error α} {w w' : World}
    (h : act w = result answer w') : after act w = w' := by
  rw [after, h]
  cases answer <;> rfl

theorem bind_of_ok {act : Action α} {w w₁ : World} {a : α} (h : act w = .ok a w₁)
    (next : α → Action β) : (act >>= next) w = next a w₁ := by
  rw [bind_apply, h]

theorem bind_of_error {act : Action α} {w w₁ : World} {e : Error} (h : act w = .error e w₁)
    (next : α → Action β) : (act >>= next) w = .error e w₁ := by
  rw [bind_apply, h]

theorem bind_eq_ok_iff {act : Action α} {next : α → Action β} {w w' : World} {b : β} :
    (act >>= next) w = .ok b w' ↔ ∃ a w₁, act w = .ok a w₁ ∧ next a w₁ = .ok b w' := by
  rw [bind_apply]
  cases act w <;> simp [and_assoc]

theorem bind_eq_error_iff {act : Action α} {next : α → Action β} {w w' : World} {e : Error} :
    (act >>= next) w = .error e w' ↔
      act w = .error e w' ∨ ∃ a w₁, act w = .ok a w₁ ∧ next a w₁ = .error e w' := by
  rw [bind_apply]
  cases act w <;> simp [and_assoc]

/-- Where two actions in a row end and what they answer, from the first one and from what comes after
its answer. -/
theorem bind_rule {act : Action α} {next : α → Action β} {w : World} {M : World → Prop}
    {S : β → World → Prop} (first : M (after act w))
    (later : ∀ a w₁, act w = .ok a w₁ →
      M (after (next a) w₁) ∧ ∀ b w', next a w₁ = .ok b w' → S b w') :
    M (after (act >>= next) w) ∧ ∀ b w', (act >>= next) w = .ok b w' → S b w' := by
  refine ⟨?_, fun b w' hb => ?_⟩
  · rw [after_bind]
    cases ha : act w with
    | ok a w₁ => exact (later a w₁ ha).1
    | error e w₁ =>
        rw [after, ha] at first
        exact first
  · obtain ⟨a, w₁, ha, hb⟩ := bind_eq_ok_iff.mp hb
    exact (later a w₁ ha).2 b w' hb

theorem pure_apply (a : α) (w : World) : (pure a : Action α) w = .ok a w := rfl

theorem throw_apply (e : Error) (w : World) : (throw e : Action α) w = .error e w := rfl

theorem get_apply (w : World) : (get : Action World) w = .ok w w := rfl

/-! ### Folds -/

theorem foldlM_keeps {I : β → Prop} {f : β → α → Action β}
    (keeps : ∀ b x w b' w', I b → f b x w = .ok b' w' → I b') {xs : List α} {b b' : β}
    {w w' : World} (start : I b) (h : xs.foldlM f b w = .ok b' w') : I b' := by
  induction xs generalizing b w with
  | nil =>
      cases h
      exact start
  | cons x xs ih =>
      rw [List.foldlM_cons] at h
      obtain ⟨b₁, w₁, head, tail⟩ := bind_eq_ok_iff.mp h
      exact ih (keeps b x w b₁ w₁ start head) tail

theorem length_of_mapM {f : α → Action β} {xs : List α} {ys : List β} {w w' : World}
    (h : xs.mapM f w = .ok ys w') : ys.length = xs.length := by
  induction xs generalizing ys w with
  | nil =>
      cases h
      rfl
  | cons x xs ih =>
      rw [List.mapM_cons] at h
      obtain ⟨y, w₁, -, h⟩ := bind_eq_ok_iff.mp h
      obtain ⟨ys, w₂, tail, last⟩ := bind_eq_ok_iff.mp h
      cases last
      rw [List.length_cons, List.length_cons, ih tail]

/-- What went through for a list went through for each of its elements, in some world. -/
theorem ok_of_mem_mapM {f : α → Action β} {xs : List α} {ys : List β} {w w' : World} {x : α}
    (h : xs.mapM f w = .ok ys w') (mem : x ∈ xs) : ∃ y w₁ w₂, f x w₁ = .ok y w₂ := by
  induction xs generalizing ys w w' with
  | nil => cases mem
  | cons x₀ xs ih =>
      rw [List.mapM_cons] at h
      obtain ⟨y, w₁, head, h⟩ := bind_eq_ok_iff.mp h
      obtain ⟨_, _, tail, -⟩ := bind_eq_ok_iff.mp h
      rcases List.mem_cons.mp mem with rfl | mem
      · exact ⟨y, w, w₁, head⟩
      · exact ih tail mem

/-- A fold fails at one place of the list, with what the elements before it came to. -/
theorem foldlM_eq_error_iff {f : β → α → Action β} {xs : List α} {b : β} {w w' : World} {e : Error} :
    xs.foldlM f b w = .error e w' ↔ ∃ n x b₁ w₁, xs[n]? = some x ∧
      (xs.take n).foldlM f b w = .ok b₁ w₁ ∧ f b₁ x w₁ = .error e w' := by
  induction xs generalizing b w with
  | nil => simp [pure_apply]
  | cons x xs ih =>
      rw [List.foldlM_cons, bind_eq_error_iff]
      constructor
      · rintro (fails | ⟨b₁, w₁, head, tail⟩)
        · exact ⟨0, x, b, w, rfl, rfl, fails⟩
        · obtain ⟨n, y, b₂, w₂, at_, before, fails⟩ := ih.mp tail
          refine ⟨n + 1, y, b₂, w₂, at_, ?_, fails⟩
          rw [List.take_succ_cons, List.foldlM_cons, bind_of_ok head]
          exact before
      · rintro ⟨n, y, b₂, w₂, at_, before, fails⟩
        cases n with
        | zero =>
            cases at_
            cases before
            exact .inl fails
        | succ n =>
            rw [List.take_succ_cons, List.foldlM_cons] at before
            obtain ⟨b₁, w₁, head, before⟩ := bind_eq_ok_iff.mp before
            exact .inr ⟨b₁, w₁, head, ih.mpr ⟨n, y, b₂, w₂, at_, before, fails⟩⟩

/-! ### Loops -/

variable {σ : Type} {step : Round σ α} {s : σ} {w : World}

theorem run_of_error {e : Error} {w' : World} (h : step s w = .error e w') :
    step.run s w = some (.error e w') := by
  rw [Round.run, h]

theorem run_of_inr {a : α} {w' : World} (h : step s w = .ok (.inr a) w') :
    step.run s w = some (.ok a w') := by
  rw [Round.run, h]

theorem run_of_inl {t : σ} {w₁ : World} (h : step s w = .ok (.inl t) w₁) :
    step.run s w = step.run t w₁ := by
  rw [Round.run, h]

/-- What holds where a step answers, and from each step back over the one before it, holds of a loop
that ends. -/
theorem run_induct {motive : σ → World → EStateM.Result Error World α → Prop}
    (turn : ∀ s w, match step s w with
      | .error e w' => motive s w (.error e w')
      | .ok (.inr a) w' => motive s w (.ok a w')
      | .ok (.inl t) w₁ => ∀ out, motive t w₁ out → motive s w out)
    {out : EStateM.Result Error World α} (h : step.run s w = some out) : motive s w out := by
  refine Round.run.partial_correctness step motive (fun loop ih s w out h => ?_) s w out h
  have one := turn s w
  cases hs : step s w with
  | error e w' =>
      rw [hs] at h one
      cases h
      exact one
  | ok next w₁ =>
      rw [hs] at h one
      cases next with
      | inr a =>
          cases h
          exact one
      | inl t => exact one out (ih t w₁ out h)

/-- Where a loop ends and what it answers, from an invariant of the states that its steps lead to. -/
theorem loop_rule {I : σ → World → Prop} {M : World → Prop} {S : α → World → Prop}
    (stays : ∀ s w, I s w → M w)
    (turn : ∀ s w, I s w → M (after (step s) w) ∧
      ∀ next w', step s w = .ok next w' → next.elim (I · w') (S · w'))
    (start : I s w) :
    M (after (loop step s) w) ∧ ∀ a w', loop step s w = .ok a w' → S a w' := by
  have ends {out : EStateM.Result Error World α} (h : step.run s w = some out) : I s w →
      ∃ answer w', out = result answer w' ∧ M w' ∧ ∀ a, answer = .ok a → S a w' := by
    refine run_induct (motive := fun s w out => I s w →
      ∃ answer w', out = result answer w' ∧ M w' ∧ ∀ a, answer = .ok a → S a w') (fun s w => ?_) h
    have one := turn s w
    cases hs : step s w with
    | error e w' =>
        intro hi
        have stop := (one hi).1
        rw [after, hs] at stop
        exact ⟨.error e, w', rfl, stop, nofun⟩
    | ok next w' =>
        cases next with
        | inr a =>
            intro hi
            obtain ⟨stop, answers⟩ := one hi
            rw [after, hs] at stop
            refine ⟨.ok a, w', rfl, stop, fun b hb => ?_⟩
            cases hb
            exact answers _ _ hs
        | inl t => exact fun out ih hi => ih ((one hi).2 _ _ hs)
  cases h : step.run s w with
  | none =>
      rw [after, loop, h]
      exact ⟨stays s w start, nofun⟩
  | some out =>
      obtain ⟨answer, w', rfl, stop, answers⟩ := ends h start
      rw [after, loop, h]
      cases answer with
      | error e => exact ⟨stop, nofun⟩
      | ok a =>
          refine ⟨stop, fun b w'' hb => ?_⟩
          cases hb
          exact answers a rfl

theorem loop_of_some {out : EStateM.Result Error World α} (h : step.run s w = some out) :
    loop step s w = out := by
  rw [loop, h]
  rfl

/-- A loop that has an answer other than that there is none has ended. -/
theorem some_of_loop {answer : Except Error α} {w' : World} (h : loop step s w = result answer w')
    (final : answer ≠ .error .unbounded) : step.run s w = some (result answer w') := by
  rw [loop] at h
  cases hf : step.run s w with
  | none =>
      rw [hf] at h
      exact absurd (error_eq_result.mp h).1 final
  | some out => rw [← h, hf]; rfl

end Lineage.Action
