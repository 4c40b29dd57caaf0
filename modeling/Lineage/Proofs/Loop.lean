import Mathlib.Order.WellFounded
import Lineage.Proofs.Action

/-!
Loops without a bound. A loop goes on from state to state until a step answers. It ends if each
step brings a rank down.
-/
namespace Lineage.Loop

variable {σ α : Type} {step : σ → σ ⊕ α}

/-- From a state, a loop passes through some states, itself the first, and ends with an answer. -/
inductive Finishes (step : σ → σ ⊕ α) : σ → List σ → α → Prop
  | done {s a} (h : step s = .inr a) : Finishes step s [s] a
  | next {s t states a} (h : step s = .inl t) (more : Finishes step t states a) :
      Finishes step s (s :: states) a

/-- What holds of a state that a step starts from holds where it leads. -/
def Preserves (step : σ → σ ⊕ α) (I : σ → Prop) : Prop := ∀ s t, I s → step s = .inl t → I t

variable {I : σ → Prop} {s : σ} {states : List σ} {a : α}

theorem Finishes.all (h : Finishes step s states a) (keeps : Preserves step I) (hs : I s) :
    ∀ t ∈ states, I t := by
  induction h with
  | done _ => exact List.forall_mem_singleton.mpr hs
  | next h _ ih => exact List.forall_mem_cons.mpr ⟨hs, ih (keeps _ _ hs h)⟩

/-- The last step of a loop answers. -/
theorem Finishes.answers (h : Finishes step s states a) : ∃ t ∈ states, step t = .inr a := by
  induction h with
  | done h => exact ⟨_, List.mem_singleton_self _, h⟩
  | next _ _ ih =>
      obtain ⟨t, ht, h⟩ := ih
      exact ⟨t, List.mem_cons_of_mem _ ht, h⟩

variable {ρ : Type} [LT ρ] [WellFoundedLT ρ]

theorem ends_of_rank (rank : σ → ρ) (keeps : Preserves step I)
    (down : ∀ s t, I s → step s = .inl t → rank t < rank s) (hs : I s) :
    ∃ states a, Finishes step s states a := by
  induction h : rank s using WellFoundedLT.induction generalizing s with
  | ind k ih =>
    cases hstep : step s with
    | inr a => exact ⟨_, a, .done hstep⟩
    | inl t =>
        obtain ⟨states, a, more⟩ := ih (rank t) (h ▸ down s t hs hstep) (keeps s t hs hstep) rfl
        exact ⟨_, a, .next hstep more⟩

/-! ### Loops in a world -/

section

open Action

variable {γ : Type}

/-- What a step of a loop in a world comes to, where a state takes the world in. -/
def turnOf (state : σ → World → γ) :
    EStateM.Result Error World (σ ⊕ α) → γ ⊕ EStateM.Result Error World α
  | .error e w => .inr (.error e w)
  | .ok (.inr a) w => .inr (.ok a w)
  | .ok (.inl t) w => .inl (state t w)

variable {state : σ → World → γ} {out : EStateM.Result Error World α}

theorem turnOf_eq_inl_iff {result : EStateM.Result Error World (σ ⊕ α)} {c : γ} :
    turnOf state result = .inl c ↔ ∃ t w, result = .ok (.inl t) w ∧ state t w = c := by
  rcases result with ⟨_ | _, _⟩ | _ <;> simp [turnOf]

variable {step : Round σ α} {s : σ} {w : World}

theorem run_of_turn (h : turnOf state (step s w) = .inr out) : step.run s w = some out := by
  cases hs : step s w with
  | error e w' =>
      rw [hs] at h
      cases h
      exact run_of_error hs
  | ok next w' =>
      rw [hs] at h
      cases next with
      | inl t => cases h
      | inr a =>
          cases h
          exact run_of_inr hs

variable {turn : γ → γ ⊕ EStateM.Result Error World α}

/-- The states of a loop in a world that ends are those of its turns. -/
theorem finishes_of_run (turns : ∀ s w, turn (state s w) = turnOf state (step s w))
    (h : step.run s w = some out) : ∃ states, Finishes turn (state s w) states out := by
  refine run_induct (motive := fun s w out => ∃ states, Finishes turn (state s w) states out)
    (fun s w => ?_) h
  have one := turns s w
  cases hs : step s w with
  | error e w' =>
      rw [hs] at one
      exact ⟨_, .done one⟩
  | ok next w' =>
      rw [hs] at one
      cases next with
      | inr a => exact ⟨_, .done one⟩
      | inl t => exact fun _ ⟨_, more⟩ => ⟨_, .next one more⟩

theorem run_of_finishes (turns : ∀ s w, turn (state s w) = turnOf state (step s w))
    {states : List γ} (h : Finishes turn (state s w) states out) : step.run s w = some out := by
  generalize start : state s w = c at h
  induction h generalizing s w with
  | done h =>
      rw [← start, turns] at h
      exact run_of_turn h
  | next h _ ih =>
      rw [← start, turns] at h
      obtain ⟨t, w₁, hs, there⟩ := turnOf_eq_inl_iff.mp h
      rw [run_of_inl hs]
      exact ih there

/-- A loop in a world ends with an answer if its turns come to that. -/
theorem run_eq_some_iff (turns : ∀ s w, turn (state s w) = turnOf state (step s w)) :
    step.run s w = some out ↔ ∃ states, Finishes turn (state s w) states out :=
  ⟨finishes_of_run turns, fun ⟨_, ends⟩ => run_of_finishes turns ends⟩

end

end Lineage.Loop
