import Lineage.Proofs.Registry.Ancestry
import Lineage.Proofs.Registry.Faults

/-!
What the search for an operation comes to, read off what is known. It gives a verdict that the known
operations and parents alone decide, and no lookup on the way fails with an error that looks like a
verdict.
-/
namespace Lineage

open World Action

/-- Whether an error says what a walk along the ancestry found out. -/
def Error.isVerdict : Error → Bool
  | operationNotFound .. | cyclicAncestry _ => true
  | _ => false

/-! ### Errors of lookups -/

/-- The errors of an action are no verdicts. -/
def Action.Plain {α : Type} (act : Action α) : Prop :=
  ∀ w err w', act w = .error err w' → err.isVerdict = false

namespace Registry

theorem faulty_plain : Error.Faulty fun err => err.isVerdict = false :=
  ⟨fun _ _ => rfl, fun _ _ => rfl⟩

theorem parent_plain (r : Registry) (e : Entry) : Plain (r.parent e) :=
  parent_fails faulty_plain r rfl e

theorem operations_plain (r : Registry) (e : Entry) : Plain (r.operations e) :=
  operations_fails faulty_plain r e

end Registry

/-! ### Verdicts -/

namespace World

open Registry

/-- What the known cells alone say when an operation is looked for at `current` and in the entries
after it, those before having been looked at. -/
inductive Judges (w : World) (method : String) :
    List Entry → Entry → List Entry → Except Error Reached → Prop
  | found {before current offered operation}
      (offers : (w.cellsOf current).operations = some offered)
      (h : (offered.bind fun ns => ns.get? method) = some operation) :
      Judges w method before current []
        (.ok ⟨operation, current, names (before ++ [current])⟩)
  | missing {before current offered} (offers : (w.cellsOf current).operations = some offered)
      (h : (offered.bind fun ns => ns.get? method) = none)
      (top : (w.cellsOf current).parent = some none) :
      Judges w method before current []
        (.error (.operationNotFound method (names (before ++ [current]))))
  | cyclic {before current offered p} (offers : (w.cellsOf current).operations = some offered)
      (h : (offered.bind fun ns => ns.get? method) = none)
      (up : (w.cellsOf current).parent = some (some p))
      (been : hasBeenAt (before ++ [current]) p = true) :
      Judges w method before current [] (.error (cycle (before ++ [current]) p))
  | next {before current offered p more verdict}
      (offers : (w.cellsOf current).operations = some offered)
      (h : (offered.bind fun ns => ns.get? method) = none)
      (up : (w.cellsOf current).parent = some (some p))
      (new : hasBeenAt (before ++ [current]) p = false)
      (above : Judges w method (before ++ [current]) p more verdict) :
      Judges w method before current (p :: more) verdict

namespace Judges

variable {w : World} {method : String} {before more : List Entry} {current : Entry}
  {verdict : Except Error Reached}

theorem keep {w' : World}
    (operations : ∀ e found, (w.cellsOf e).operations = some found →
      (w'.cellsOf e).operations = some found)
    (parent : ∀ e found, (w.cellsOf e).parent = some found → (w'.cellsOf e).parent = some found)
    (h : w.Judges method before current more verdict) :
    w'.Judges method before current more verdict := by
  induction h with
  | found offers h => exact .found (operations _ _ offers) h
  | missing offers h top => exact .missing (operations _ _ offers) h (parent _ _ top)
  | cyclic offers h up been => exact .cyclic (operations _ _ offers) h (parent _ _ up) been
  | next offers h up new _ ih => exact .next (operations _ _ offers) h (parent _ _ up) new ih

end Judges
end World

namespace Registry

theorem operations_of_known (r : Registry) {e : Entry} {found : Option Namespace} {w : World}
    (h : (w.cellsOf e).operations = some found) : r.operations e w = .ok found w := by
  rw [operations_eq_once]
  exact once_of_known h _

section

variable {r : Registry} {method : String} {t : Trail} {w w₁ : World} {found : Option Namespace}

theorem reachRound_of_found {operation : Operation} (ho : r.operations t.last w = .ok found w₁)
    (h : (found.bind fun ns => ns.get? method) = some operation) :
    r.reachRound method t w = .ok (.inr ⟨operation, t.last, names t.chain⟩) w₁ := by
  rw [reachRound, bind_of_ok ho, h]
  rfl

/-- Where there is no operation of the name, a round goes on to what is above. -/
theorem reachRound_of_missing (ho : r.operations t.last w = .ok found w₁)
    (h : (found.bind fun ns => ns.get? method) = none) :
    r.reachRound method t w = match r.above t w₁ with
      | .ok (some t') w₂ => .ok (.inl t') w₂
      | .ok none w₂ => .error (.operationNotFound method (names t.chain)) w₂
      | .error e w₂ => .error e w₂ := by
  rw [reachRound, bind_of_ok ho, h]
  dsimp only
  rw [bind_apply]
  cases r.above t w₁ with
  | error e w₂ => rfl
  | ok next w₂ => cases next <;> rfl

/-- An entry that has answered for its operations and for its parent knows both from then on. -/
theorem knows_both {e : Entry} {parent : Option Entry} {w₂ : World} (hw : w.Sound) (held : w.Holds e)
    (ho : r.operations e w = .ok found w₁) (hp : r.parent e w₁ = .ok parent w₂) :
    Extends Cells.nothing w w₂ ∧ w₂.Sound ∧ (w₂.cellsOf e).operations = some found ∧
      (w₂.cellsOf e).parent = some parent ∧ heldIfAny parent w₂ := by
  obtain ⟨hr, hw₁, known⟩ := (operations_along r e).of_ok hw trivial ho
  have held₁ := hr.grows.holds held
  obtain ⟨hr', hw₂, hheld, known'⟩ := (parent_along r e).of_ok hw₁ trivial hp
  exact ⟨(extends_course _).trans hr hr', hw₂, (hr'.kept e).operations _ (known held₁),
    known' (hr'.grows.holds held₁), hheld⟩

end

/-- A search comes to the verdict of the known cells and changes nothing. -/
theorem reachFrom_of_judges (r : Registry) {w : World} {method : String}
    {before more : List Entry} {current : Entry} {verdict : Except Error Reached}
    (h : w.Judges method before current more verdict) :
    (r.reachRound method).run ⟨before ++ [current], current⟩ w = some (result verdict w) := by
  induction h with
  | found offers h => exact run_of_inr (reachRound_of_found (operations_of_known r offers) h)
  | missing offers h top =>
      refine run_of_error ?_
      rw [reachRound_of_missing (operations_of_known r offers) h, above_of_top (parent_of_known r top)]
  | cyclic offers h up been =>
      refine run_of_error ?_
      rw [reachRound_of_missing (operations_of_known r offers) h,
        above_of_been (parent_of_known r up) been]
  | next offers h up new _ ih =>
      refine (run_of_inl ?_).trans ih
      rw [reachRound_of_missing (operations_of_known r offers) h,
        above_of_new (parent_of_known r up) new]

/-- What a search for an operation can find out for good. -/
def IsVerdict : Except Error Reached → Prop
  | .ok _ => True
  | .error err => err.isVerdict = true

/-- The verdict of a search can be read off the cells that it leaves. -/
theorem judges_of_reachFrom (r : Registry) {method : String} {t : Trail} {w : World}
    {out : EStateM.Result Error World Reached}
    (h : (r.reachRound method).run t w = some out) : w.Sound → w.Holds t.last →
      ∀ before verdict w', t.chain = before ++ [t.last] → out = result verdict w' →
        IsVerdict verdict → Extends Cells.nothing w w' ∧
          ∃ more, w'.Judges method before t.last more verdict := by
  refine run_induct (motive := fun t w out => w.Sound → w.Holds t.last →
    ∀ before verdict w', t.chain = before ++ [t.last] → out = result verdict w' →
      IsVerdict verdict → Extends Cells.nothing w w' ∧
        ∃ more, w'.Judges method before t.last more verdict) (fun t w => ?_) h
  cases ho : r.operations t.last w with
  | error err w₁ =>
      have round : r.reachRound method t w = .error err w₁ := bind_of_error ho _
      rw [round]
      intro _ _ before verdict w' _ answer final
      obtain ⟨rfl, -⟩ := error_eq_result.mp answer
      rw [IsVerdict, operations_plain r t.last w err w₁ ho] at final
      cases final
  | ok offered w₁ =>
      cases hf : (offered.bind fun ns => ns.get? method) with
      | some operation =>
          rw [reachRound_of_found ho hf]
          intro hw held before verdict w' chain answer _
          obtain ⟨rfl, rfl⟩ := ok_eq_result.mp answer
          obtain ⟨hr, -, known⟩ := (operations_along r t.last).of_ok hw trivial ho
          rw [chain]
          exact ⟨hr, [], .found (known (hr.grows.holds held)) hf⟩
      | none =>
          rw [reachRound_of_missing ho hf]
          obtain ⟨err, w₂, hp, h⟩ | ⟨w₂, hp, h⟩ | ⟨p, w₂, hp, been, h⟩ | ⟨p, w₂, hp, new, h⟩ :=
            above_cases r t w₁ <;> rw [h] <;> dsimp only
          · intro _ _ before verdict w' _ answer final
            obtain ⟨rfl, -⟩ := error_eq_result.mp answer
            rw [IsVerdict, parent_plain r t.last w₁ err w₂ hp] at final
            cases final
          · intro hw held before verdict w' chain answer _
            obtain ⟨rfl, rfl⟩ := error_eq_result.mp answer
            obtain ⟨hr, -, offers, top, -⟩ := knows_both hw held ho hp
            rw [chain]
            exact ⟨hr, [], .missing offers hf top⟩
          · intro hw held before verdict w' chain answer _
            obtain ⟨rfl, rfl⟩ := error_eq_result.mp answer
            obtain ⟨hr, -, offers, up, -⟩ := knows_both hw held ho hp
            rw [chain] at been ⊢
            exact ⟨hr, [], .cyclic offers hf up been⟩
          · intro out ih hw held before verdict w' chain answer final
            obtain ⟨hr, hw₂, offers, up, held'⟩ := knows_both hw held ho hp
            obtain ⟨hr', more, above⟩ := ih hw₂ (held' p rfl) t.chain verdict w' rfl answer final
            rw [chain] at new above
            have kept := hr'.kept t.last
            exact ⟨(extends_course _).trans hr hr', p :: more,
              .next (kept.operations _ offers) hf (kept.parent _ up) new above⟩

theorem reach_of_judges {r : Registry} {e : Entry} {w : World} {method : String} {more : List Entry}
    {verdict : Except Error Reached} (h : w.Judges method [] e more verdict) :
    r.reach e method w = result verdict w :=
  loop_of_some (reachFrom_of_judges r h)

theorem judges_of_reach {r : Registry} {e : Entry} {w w' : World} {method : String}
    {verdict : Except Error Reached} (hw : w.Sound) (held : w.Holds e)
    (h : r.reach e method w = result verdict w') (final : IsVerdict verdict) :
    ∃ more, w'.Judges method [] e more verdict := by
  have ended : verdict ≠ .error .unbounded := by
    rintro rfl
    cases final
  exact (judges_of_reachFrom r (some_of_loop h ended) hw held [] verdict w' rfl rfl final).2

end Registry
end Lineage
