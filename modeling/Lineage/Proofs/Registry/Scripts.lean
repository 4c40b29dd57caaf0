import Lineage.Proofs.Action
import Lineage.Registry.Invocation

/-!
Runs of scripts. A run that ends is told step by step: the registry answers a request, and a call is
answered by a run of the body of the operation that it comes down to. From that, scripts are read as
actions, request by request.
-/
namespace Lineage

open Action

/-- An answer that is known, as an action. -/
def Script.known {α : Type} (a : Except Error α) : Action α := fun w => result a w

theorem Script.known_eq_ok {α : Type} {a : Except Error α} {b : α} {w w' : World} :
    known a w = .ok b w' ↔ a = .ok b ∧ w = w' := by
  rw [known, eq_comm, ok_eq_result]

namespace Registry

/-- A script is run to its end, with an answer and the world that it leaves. -/
inductive Plays (r : Registry) :
    {α : Type} → Script α → World → Except Error α → World → Prop
  | done {α : Type} {a : α} {w : World} : Plays r (.done a) w (.ok a) w
  | fail {α : Type} {err : Error} {w : World} : Plays r (.fail err : Script α) w (.error err) w
  | ask {α : Type} {q : Request} {next : Except Error q.Answer → Script α}
      {given : Except Error q.Answer} {answer : Except Error α} {w w₁ w' : World}
      (answered : r.answer q w = result given w₁) (rest : Plays r (next given) w₁ answer w') :
      Plays r (.ask q next) w answer w'
  | refused {α : Type} {e : Entry} {method : String} {positional : List Json} {named : Params}
      {next : Except Error Outcome → Script α} {err : Error} {answer : Except Error α}
      {w w₁ w' : World} (refused : r.received e method positional named w = .error err w₁)
      (rest : Plays r (next (.error err)) w₁ answer w') :
      Plays r (.call e method positional named next) w answer w'
  | called {α : Type} {e : Entry} {method : String} {positional : List Json} {named : Params}
      {next : Except Error Outcome → Script α} {got : Reception} {given : Except Error Outcome}
      {answer : Except Error α} {w w₁ w₂ w' : World}
      (received : r.received e method positional named w = .ok got w₁)
      (body : Plays r (got.operation.body ⟨e, method, got.args⟩) w₁ given w₂)
      (rest : Plays r (next (given.mapError (Error.within method e.name got.bag))) w₂ answer w') :
      Plays r (.call e method positional named next) w answer w'

variable {r : Registry} {α β : Type} {script : Script α} {answer : Except Error α} {w w' : World}

theorem plays_of_play {out : EStateM.Result Error World α} (h : r.play script w = some out) :
    ∀ answer w', out = result answer w' → r.Plays script w answer w' := by
  refine play.partial_correctness r
    (fun script w out => ∀ answer w', out = result answer w' → r.Plays script w answer w')
    (fun play ih α script w out h answer w' last => ?_) script w out h
  cases script with
  | done a =>
      cases h
      obtain ⟨rfl, rfl⟩ := ok_eq_result.mp last
      exact .done
  | fail err =>
      cases h
      obtain ⟨rfl, rfl⟩ := error_eq_result.mp last
      exact .fail
  | ask q next =>
      dsimp only at h
      split at h
      · rename_i a w₁ answered
        have answered : r.answer q w = result (.ok a) w₁ := answered
        exact .ask answered (ih _ _ _ h _ _ last)
      · rename_i err w₁ answered
        have answered : r.answer q w = result (.error err) w₁ := answered
        exact .ask answered (ih _ _ _ h _ _ last)
  | call e method positional named next =>
      dsimp only at h
      split at h
      · rename_i err w₁ refused
        exact .refused refused (ih _ _ _ h _ _ last)
      · rename_i got w₁ received
        obtain ⟨given, body, rest⟩ := Option.bind_eq_some_iff.mp h
        cases given with
        | ok outcome w₂ =>
            exact .called received (ih _ _ _ body (.ok outcome) w₂ rfl) (ih _ _ _ rest _ _ last)
        | error err w₂ =>
            exact .called received (ih _ _ _ body (.error err) w₂ rfl) (ih _ _ _ rest _ _ last)

theorem play_of_plays (h : r.Plays script w answer w') :
    r.play script w = some (result answer w') := by
  induction h with
  | done => rw [play]; rfl
  | fail => rw [play]; rfl
  | @ask α q next given answer w w₁ w' answered _ ih =>
      rw [play, answered]
      cases given <;> exact ih
  | refused refused _ ih =>
      rw [play, refused]
      exact ih
  | @called α e method positional named next got given answer w w₁ w₂ w' received _ _ body rest =>
      rw [play, received]
      dsimp only
      rw [body]
      cases given <;> exact rest

theorem play_eq_some_iff : r.play script w = some (result answer w') ↔ r.Plays script w answer w' :=
  ⟨fun h => plays_of_play h answer w' rfl, play_of_plays⟩

theorem run_of_plays (h : r.Plays script w answer w') : r.run script w = result answer w' := by
  rw [run, play_of_plays h]
  rfl

theorem plays_or_unbounded (r : Registry) (script : Script α) (w : World) :
    (∃ answer w', r.Plays script w answer w') ∨
      r.play script w = none ∧ r.run script w = .error .unbounded w := by
  cases played : r.play script w with
  | none => exact .inr ⟨rfl, by rw [run, played]; rfl⟩
  | some out =>
      cases out with
      | ok a w' => exact .inl ⟨.ok a, w', play_eq_some_iff.mp played⟩
      | error err w' => exact .inl ⟨.error err, w', play_eq_some_iff.mp played⟩

/-- A script is run as far as it goes, and then what goes on from its answer, if it has one. -/
theorem Plays.bind {next : α → Script β} {given : Except Error α} {last : Except Error β}
    {w₁ : World} (first : r.Plays script w given w₁)
    (rest : ∀ a, given = .ok a → r.Plays (next a) w₁ last w')
    (stops : ∀ err, given = .error err → last = .error err ∧ w' = w₁) :
    r.Plays (script >>= next) w last w' := by
  induction first with
  | done => exact rest _ rfl
  | fail =>
      obtain ⟨rfl, rfl⟩ := stops _ rfl
      exact .fail
  | ask answered _ ih => exact .ask answered (ih rest stops)
  | refused refused _ ih => exact .refused refused (ih rest stops)
  | called received body _ _ ih => exact .called received body (ih rest stops)

/-- A call comes back: it is refused, or the body of its operation is run to its end. -/
inductive Returns (r : Registry) (e : Entry) (method : String) (positional : List Json)
    (named : Params) (w : World) : Except Error Outcome → World → Prop
  | refused {err : Error} {w' : World}
      (refused : r.received e method positional named w = .error err w') :
      Returns r e method positional named w (.error err) w'
  | ran {got : Reception} {given : Except Error Outcome} {w₁ w' : World}
      (received : r.received e method positional named w = .ok got w₁)
      (body : r.Plays (got.operation.body ⟨e, method, got.args⟩) w₁ given w') :
      Returns r e method positional named w
        (given.mapError (Error.within method e.name got.bag)) w'

/-- What a call comes back with is what invoking comes to. -/
theorem Returns.invoke {e : Entry} {method : String} {positional : List Json} {named : Params}
    {given : Except Error Outcome} (h : r.Returns e method positional named w given w') :
    r.invoke e method positional named w = result given w' := by
  rw [Registry.invoke]
  cases h with
  | refused refused => exact bind_of_error refused _
  | @ran got given w₁ w' received body =>
      rw [bind_of_ok received, runBody, run_of_plays body]
      cases given <;> rfl

/-! ### Scripts as actions -/

/-- A script comes down to an action: in any world it is run to the end that the action comes to. -/
def Realizes (r : Registry) (script : Script α) (act : Action α) : Prop :=
  ∀ w, r.Plays script w (value act w) (after act w)

namespace Realizes

variable {act : Action α} {next : α → Script β} {acts : α → Action β}

theorem run (h : r.Realizes script act) : r.run script = act := by
  funext w
  rw [run_of_plays (h w), ← eq_result]

theorem done (a : α) : r.Realizes (.done a) (pure a) := fun _ => .done

theorem fail (err : Error) : r.Realizes (.fail err : Script α) (throw err) := fun _ => .fail

theorem ofExcept (a : Except Error α) : r.Realizes (.ofExcept a) (Script.known a) := by
  cases a with
  | ok a => exact done a
  | error err => exact fail err

theorem request (q : Request) : r.Realizes (.request q) (r.answer q) := by
  intro w
  refine .ask (eq_result (r.answer q) w) ?_
  cases value (r.answer q) w with
  | ok a => exact .done
  | error err => exact .fail

theorem bind (first : r.Realizes script act) (rest : ∀ a, r.Realizes (next a) (acts a)) :
    r.Realizes (script >>= next) (act >>= acts) := by
  intro w
  have first := first w
  rw [value_bind, after_bind]
  cases done : act w with
  | ok a w₁ =>
      rw [value, after, done] at first
      refine first.bind (fun b same => ?_) fun _ failed => ?_
      · cases same
        rw [value, after, done]
        exact rest a w₁
      · cases failed
  | error err w₁ =>
      rw [value, after, done] at first
      refine first.bind (fun _ succeeded => ?_) fun err' same => ?_
      · cases succeeded
      · cases same
        rw [value, done]
        exact ⟨rfl, rfl⟩

theorem request_bind {q : Request} {next : q.Answer → Script β} {acts : q.Answer → Action β}
    (rest : ∀ a, r.Realizes (next a) (acts a)) :
    r.Realizes (.request q >>= next) (r.answer q >>= acts) :=
  (request q).bind rest

theorem mapM {f : α → Script β} {g : α → Action β} (each : ∀ x, r.Realizes (f x) (g x))
    (xs : List α) : r.Realizes (xs.mapM f) (xs.mapM g) := by
  have loops (found : List β) : r.Realizes (List.mapM.loop f xs found) (List.mapM.loop g xs found) := by
    induction xs generalizing found with
    | nil => exact done _
    | cons x xs ih =>
        rw [List.mapM.loop, List.mapM.loop]
        exact (each x).bind fun y => ih (y :: found)
  exact loops []

end Realizes

end Registry
end Lineage
