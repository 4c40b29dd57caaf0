import Lineage.Proofs.Registry.Failures

/-!
The context of failures. The body of an operation may call other operations, and their bodies others
again. What a body fails with is given the call that it was run for, unless it speaks for itself; and
once it has been given a call it speaks for itself. So an error that is passed on by one body after
the other tells of the innermost call.
-/
namespace Lineage

open Action

namespace Error

/-- What was not found, how a call was wrong, or which call failed. -/
inductive Telling : Error → Prop
  | entryNotFound (name : String) : Telling (.entryNotFound name)
  | operationNotFound (name : String) (ancestry : List String) :
      Telling (.operationNotFound name ancestry)
  | missingArguments (operation : String) (names : List String) :
      Telling (.missingArguments operation names)
  | tooManyArguments (operation : String) (given accepted : Nat) :
      Telling (.tooManyArguments operation given accepted)
  | cyclicAncestry (chain : List String) : Telling (.cyclicAncestry chain)
  | invocation (method entry : String) (arguments : Params) (reason : String) :
      Telling (.invocation method entry arguments reason)

variable {err : Error}

theorem Telling.within (h : err.Telling) (method entry : String) (arguments : Params) :
    err.within method entry arguments = err := by
  cases h <;> rfl

theorem within_of_not_telling (silent : ¬ err.Telling) (bounded : err ≠ .unbounded)
    (method entry : String) (arguments : Params) :
    err.within method entry arguments = .invocation method entry arguments err.message := by
  cases err with
  | parse | unresolvedReference | storage | malformed | failed => rfl
  | entryNotFound name => exact absurd (.entryNotFound name) silent
  | operationNotFound name ancestry => exact absurd (.operationNotFound name ancestry) silent
  | missingArguments operation names => exact absurd (.missingArguments operation names) silent
  | tooManyArguments operation given accepted =>
      exact absurd (.tooManyArguments operation given accepted) silent
  | cyclicAncestry chain => exact absurd (.cyclicAncestry chain) silent
  | invocation method entry arguments reason =>
      exact absurd (.invocation method entry arguments reason) silent
  | unbounded => exact absurd rfl bounded

/-- An error with a call speaks for itself; only calls without end have nothing to tell. -/
theorem telling_within (bounded : err ≠ .unbounded) (method entry : String) (arguments : Params) :
    (err.within method entry arguments).Telling := by
  by_cases h : err.Telling
  · rw [h.within]
    exact h
  · rw [within_of_not_telling h bounded]
    exact .invocation ..

/-- A second call adds nothing to an error. -/
theorem within_within (err : Error) (method entry method' entry' : String)
    (arguments arguments' : Params) :
    (err.within method entry arguments).within method' entry' arguments' =
      err.within method entry arguments := by
  by_cases bounded : err = .unbounded
  · rw [bounded]
    rfl
  · exact (telling_within bounded method entry arguments).within method' entry' arguments'

/-- The errors of calls before a body is run: none of them is raised by an operation. -/
theorem receptions_unraised : Error.OfReceptions fun err =>
    err.isRaised = false ∧ ∀ reference reason, err ≠ .unresolvedReference reference reason where
  storage _ _ := ⟨rfl, nofun⟩
  malformed _ _ := ⟨rfl, nofun⟩
  unbounded := ⟨rfl, nofun⟩
  cyclic _ := ⟨rfl, nofun⟩
  notFound _ _ := ⟨rfl, nofun⟩
  missing _ _ := ⟨rfl, nofun⟩
  tooMany _ _ _ := ⟨rfl, nofun⟩

end Error

namespace Registry

/-- A call as it is made. -/
structure CallSite where
  entry : Entry
  method : String
  positional : List Json := []
  named : Params := []

namespace CallSite

def received (c : CallSite) (r : Registry) : Action Reception :=
  r.received c.entry c.method c.positional c.named

def body (c : CallSite) (got : Reception) : Script Outcome :=
  got.operation.body ⟨c.entry, c.method, got.args⟩

def invoke (c : CallSite) (r : Registry) : Action Outcome :=
  r.invoke c.entry c.method c.positional c.named

/-- An error as it is reported of the call, with the values that its body was handed. -/
def report (c : CallSite) (bag : Params) (err : Error) : Error :=
  err.within c.method c.entry.name bag

end CallSite

/-- The calls that a script makes when it is run, each with the world that it is made in. -/
inductive Makes (r : Registry) {α : Type} : Script α → World → CallSite → World → Prop
  | now {e : Entry} {method : String} {positional : List Json} {named : Params}
      {next : Except Error Outcome → Script α} {w : World} :
      Makes r (.call e method positional named next) w ⟨e, method, positional, named⟩ w
  | asked {q : Request} {next : Except Error q.Answer → Script α} {given : Except Error q.Answer}
      {c : CallSite} {w w₁ w₂ : World} (answered : r.answer q w = result given w₁)
      (makes : Makes r (next given) w₁ c w₂) : Makes r (.ask q next) w c w₂
  | after {e : Entry} {method : String} {positional : List Json} {named : Params}
      {next : Except Error Outcome → Script α} {given : Except Error Outcome} {c : CallSite}
      {w w₁ w₂ : World} (returned : r.Returns e method positional named w given w₁)
      (makes : Makes r (next given) w₁ c w₂) : Makes r (.call e method positional named next) w c w₂

open CallSite

variable {r : Registry} {c inner : CallSite} {got : Reception} {bag : Params} {err raised : Error}
  {w w₁ w' : World}

/-- An error that a body raises surfaces from its call, and from each call around it of which the
body fails with what the call in it failed with. -/
inductive Surfaces (r : Registry) : CallSite → World → CallSite → Params → Error → World → Prop
  | raised {c : CallSite} {got : Reception} {err : Error} {w w₁ w' : World}
      (received : c.received r w = .ok got w₁) (raises : r.run (c.body got) w₁ = .error err w') :
      Surfaces r c w c got.bag err w'
  | relayed {c nested inner : CallSite} {got : Reception} {bag : Params} {err returned : Error}
      {w w₁ w₂ w₃ w' : World} (received : c.received r w = .ok got w₁)
      (makes : r.Makes (c.body got) w₁ nested w₂) (surfaces : Surfaces r nested w₂ inner bag err w₃)
      (returns : nested.invoke r w₂ = .error returned w₃)
      (passes : r.run (c.body got) w₁ = .error returned w') : Surfaces r c w inner bag err w'

theorem invoke_of_received (received : c.received r w = .ok got w₁)
    (fails : r.run (c.body got) w₁ = .error err w') :
    c.invoke r w = .error (c.report got.bag err) w' := by
  rw [body] at fails
  rw [CallSite.invoke, Registry.invoke]
  refine (bind_of_ok received _).trans ?_
  rw [runBody, fails]
  rfl

theorem invoke_of_refused (refused : c.received r w = .error err w') :
    c.invoke r w = .error err w' :=
  bind_of_error refused _

/-- A call fails before its body is run, or as its body does. -/
theorem invoke_eq_error (h : c.invoke r w = .error err w') :
    c.received r w = .error err w' ∨ ∃ got w₁ raised, c.received r w = .ok got w₁ ∧
      r.run (c.body got) w₁ = .error raised w' ∧ err = c.report got.bag raised := by
  refine (bind_eq_error_iff.mp h).imp_right ?_
  rintro ⟨got, w₁, received, runs⟩
  rw [runBody] at runs
  split at runs
  · cases runs
  · rename_i raised w₂ fails
    cases runs
    exact ⟨got, w₁, raised, received, fails, rfl⟩

/-- However many bodies pass an error on, it comes out with the innermost call. -/
theorem Surfaces.invoke (h : r.Surfaces c w inner bag err w') :
    c.invoke r w = .error (inner.report bag err) w' := by
  induction h with
  | raised received raises => exact invoke_of_received received raises
  | relayed received makes surfaces returns passes ih =>
      cases ih.symm.trans returns
      rw [invoke_of_received received passes]
      exact congrArg (EStateM.Result.error · _) (Error.within_within ..)

theorem received_unraised (h : c.received r w = .error err w') :
    err.isRaised = false ∧ ∀ reference reason, err ≠ .unresolvedReference reference reason :=
  received_fails r Error.receptions_unraised _ _ _ _ w err w' h

/-- What a call fails with, if its body was run. -/
theorem telling_of_invoke (h : c.invoke r w = .error err w') :
    err = .unbounded ∨ c.received r w = .error err w' ∨ err.Telling := by
  rcases invoke_eq_error h with refused | ⟨got, w₁, raised, -, -, rfl⟩
  · exact .inr (.inl refused)
  · by_cases bounded : raised = .unbounded
    · exact .inl (by rw [bounded]; rfl)
    · exact .inr (.inr (Error.telling_within bounded _ _ _))

/-- Failures keep their kind or have the context of the innermost call, however deep calls are nested.
What tells for itself comes out of the outermost call as it was raised, and any other error of a body
as the failure of the call that this was the body of. A call fails before its body is run, with an
error that is no failure of an operation and comes out as it is, or with what surfaces from it. So the
bare reason of a body or an unresolved reference never comes out; and what does come out and does not
tell for itself was met before the body. -/
theorem failures_keep_context (r : Registry) (c : CallSite) (w : World) :
    (∀ inner bag err w', r.Surfaces c w inner bag err w' →
      (err.Telling → c.invoke r w = .error err w') ∧
      (¬ err.Telling → err ≠ .unbounded → c.invoke r w =
        .error (.invocation inner.method inner.entry.name bag err.message) w')) ∧
    (∀ err w', c.received r w = .error err w' →
      c.invoke r w = .error err w' ∧ err.isRaised = false) ∧
    (∀ err w', c.invoke r w = .error err w' →
      c.received r w = .error err w' ∨ ∃ inner bag raised, r.Surfaces c w inner bag raised w') ∧
    ∀ err w', c.invoke r w = .error err w' →
      (∀ reason, err ≠ .failed reason) ∧
      (∀ reference reason, err ≠ .unresolvedReference reference reason) ∧
      (¬ err.Telling → err = .unbounded ∨ c.received r w = .error err w') := by
  refine ⟨?_, ?_, ?_, ?_⟩
  · intro inner bag err w' surfaces
    rw [surfaces.invoke]
    refine ⟨fun telling => ?_, fun silent bounded => ?_⟩
    · rw [report, telling.within]
    · rw [report, Error.within_of_not_telling silent bounded]
  · intro err w' refused
    exact ⟨invoke_of_refused refused, (received_unraised refused).1⟩
  · intro err w' fails
    refine (invoke_eq_error fails).imp_right ?_
    rintro ⟨got, w₁, raised, received, raises, -⟩
    exact ⟨c, got.bag, raised, .raised received raises⟩
  · intro err w' fails
    rcases telling_of_invoke fails with rfl | refused | telling
    · exact ⟨nofun, nofun, fun _ => .inl rfl⟩
    · obtain ⟨unraised, resolved⟩ := received_unraised refused
      refine ⟨?_, resolved, fun _ => .inr refused⟩
      rintro reason rfl
      cases unraised
    · refine ⟨?_, ?_, fun silent => absurd telling silent⟩
      · rintro reason rfl
        cases telling
      · rintro reference reason rfl
        cases telling

namespace Sample

def failing (name : String) (err : Error) : Operation where
  name := name
  doc := ""
  shape := {}
  body _ := .fail err

/-- An operation that leaves all to another one. -/
def passing (name method : String) : Operation where
  name := name
  doc := ""
  shape := {}
  body c := Script.invoke c.entry method [] []

def relays : Namespace := .ofList "relays" "" [failing "fall" (.failed "down"),
  failing "miss" (.entryNotFound "x"), passing "relay" "fall", passing "seek" "miss"]

def relaying : Registry := { registry with catalog := [("relays", relays)] }

def top : Entry := ⟨0, ⟨"top"⟩, "top"⟩

def relayWorld : World where
  disk := ⟨[], []⟩
  cells := [{ own := some [("k", .int 1)], parent := some none, operations := some (some relays) }]

theorem top_receives {method : String} {op : Operation} (offered : relays.get? method = some op)
    (plain : op.shape = {}) :
    CallSite.received { entry := top, method } relaying relayWorld =
      .ok ⟨op, ⟨{}, ⟨[], []⟩⟩, [("k", .int 1)]⟩ relayWorld := by
  have known : (relayWorld.cellsOf top).operations = some (some relays) := rfl
  refine received_of_top rfl known offered rfl ?_
  rw [bound, plain]
  rfl

theorem failing_surfaces {method : String} {err : Error}
    (offered : relays.get? method = some (failing method err)) :
    relaying.Surfaces { entry := top, method } relayWorld { entry := top, method } [("k", .int 1)] err
      relayWorld :=
  .raised (top_receives offered rfl) (run_of_plays .fail)

theorem passing_surfaces {method inner : String} {err : Error}
    (offered : relays.get? inner = some (failing inner err))
    (passed : relays.get? method = some (passing method inner)) :
    relaying.Surfaces { entry := top, method } relayWorld { entry := top, method := inner }
      [("k", .int 1)] err relayWorld := by
  have surfaces : relaying.Surfaces { entry := top, method := inner } relayWorld
      { entry := top, method := inner } [("k", .int 1)] err relayWorld :=
    failing_surfaces offered
  have passes : relaying.Plays ((passing method inner).body ⟨top, method, ⟨{}, ⟨[], []⟩⟩⟩) relayWorld
      (.error (err.within inner "top" [("k", .int 1)])) relayWorld :=
    .called (top_receives offered rfl) .fail .fail
  exact .relayed (top_receives passed rfl) .now surfaces surfaces.invoke (run_of_plays passes)

/-- A reason comes out with the inner call, what was not found comes out as it is, and so does what
is wrong with the outer call. -/
theorem relayed_failures :
    (relaying.Surfaces { entry := top, method := "relay" } relayWorld
        { entry := top, method := "fall" } [("k", .int 1)] (.failed "down") relayWorld ∧
      relaying.invoke top "relay" [] [] relayWorld =
        .error (.invocation "fall" "top" [("k", .int 1)] "down") relayWorld) ∧
    (relaying.Surfaces { entry := top, method := "seek" } relayWorld
        { entry := top, method := "miss" } [("k", .int 1)] (.entryNotFound "x") relayWorld ∧
      relaying.invoke top "seek" [] [] relayWorld = .error (.entryNotFound "x") relayWorld) ∧
    relaying.received top "relay" [.null] [] relayWorld =
      .error (.tooManyArguments "relay" 1 0) relayWorld ∧
    relaying.invoke top "relay" [.null] [] relayWorld =
      .error (.tooManyArguments "relay" 1 0) relayWorld := by
  have falls : relaying.Surfaces { entry := top, method := "relay" } relayWorld
      { entry := top, method := "fall" } [("k", .int 1)] (.failed "down") relayWorld :=
    passing_surfaces rfl rfl
  have misses : relaying.Surfaces { entry := top, method := "seek" } relayWorld
      { entry := top, method := "miss" } [("k", .int 1)] (.entryNotFound "x") relayWorld :=
    passing_surfaces rfl rfl
  have refused : relaying.received top "relay" [.null] [] relayWorld =
      .error (.tooManyArguments "relay" 1 0) relayWorld :=
    received_of_top rfl rfl rfl rfl rfl
  refine ⟨⟨falls, ?_⟩, ⟨misses, ?_⟩, refused, ?_⟩
  · exact ((failures_keep_context ..).1 _ _ _ _ falls).2 nofun nofun
  · exact ((failures_keep_context ..).1 _ _ _ _ misses).1 (.entryNotFound "x")
  · exact ((failures_keep_context relaying
      { entry := top, method := "relay", positional := [.null] } relayWorld).2.1 _ _ refused).1

end Sample
end Registry
end Lineage
