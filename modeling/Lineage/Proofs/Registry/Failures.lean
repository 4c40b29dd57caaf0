import Lineage.Execution
import Lineage.Proofs.Registry.Calls
import Lineage.Proofs.Registry.Faults

/-!
How the parts of a step fail: the references that it looks up, and its invocations. An error of an
operation that was run comes from running it and from nothing else: what is looked up for a step, its
target and its keywords included, never fails like that.
-/
namespace Lineage

open Action

namespace Action

/-- An action that never fails as an operation does that was run. -/
def Unraised {α : Type} (act : Action α) : Prop :=
  ∀ w err w', act w = .error err w' → err.isRaised = false

end Action

/-- A kind of errors that takes in all that references fail with. -/
structure Error.OfReferences (kind : Error → Prop) : Prop extends Error.Faulty kind where
  unbounded : kind .unbounded
  cyclic : ∀ chain, kind (.cyclicAncestry chain)
  unresolved : ∀ reference reason, kind (.unresolvedReference reference reason)

/-- A kind of errors that takes in all that calls fail with before a body is run. -/
structure Error.OfReceptions (kind : Error → Prop) : Prop extends Error.Faulty kind where
  unbounded : kind .unbounded
  cyclic : ∀ chain, kind (.cyclicAncestry chain)
  notFound : ∀ method ancestry, kind (.operationNotFound method ancestry)
  missing : ∀ operation names, kind (.missingArguments operation names)
  tooMany : ∀ operation given accepted, kind (.tooManyArguments operation given accepted)

/-- A kind of errors that takes in all that invocations fail with. -/
structure Error.OfCalls (kind : Error → Prop) : Prop extends Error.OfReceptions kind where
  within : ∀ method entry arguments err, kind (.within method entry arguments err)

namespace Registry

variable {kind : Error → Prop} (r : Registry)

/-! ### References of a pipeline -/

section

variable (errors : Error.OfReferences kind)

include errors

theorem member_fails (reference : List String) (outcome : Outcome) (key : String) :
    Fails kind (r.member reference outcome key) := by
  have lost (reason : String) : kind (unresolved reference reason) := errors.unresolved _ reason
  simp only [member]
  split
  · split
    · exact .pure _
    · exact .throw (lost _)
  · split
    · exact .pure _
    · exact .throw (lost _)
  · split
    · exact .pure _
    · exact .throw (lost _)
  · refine Fails.bind ?_ fun found => ?_
    · exact parameter_fails errors.toFaulty r errors.unbounded errors.cyclic _ key
    split
    · exact .pure _
    · exact .throw (lost _)
  · exact .throw (lost _)

theorem lookup_fails (cache : Table String Outcome) (reference : List String) :
    Fails kind (r.lookup cache reference) := by
  simp only [lookup]
  split
  · exact .throw (errors.unresolved _ _)
  · split
    · exact Fails.foldlM (member_fails r errors _) _ _
    · exact .throw (errors.unresolved _ _)

theorem keywordTree_fails (cache : Table String Outcome) (step : Step) :
    Fails kind (r.keywordTree cache step) := by
  refine Fails.foldlM (fun tree a => ?_) _ _
  simp only [assignInto]
  split
  · exact .pure _
  · refine Fails.bind (lookup_fails r errors cache _) fun outcome => ?_
    split
    · exact .pure _
    · exact .throw (errors.unresolved _ _)

theorem cachedTarget_fails (cache : Table String Outcome) (reference : List String) :
    Fails kind (r.cachedTarget cache reference) := by
  refine (lookup_fails r errors cache reference).bind fun outcome => ?_
  split
  · exact .pure _
  · split
    · exact .pure _
    · exact .throw (errors.unresolved _ _)

theorem aim_fails (run : Run) (step : Step) : Fails kind (r.aim run step) := by
  cases h : step.restart with
  | stay =>
      simp only [aim, h]
      split
      · exact .pure _
      · exact .pure _
  | root =>
      simp only [aim, h]
      exact .pure _
  | cached reference =>
      simp only [aim, h]
      exact (cachedTarget_fails r errors _ reference).bind fun _ => .pure _
  | entry path =>
      simp only [aim, h]
      exact (byPath_fails path).bind fun _ => .pure _

end

theorem references_unraised : Error.OfReferences fun err => err.isRaised = false where
  storage _ _ := rfl
  malformed _ _ := rfl
  unbounded := rfl
  cyclic _ := rfl
  unresolved _ _ := rfl

theorem lookup_unraised (cache : Table String Outcome) (reference : List String) :
    Unraised (r.lookup cache reference) :=
  lookup_fails r references_unraised cache reference

theorem keywordTree_unraised (cache : Table String Outcome) (step : Step) :
    Unraised (r.keywordTree cache step) :=
  keywordTree_fails r references_unraised cache step

/-! ### Invocations -/

section

variable (errors : Error.OfReceptions kind)

include errors

theorem bound_fails (op : Operation) (positional : List Json) (bag : Params) :
    Fails kind (bound op positional bag) := by
  rw [bound]
  by_cases fits : op.shape.Fits positional
  · by_cases complete : op.shape.missing positional (Table.get? bag) = []
    · rw [Shape.bind_of_fits op.name fits complete]
      exact .pure _
    · rw [Shape.bind_of_missing op.name fits complete]
      exact .throw (errors.missing _ _)
  · rw [Shape.bind_of_not_fits op.name fits]
    exact .throw (errors.tooMany _ _ _)

theorem received_fails (e : Entry) (method : String) (positional : List Json) (named : Params) :
    Fails kind (r.received e method positional named) := by
  rw [received]
  refine (dispatch_fails errors.toFaulty r errors.unbounded errors.cyclic errors.notFound e
    method).bind fun found => ?_
  cases found with
  | inherited reached =>
      exact (merged_fails errors.toFaulty r errors.unbounded errors.cyclic e).bind fun _ =>
        bound_fails errors _ _ _
  | builtin layer op => exact bound_fails errors op _ _

end

theorem invoke_fails (errors : Error.OfCalls kind) (e : Entry) (method : String)
    (positional : List Json) (named : Params) :
    Fails kind (r.invoke e method positional named) := by
  rw [invoke]
  refine (received_fails r errors.toOfReceptions e method positional named).bind ?_
  intro call w err w' h
  rw [runBody] at h
  split at h <;> cases h
  exact errors.within _ _ _ _

end Registry
end Lineage
