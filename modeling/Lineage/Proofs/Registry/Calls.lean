import Lineage.Proofs.Registry.Arguments
import Lineage.Proofs.Registry.Hosts

/-!
Calls taken apart. An invocation looks up what the body of an operation is handed, and then runs the
body.
-/
namespace Lineage

open World Action

namespace Registry

/-- A call of an operation that an entry offers itself, where the entry is known to have no parent. -/
theorem received_of_top {r : Registry} {e : Entry} {method : String} {positional : List Json}
    {named own : Params} {offered : Option Namespace} {op : Operation} {w : World}
    {taken : EStateM.Result Error World Reception}
    (top : (w.cellsOf e).parent = some none) (offers : (w.cellsOf e).operations = some offered)
    (found : (offered.bind fun ns => ns.get? method) = some op) (load : r.own e w = .ok own w)
    (takes : bound op positional (withoutReserved
      (Table.overlay (Table.overlay [] own) (withoutReserved named))) w = taken) :
    r.received e method positional named w = taken := by
  have reached : r.reach e method w = .ok ⟨op, e, [e.name]⟩ w := reach_of_judges (.found offers found)
  have dispatched : r.dispatch e method w = .ok (.inherited ⟨op, e, [e.name]⟩) w := by
    rw [dispatch, reached]
  have levels : [e].reverse.mapM r.own w = .ok [own] w := by
    rw [List.reverse_singleton, List.mapM_cons, bind_of_ok load]
    rfl
  have view : r.merged e w = .ok (Table.overlay [] own) w :=
    merged_of_ancestry (ancestry_of_line r (.last top)) levels
  rw [received, bind_of_ok dispatched]
  exact (bind_of_ok view _).trans takes

/-- A body that fails is reported with the call that it was run for. -/
theorem runBody_eq (r : Registry) (op : Operation) (c : Call) (bag : Params) (w : World) :
    r.runBody op c bag w = result ((value (r.run (op.body c)) w).mapError
      (Error.within c.method c.entry.name bag)) (after (r.run (op.body c)) w) := by
  rw [runBody, value, after]
  cases r.run (op.body c) w <;> rfl

theorem received_leaves {r : Registry} {c e : Entry} (proper : c.Proper e) (method : String)
    (positional : List Json) (named : Params) :
    r.Leaves c (r.received e method positional named) fun _ => True := by
  have bound (op : Operation) (bag : Params) :
      r.Leaves c (bound op positional bag) fun _ => True := by
    rw [Registry.bound]
    split
    · exact .pure trivial
    · exact .throw _
  refine (dispatch_leaves proper method).bind fun found _ => ?_
  cases found with
  | inherited reached => exact (merged_leaves proper).bind fun view _ => bound _ _
  | builtin layer op => exact bound op _

end Registry
end Lineage
