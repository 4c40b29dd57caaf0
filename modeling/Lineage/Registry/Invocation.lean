import Lineage.Registry.Description

/-!
Invoking methods. The caller's named values are laid upon the inherited parameters, bound to the
operation's shape, and the body of the operation is run; a built-in sees the caller's values only.
Calls in the body are invocations in turn.
-/
namespace Lineage

/-- Adds the call to an error that its body raised. Errors that say what was not found or how a
nested call was wrong speak for themselves. -/
def Error.within (method entry : String) (arguments : Params) : Error → Error
  | .failed reason => .invocation method entry arguments reason
  | e@(.entryNotFound _) | e@(.operationNotFound ..) | e@(.missingArguments ..)
  | e@(.tooManyArguments ..) | e@(.cyclicAncestry _) | e@(.invocation ..) | e@.unbounded => e
  | e => .invocation method entry arguments e.message

namespace Registry

def reservedKeys : List String := ["__kernel__", "__entry__"]

def withoutReserved (named : Params) : Params :=
  named.filter fun field => !reservedKeys.contains field.1

/-- Changes the disk and answers whether it refused. -/
def tryOnDisk (act : DiskAction Unit) : Action (Except DiskError Unit) := fun w =>
  match act w.disk with
  | .ok () d => .ok (.ok ()) { w with disk := d }
  | .error e d => .ok (.error e) { w with disk := d }

def answer (r : Registry) : (q : Request) → Action q.Answer
  | .workingCollection => r.workingCollection
  | .basePath file => pure (r.basePath file)
  | .byPath path => byPath path
  | .byName name => r.byName name
  | .cached name => cached name
  | .searchIn name collection => return (← r.searchFrom name collection []).1
  | .own e => r.own e
  | .merged e => r.merged e
  | .setParameter e name value => r.setParameter e name value
  | .updateParameters e data => r.updateParameters e data
  | .persist e => r.persist e
  | .parent e => r.parent e
  | .describeEntry e => r.describeEntry e
  | .describeMethod e method => r.describeMethod e method
  | .pathExists path => return (← get).disk.exists? path
  | .makeDirs path => tryOnDisk (Disk.makeDirs path)
  | .removeDirs path => tryOnDisk (Disk.removeDirs path)

/-- What a call comes down to: an operation, what its body is handed, and the values of the call. -/
structure Reception where
  operation : Operation
  args : Args
  bag : Params

def bound (op : Operation) (positional : List Json) (bag : Params) : Action Reception :=
  match op.shape.bind op.name positional bag with
  | .ok binding => return ⟨op, ⟨op.shape, binding⟩, bag⟩
  | .error err => throw err

/-- Finds the operation of a call and binds the values of the call to it. -/
def received (r : Registry) (e : Entry) (method : String) (positional : List Json)
    (named : Params) : Action Reception := do
  let caller := withoutReserved named
  match ← r.dispatch e method with
  | .inherited reached =>
    bound reached.operation positional (withoutReserved (Table.overlay (← r.merged e) caller))
  | .builtin _ op => bound op positional caller

/-- Runs a script, and the body of each operation that it calls. There is no answer if that never
ends. Only errors of a body are given the call that it was run for. -/
def play (r : Registry) {α : Type} :
    Script α → World → Option (EStateM.Result Error World α)
  | .done a, w => some (.ok a w)
  | .fail err, w => some (.error err w)
  | .ask q next, w =>
    match r.answer q w with
    | .ok a w => r |>.play (next (.ok a)) w
    | .error err w => r |>.play (next (.error err)) w
  | .call e method positional named next, w =>
    match r.received e method positional named w with
    | .error err w => r |>.play (next (.error err)) w
    | .ok got w => do
      match ← r |>.play (got.operation.body ⟨e, method, got.args⟩) w with
      | .ok outcome w => r |>.play (next (.ok outcome)) w
      | .error err w => r |>.play (next (.error (err.within method e.name got.bag))) w
partial_fixpoint

def run (r : Registry) {α : Type} (script : Script α) : Action α := fun w =>
  (r.play script w).getD (.error .unbounded w)

/-- Runs the body of an operation for a call with some values. -/
def runBody (r : Registry) (op : Operation) (c : Call) (bag : Params) : Action Outcome := fun w =>
  match r.run (op.body c) w with
  | .ok outcome w => .ok outcome w
  | .error err w => .error (err.within c.method c.entry.name bag) w

def invoke (r : Registry) (e : Entry) (method : String) (positional : List Json)
    (named : Params) : Action Outcome := do
  let got ← r.received e method positional named
  r.runBody got.operation ⟨e, method, got.args⟩ got.bag

end Registry
end Lineage
