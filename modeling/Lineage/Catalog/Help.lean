import Lineage.Operation

/-!
Operations that show what an operation would receive, and descriptions of entries and methods.
-/
namespace Lineage

namespace Help

def showParameters : Operation where
  name := "show"
  doc := "Return the received parameters: inherited, own and caller-supplied."
  shape := { extraNamed := true }
  body call := return .data (.obj call.args.named)

/-- The entry that a call is about: the one of a name that is given, else the receiver. -/
def subject (call : Call) : Script Entry :=
  match call.args.text? "entry_name" with
  | none => return call.entry
  | some name => do Script.ofOption (.entryNotFound name) (← .byName name)

def entry : Operation where
  name := "entry"
  doc := "Describe an entry (this one unless entry_name is given)."
  shape := { optional := [("entry_name", .null)] }
  body call := return .data (← .describeEntry (← subject call))

def method : Operation where
  name := "method"
  doc := "Describe how a method resolves on an entry."
  shape := { required := ["method_name"], optional := [("entry_name", .null)] }
  body call := do
    let method ← .ofExcept (call.args.requireText "method_name")
    return .data (← .describeMethod (← subject call) method)

end Help

namespace Catalog

def params : Namespace :=
  .ofList "params" "Inspect the parameters an operation would receive." [Help.showParameters]

def help : Namespace :=
  .ofList "help" "Describe entries and their methods." [Help.entry, Help.method]

end Catalog
end Lineage
