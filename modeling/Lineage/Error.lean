import Lineage.Json.Printer
import Lineage.Path

/-!
What can go wrong, with the wording and the exit code of each cause. The wording of the causes that
lie in a file system, or in the text of a document, goes no further than a number or a format. The
forms of tokens are functions, so that one of them is ill-formed is no cause.
-/
namespace Lineage

/-- Why a token is no part of a pipeline. -/
inductive TokenFault where
  | emptySegment (key : String)
  | expectedSeparator
  | missingMethod
  | notAMethod
  | noKeywordForm
deriving DecidableEq, Repr

def TokenFault.message : TokenFault → String
  | emptySegment key => s!"empty segment in '{key}'"
  | expectedSeparator => "expected a separator"
  | missingMethod => "missing method name"
  | notAMethod => "a separator or keyword cannot be a method name"
  | noKeywordForm => "matches no keyword form"

inductive Error where
  | parse (token : String) (fault : TokenFault)
  | entryNotFound (name : String)
  | operationNotFound (name : String) (ancestry : List String)
  | missingArguments (operation : String) (names : List String)
  | tooManyArguments (operation : String) (given accepted : Nat)
  | unresolvedReference (reference reason : String)
  | cyclicAncestry (chain : List String)
  | invocation (method entry : String) (arguments : Params) (reason : String)
  | storage (path : Path) (reason : String)
  | malformed (reason : String)
  | failed (reason : String)
  /-- Stands for no answer at all: a call, a walk or a search that never ends. -/
  | unbounded
deriving Inhabited

namespace Error

def chainText (names : List String) : String := " --> ".intercalate names

def message : Error → String
  | parse token fault => s!"parse error at '{token}': {fault.message}"
  | entryNotFound name => s!"could not find the entry '{name}'"
  | operationNotFound name ancestry =>
    s!"could not find the method '{name}' along the ancestry path '{chainText ancestry}'"
  | missingArguments operation names =>
    s!"'{operation}' is missing required arguments: " ++ ", ".intercalate names
  | tooManyArguments operation given accepted =>
    s!"'{operation}' accepts at most {accepted} positional arguments, got {given}"
  | unresolvedReference reference reason => s!"unresolved reference ':{reference}': {reason}"
  | cyclicAncestry chain => s!"cyclic ancestry: {chainText chain}"
  | invocation method entry arguments reason =>
    s!"method '{method}' on entry '{entry}' with parameters " ++ (Json.obj arguments).compact
      ++ s!" failed: {reason}"
  | storage path reason => s!"storage error at {path.text}: {reason}"
  | malformed reason => s!"malformed invocation: {reason}"
  | failed reason => reason
  | unbounded => "goes on without end"

/-- Two for what was not found, three for what was asked wrongly, one for what failed. -/
def exitCode : Error → Nat
  | entryNotFound _ | operationNotFound .. => 2
  | parse .. | malformed _ | missingArguments .. | tooManyArguments .. => 3
  | _ => 1

/-- Whether a running operation raised it. -/
def isRaised : Error → Bool
  | invocation .. | failed _ => true
  | _ => false

end Error
end Lineage
