import Lineage.Error

/-!
Declared parameters of an operation and the binding of a call to them. `Shape.bind` sorts the
values of a call into positional slots and named values; `Args` reads them back by name.
-/
namespace Lineage

structure Shape where
  required : List String := []
  optional : List (String × Json) := []
  extraNamed : Bool := false
  variadic : Bool := false
deriving Inhabited

namespace Shape

def optionalNames (s : Shape) : List String := s.optional.map Prod.fst

def declared (s : Shape) : List String := s.required ++ s.optionalNames

def positionOf? (s : Shape) (name : String) : Option Nat := s.declared.idxOf? name

def defaultOf? (s : Shape) (name : String) : Option Json := Table.get? s.optional name

def text (s : Shape) : String :=
  ", ".intercalate
    (s.required ++ s.optional.map (fun p => p.1 ++ "=" ++ p.2.compact)
      ++ (if s.variadic then ["*args"] else []) ++ (if s.extraNamed then ["**rest"] else []))

end Shape

/-- Values of a call: those in slots, in declared order, and those kept by name. -/
structure Binding where
  positional : List Json
  named : Params
deriving Inhabited

namespace Shape

/-- Required names that the first `n` positional values leave open. -/
def openRequired (s : Shape) (n : Nat) : List String := s.required.drop n

/-- Whether a named value stays named: not given by position, not moved to a slot, and wanted. -/
def keepsNamed (s : Shape) (n : Nat) (name : String) : Bool :=
  !(s.declared.take n).contains name && !(s.openRequired n).contains name
    && (s.extraNamed || s.optionalNames.contains name)

/-- Binds a call. Open required names take their values from the named ones and join the slots;
defaults are not filled in here. -/
def bind (operation : String) (s : Shape) (positional : List Json) (named : Params) :
    Except Error Binding :=
  let n := positional.length
  if !s.variadic && n > s.declared.length then
    .error (.tooManyArguments operation n s.declared.length)
  else
    let missing := (s.openRequired n).filter fun name => !Table.contains named name
    if missing ≠ [] then .error (.missingArguments operation missing)
    else .ok {
      positional := positional ++ (s.openRequired n).filterMap (Table.get? named)
      named := named.filter fun field => s.keepsNamed n field.1 }

end Shape

structure Args where
  shape : Shape
  binding : Binding
deriving Inhabited

namespace Args

def slot? (a : Args) (name : String) : Option Json :=
  (a.shape.positionOf? name).bind fun i => a.binding.positional[i]?

/-- The slot of a name, else its named value, else its default. -/
def get? (a : Args) (name : String) : Option Json :=
  match a.slot? name with
  | some value => some value
  | none =>
    match Table.get? a.binding.named name with
    | some value => some value
    | none => a.shape.defaultOf? name

def require (a : Args) (name : String) : Except Error Json :=
  match a.get? name with
  | some value => .ok value
  | none => .error (.failed s!"argument '{name}' has no value")

def text? (a : Args) (name : String) : Option String := (a.get? name).bind Json.str?

def requireText (a : Args) (name : String) : Except Error String := do
  match (← a.require name).str? with
  | some s => .ok s
  | none => .error (.failed s!"argument '{name}' must be a string")

def named (a : Args) : Params := a.binding.named

/-- Positional values beyond the declared names. -/
def rest (a : Args) : List Json := a.binding.positional.drop a.shape.declared.length

/-- Every declared name that has a value, in declared order, and then the other named values. -/
def toTable (a : Args) : Params :=
  let declared := a.shape.declared.foldl (fun acc name =>
    match a.get? name with
    | some value => Table.insert acc name value
    | none => acc) []
  a.named.foldl (fun acc field =>
    if Table.contains acc field.1 then acc else Table.insert acc field.1 field.2) declared

end Args
end Lineage
