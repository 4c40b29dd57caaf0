import Lineage.Error
import Lineage.Pipeline.Step
import Lineage.Number.Decimal
import Lineage.Number.Integer
import Lineage.Text.WordChar

/-!
The tokens of a pipeline, each classified by its own text: separators, labels, keywords and values.
-/
namespace Lineage

namespace Token

/-- An integer if the text denotes one of 64 bits, else a finite double, else the text itself. -/
def scalar (raw : String) : Json :=
  match int64? raw with
  | some n => .int n
  | none =>
    match (Decimal.ofChars? raw.toList).bind Decimal.toBinary64? with
    | some x => .float x
    | none => .str raw

def isPathChar (c : Char) : Bool := isWordChar c || c == '.'

/-- The inner text of `:path`, of word characters and points, with at least one. -/
def afterColon? : List Char → Option (List Char)
  | ':' :: r => if r ≠ [] ∧ r.all isPathChar then some r else none
  | _ => none

/-- A token shaped like a cache restart: its path, and whether `{` ends it. -/
def cacheRestart? (token : String) : Option (String × Bool) :=
  let cs := token.toList
  match afterColon? cs with
  | some r => some (String.ofList r, false)
  | none =>
    match cs.reverse with
    | '\x7b' :: r => (afterColon? r.reverse).map fun r => (String.ofList r, true)
    | _ => none

def plainSeparator? (token : String) : Option (Restart × Bool) :=
  if token = "," then some (.stay, false)
  else if token = ",," then some (.root, false)
  else if token = ",\x7b" then some (.stay, true)
  else if token = ",,\x7b" then some (.root, true)
  else none

def isSeparator (token : String) : Bool :=
  (plainSeparator? token).isSome || (cacheRestart? token).isSome

/-- The name before the colon of a label token. -/
def label? (token : String) : Option String :=
  match token.toList.reverse with
  | ':' :: r =>
    if r ≠ [] ∧ r.all isWordChar then some (String.ofList r.reverse) else none
  | _ => none

def isKeyword (token : String) : Bool :=
  match token.toList with
  | '-' :: '-' :: _ => true
  | _ => false

/-- The segments of a dotted key, none of which may be empty. -/
def dotted (token key : String) : Except Error (List String) :=
  let segments := pieces '.' key
  if segments.contains "" then .error (.parse token (.emptySegment key)) else .ok segments

/-- A separator token: where the next step starts, and whether it iterates. -/
def separator? (token : String) : Except Error (Option (Restart × Bool)) :=
  match plainSeparator? token with
  | some sep => .ok (some sep)
  | none =>
    match cacheRestart? token with
    | some (path, iterate) => do
      let path ← dotted token path
      return some (.cached path, iterate)
    | none => .ok none

inductive KeywordForm where
  /-- `target:source` -/
  | reference (target source : String)
  /-- `key=value`, or `key` and a delimiter before the equals sign -/
  | pair (key : String) (delimiter : Option Char) (value : String)
  /-- `key` alone or with a closing mark -/
  | single (key : String) (mark : Option Char)
deriving DecidableEq, Repr

/-- The form that the text after the dashes has. The key is the longest run of path characters;
what follows it decides. A value goes to the end and has no line feed. -/
def keywordForm? (body : List Char) : Option KeywordForm :=
  let key := String.ofList (body.takeWhile isPathChar)
  match body.dropWhile isPathChar with
  | ':' :: source =>
    if source ≠ [] ∧ source.all isPathChar then some (.reference key (String.ofList source))
    else none
  | rest =>
    if key = "" then none
    else
      let value (delimiter : Option Char) (cs : List Char) : Option KeywordForm :=
        if cs.contains '\n' then none else some (.pair key delimiter (String.ofList cs))
      match rest with
      | [] => some (.single key none)
      | '=' :: r => value none r
      | [c] => if c = ',' ∨ c = ';' ∨ c = '-' then some (.single key (some c)) else none
      | c :: '=' :: r => if c = ',' ∨ c = ';' ∨ c = ' ' then value (some c) r else none
      | _ => none

def assignment (token : String) : Except Error Assignment :=
  match keywordForm? (token.toList.drop 2) with
  | none => .error (.parse token .noKeywordForm)
  | some (.reference target source) => do
    let target ← if target = "" then pure [] else dotted token target
    let source ← dotted token source
    return .reference target source
  | some (.pair key none value) => do
    let key ← dotted token key
    match afterColon? value.toList with
    | some source => return .reference key (← dotted token (String.ofList source))
    | none => return .literal key (scalar value)
  | some (.pair key (some delimiter) value) => do
    let key ← dotted token key
    let items := if value = "" then [] else (pieces delimiter value).map scalar
    return .literal key (.arr items)
  | some (.single key mark) => do
    let key ← dotted token key
    return .literal key <|
      match mark with
      | none => .bool true
      | some '-' => .bool false
      | some _ => .arr []

end Token
end Lineage
