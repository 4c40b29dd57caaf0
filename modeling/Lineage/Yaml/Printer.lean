import Lineage.Yaml.Scalar

/-!
Values as YAML documents in block style. A text is written plain if it reads back as text and no
character stands in the way, else in single quotes, as a literal block or in double quotes.
-/
namespace Lineage.Yaml

def numberFormat : NumberFormat := ⟨-4, 16, ""⟩

inductive Style where
  | plain
  | single
  | double
  | literal
deriving DecidableEq

def isPrintable (c : Char) : Bool :=
  let n := c.toNat
  n == 10 || (32 ≤ n && n ≤ 126) || (0xA0 ≤ n && n ≤ 0xFFFD && n != 0xFEFF) || 0x10000 ≤ n

/-- Whether some pair of neighbouring characters satisfies `p`. -/
def anyAdjacent (p : Char → Char → Bool) : List Char → Bool
  | a :: b :: r => p a b || anyAdjacent p (b :: r)
  | _ => false

/-- Whether an indicator keeps a text from being plain: at its start, a colon before a blank or a
number sign after one. -/
def hasIndicator (cs : List Char) : Bool :=
  let marker := cs.take 3 == ['-', '-', '-'] || cs.take 3 == ['.', '.', '.']
  let first := match cs with
    | c :: r =>
      "#,[]\x7b\x7d&*!|>'\"%@\x60".toList.contains c
        || ((c == '?' || c == ':' || c == '-') && blankNext r)
    | [] => false
  let colon := anyAdjacent (fun a b => a == ':' && blankNext [b]) cs.tail
    || (cs.length > 1 && cs.getLast? == some ':')
  let comment := anyAdjacent (fun a b => blankNext [a] && b == '#') cs
  marker || first || colon || comment

/-- What the characters of a text allow. -/
structure Allowed where
  plain : Bool
  single : Bool
  block : Bool

def allowed (cs : List Char) : Allowed :=
  let edge (c : Option Char) : Bool := c.any fun c => c == ' ' || isBreak c
  let breakSpace := anyAdjacent (fun a b => isBreak a && b == ' ') cs
  let spaceBreak := anyAdjacent (fun a b => a == ' ' && isBreak b) cs
  let special := !cs.all isPrintable
  let quotable := !(spaceBreak || special)
  { plain := quotable && !breakSpace && !cs.any isBreak && !edge cs.head? && !edge cs.getLast?
      && !hasIndicator cs
    single := quotable && !breakSpace
    block := quotable && cs.getLast? != some ' ' && cs != [] }

/-- The style of a text; `key` says that it must stay on one line. -/
def styleOf (key : Bool) (s : String) : Style :=
  let cs := s.toList
  let a := allowed cs
  let wanted : Style :=
    if cs.contains '\n' then .literal
    else
      match classify s with
      | .text => if isPaddedDigits cs then .single else .plain
      | _ => .single
  if key && cs.any isBreak then .double
  else
    match wanted with
    | .literal => if a.block && !key then .literal else .double
    | .plain => if a.plain then .plain else if a.single then .single else .double
    | _ => if a.single then .single else .double

def pad (n : Nat) : String := "".pushn ' ' n

def hexDigits (width n : Nat) : String :=
  let ds := (Nat.toDigits 16 n).map Char.toUpper
  String.ofList (List.replicate (width - ds.length) '0' ++ ds)

def escaped (c : Char) : String :=
  if c == '"' then "\\\""
  else if c == '\\' then "\\\\"
  else if isPrintable c && !isBreak c then c.toString
  else match c with
    | '\x00' => "\\0"
    | '\x07' => "\\a"
    | '\x08' => "\\b"
    | '\t' => "\\t"
    | '\n' => "\\n"
    | '\x0b' => "\\v"
    | '\x0c' => "\\f"
    | '\r' => "\\r"
    | '\x1b' => "\\e"
    | '\u0085' => "\\N"
    | '\u2028' => "\\L"
    | '\u2029' => "\\P"
    | c =>
      let n := c.toNat
      if n ≤ 0xFF then "\\x" ++ hexDigits 2 n
      else if n ≤ 0xFFFF then "\\u" ++ hexDigits 4 n
      else "\\U" ++ hexDigits 8 n

/-- Characters in single quotes; a line that a break opens is indented, be it empty or not. -/
def singleBody (indent : Nat) : Bool → List Char → String
  | broken, [] => if broken then pad indent else ""
  | broken, c :: r =>
    if isBreak c then c.toString ++ singleBody indent true r
    else
      (if broken then pad indent else "") ++ (if c == '\'' then "''" else c.toString)
        ++ singleBody indent false r

/-- The lines of a literal block, each indented unless it is empty. -/
def literalBody (indent : Nat) : Bool → List Char → String
  | _, [] => ""
  | broken, c :: r =>
    if isBreak c then c.toString ++ literalBody indent true r
    else (if broken then pad indent else "") ++ c.toString ++ literalBody indent false r

/-- The marks of a literal block: how it is indented if its start does not show it, and what
becomes of its last breaks. -/
def literalMarks (cs : List Char) : String :=
  let lead := if cs.head?.any fun c => c == ' ' || isBreak c then "2" else ""
  let tail := match cs.reverse with
    | [] => "-"
    | c :: r =>
      if !isBreak c then "-" else if r = [] || r.head?.any isBreak then "+" else ""
  lead ++ tail

/-- A text as a scalar; lines after its first are indented by `indent`. -/
def textScalar (key : Bool) (indent : Nat) (s : String) : String :=
  let cs := s.toList
  match styleOf key s with
  | .plain => s
  | .single => "'" ++ singleBody indent false cs ++ "'"
  | .double => "\"" ++ cs.foldl (fun acc c => acc ++ escaped c) "" ++ "\""
  | .literal => "|" ++ literalMarks cs ++ "\n" ++ literalBody indent true cs

/-- A value on one line, or as a literal block; containers only when they are empty. -/
def scalarText? (indent : Nat) : Json → Option String
  | .null => some "null"
  | .bool b => some (if b then "true" else "false")
  | .int n => some (toString n)
  | .float x => some (numberFormat.render x)
  | .str s => some (textScalar false indent s)
  | .arr [] => some "[]"
  | .obj [] => some "\x7b\x7d"
  | _ => none

def isSimpleKey (s : String) : Bool := !s.toList.any isBreak && s.utf8ByteSize ≤ 128

def endLine (line : String) : String :=
  if line.toList.getLast?.any isBreak then line else line ++ "\n"

/-- What stands before a field's value: its key and a colon. -/
def fieldHead (indent : Nat) (k : String) : String :=
  if isSimpleKey k then textScalar true (indent + 2) k ++ ":"
  else "? " ++ endLine (textScalar false (indent + 2) k) ++ pad indent ++ ": "

mutual

/-- A value up to the end of its last line, with further lines indented by `indent`. It stands at
the start of a line or after `- `, or, with `colon`, after the colon of a key indented that far; a
sequence there is not indented deeper than the key. -/
def nodeText (colon : Bool) (indent : Nat) : Json → String
  | .arr (x :: xs) =>
    (if colon then "\n" ++ pad indent else "") ++ "- " ++ nodeText false (indent + 2) x
      ++ itemsText indent xs
  | .obj ((k, x) :: xs) =>
    let inner := if colon then indent + 2 else indent
    (if colon then "\n" ++ pad inner else "") ++ fieldHead inner k
      ++ nodeText (isSimpleKey k) (if isSimpleKey k then inner else inner + 2) x
      ++ fieldsText inner xs
  | x =>
    if colon then " " ++ endLine ((scalarText? (indent + 2) x).getD "")
    else endLine ((scalarText? indent x).getD "")

def itemsText (indent : Nat) : List Json → String
  | [] => ""
  | x :: xs =>
    pad indent ++ "- " ++ nodeText false (indent + 2) x ++ itemsText indent xs

def fieldsText (indent : Nat) : List (String × Json) → String
  | [] => ""
  | (k, x) :: xs =>
    pad indent ++ fieldHead indent k
      ++ nodeText (isSimpleKey k) (if isSimpleKey k then indent else indent + 2) x
      ++ fieldsText indent xs

end

/-- A value as a document, up to the end of its last line. -/
def render (x : Json) : String :=
  match x with
  | .arr (_ :: _) | .obj (_ :: _) => nodeText false 0 x
  | x => endLine ((scalarText? 2 x).getD "")

end Lineage.Yaml
