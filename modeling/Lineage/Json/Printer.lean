import Lineage.Json.Basic
import Lineage.Number.Decimal

/-!
Text of values. Compact text has no blanks; indented text puts each member on a line of its own and
keeps empty containers closed.
-/
namespace Lineage

inductive Layout where
  | compact
  | indented (width : Nat)

namespace Layout

/-- What stands before a member at the given depth. -/
def lineBreak : Layout → Nat → String
  | compact, _ => ""
  | indented width, depth => "\n" ++ "".pushn ' ' (width * depth)

def colon : Layout → String
  | compact => ":"
  | indented _ => ": "

end Layout

/-- Doubles are positional from 1e-5 up to 1e16. -/
def Json.numberFormat : NumberFormat := ⟨-4, 16, "+"⟩

/-- One character inside quotes: quote, backslash and control characters are escaped. -/
def escapeChar (c : Char) : String :=
  match c with
  | '"' => "\\\""
  | '\\' => "\\\\"
  | '\n' => "\\n"
  | '\r' => "\\r"
  | '\t' => "\\t"
  | '\x08' => "\\b"
  | '\x0c' => "\\f"
  | c =>
    if c.toNat < 32 then
      "\\u00" ++ String.ofList [Nat.digitChar (c.toNat / 16), Nat.digitChar (c.toNat % 16)]
    else c.toString

def quoted (s : String) : String :=
  "\"" ++ s.toList.foldl (fun acc c => acc ++ escapeChar c) "" ++ "\""

namespace Json

mutual

def renderAt (l : Layout) (depth : Nat) : Json → String
  | null => "null"
  | bool b => if b then "true" else "false"
  | int n => toString n
  | float x => numberFormat.render x
  | str s => quoted s
  | arr [] => "[]"
  | arr (x :: xs) =>
    "[" ++ l.lineBreak (depth + 1) ++ renderAt l (depth + 1) x ++ renderItems l (depth + 1) xs
      ++ l.lineBreak depth ++ "]"
  | obj [] => "\x7b\x7d"
  | obj ((k, x) :: xs) =>
    "\x7b" ++ l.lineBreak (depth + 1) ++ quoted k ++ l.colon ++ renderAt l (depth + 1) x
      ++ renderFields l (depth + 1) xs ++ l.lineBreak depth ++ "\x7d"

def renderItems (l : Layout) (depth : Nat) : List Json → String
  | [] => ""
  | x :: xs => "," ++ l.lineBreak depth ++ renderAt l depth x ++ renderItems l depth xs

def renderFields (l : Layout) (depth : Nat) : List (String × Json) → String
  | [] => ""
  | (k, x) :: xs =>
    "," ++ l.lineBreak depth ++ quoted k ++ l.colon ++ renderAt l depth x
      ++ renderFields l depth xs

end

def render (l : Layout) (x : Json) : String := renderAt l 0 x

def compact (x : Json) : String := x.render .compact

end Json
end Lineage
