import Lineage.Pipeline.Token

/-!
The grammar of pipelines, told by the texts that tokens have and the value of each. It says what a
pipeline is, not how one is read.
-/
namespace Lineage
namespace Grammar

/-- A text of word characters, at least one. -/
def IsWord (s : String) : Prop := s ≠ "" ∧ ∀ c ∈ s.toList, isWordChar c = true

/-- The segments of a dotted path. -/
def Dotted (segments : List String) : Prop := segments ≠ [] ∧ ∀ s ∈ segments, IsWord s

def spell (segments : List String) : String := ".".intercalate segments

/-- A text that is shaped like a dotted path, empty segments allowed. -/
def PathShaped (s : String) : Prop := s ≠ "" ∧ ∀ c ∈ s.toList, Token.isPathChar c = true

/-! ### Classes of tokens by their shape alone -/

def SeparatorShaped (token : String) : Prop :=
  token ∈ [",", ",,", ",\x7b", ",,\x7b"] ∨
    ∃ path, PathShaped path ∧ (token = ":" ++ path ∨ token = ":" ++ path ++ "\x7b")

def LabelShaped (token : String) : Prop := ∃ name, IsWord name ∧ token = name ++ ":"

def ReferenceShaped (text : String) : Prop := ∃ path, PathShaped path ∧ text = ":" ++ path

def Dashed (token : String) : Prop := ∃ body, token = "--" ++ body

/-! ### Tokens and their values -/

/-- A separator, where the step after it starts, and whether that step iterates. -/
inductive Separator : String → Restart → Bool → Prop
  | next : Separator "," .stay false
  | root : Separator ",," .root false
  | each : Separator ",\x7b" .stay true
  | rootEach : Separator ",,\x7b" .root true
  | cached {path} (h : Dotted path) : Separator (":" ++ spell path) (.cached path) false
  | cachedEach {path} (h : Dotted path) :
      Separator (":" ++ spell path ++ "\x7b") (.cached path) true

/-- A character that divides the items of a keyword's list. -/
def Delimiter (d : Char) : Prop := d = ',' ∨ d = ';' ∨ d = ' '

/-- A keyword token and what it assigns. -/
inductive Keyword : String → Assignment → Prop
  | tree {source} (hs : Dotted source) :
      Keyword ("--" ++ ":" ++ spell source) (.reference [] source)
  | reference {key source} (hk : Dotted key) (hs : Dotted source) :
      Keyword ("--" ++ spell key ++ ":" ++ spell source) (.reference key source)
  | referenceValue {key source} (hk : Dotted key) (hs : Dotted source) :
      Keyword ("--" ++ spell key ++ "=" ++ ":" ++ spell source) (.reference key source)
  | value {key text} (hk : Dotted key) (line : '\n' ∉ text.toList) (plain : ¬ ReferenceShaped text) :
      Keyword ("--" ++ spell key ++ "=" ++ text) (.literal key (Token.scalar text))
  | noItems {key d} (hk : Dotted key) (hd : Delimiter d) :
      Keyword ("--" ++ spell key ++ String.singleton d ++ "=") (.literal key (.arr []))
  | items {key d items} (hk : Dotted key) (hd : Delimiter d) (ne : items ≠ []) (text : items ≠ [""])
      (apart : ∀ item ∈ items, d ∉ item.toList ∧ '\n' ∉ item.toList) :
      Keyword ("--" ++ spell key ++ String.singleton d ++ "=" ++
          (String.singleton d).intercalate items)
        (.literal key (.arr (items.map Token.scalar)))
  | on {key} (hk : Dotted key) : Keyword ("--" ++ spell key) (.literal key (.bool true))
  | off {key} (hk : Dotted key) : Keyword ("--" ++ spell key ++ "-") (.literal key (.bool false))
  | empty {key mark} (hk : Dotted key) (hm : mark = ',' ∨ mark = ';') :
      Keyword ("--" ++ spell key ++ String.singleton mark) (.literal key (.arr []))

/-- The arguments of a step: what they give by position and what they assign, each in order. -/
inductive Arguments : List String → List Json → List Assignment → Prop
  | nil : Arguments [] [] []
  | positional {token tokens values assignments} (plain : ¬ SeparatorShaped token ∧ ¬ Dashed token)
      (tail : Arguments tokens values assignments) :
      Arguments (token :: tokens) (Token.scalar token :: values) assignments
  | keyword {token a tokens values assignments} (head : Keyword token a)
      (tail : Arguments tokens values assignments) :
      Arguments (token :: tokens) values (a :: assignments)

/-! ### Steps and pipelines -/

/-- The tokens of a step after its separator. -/
structure Clause where
  label : Option String
  method : String
  arguments : List String

def Clause.tokens (c : Clause) : List String :=
  (c.label.map (· ++ ":")).toList ++ c.method :: c.arguments

/-- A clause is well formed and has a step, which starts as given, for its value. A method that comes
without a label is none itself. -/
structure Clause.Reads (c : Clause) (restart : Restart) (iterate : Bool) (s : Step) : Prop where
  label : ∀ name ∈ c.label, IsWord name
  method : ¬ SeparatorShaped c.method ∧ ¬ Dashed c.method
  unlabelled : c.label = none → ¬ LabelShaped c.method
  arguments : Arguments c.arguments s.positional s.assignments
  named : s.label = c.label ∧ s.method = c.method
  start : s.restart = restart ∧ s.iterate = iterate

/-- A clause with the separator before it. -/
structure Segment where
  separator : Option String
  clause : Clause

def Segment.tokens (g : Segment) : List String := g.separator.toList ++ g.clause.tokens

/-- A segment has a step for its value. Without a separator the step stays where it is. -/
inductive Segment.Reads : Segment → Step → Prop
  | first {c s} (clause : c.Reads .stay false s) : Segment.Reads ⟨none, c⟩ s
  | after {token restart iterate c s} (start : Separator token restart iterate)
      (clause : c.Reads restart iterate s) : Segment.Reads ⟨some token, c⟩ s

/-- A split of a pipeline into segments uses every token once and in order. Only the first segment
may lack its separator. -/
def IsSplit (tokens : List String) (split : List Segment) : Prop :=
  tokens = split.flatMap Segment.tokens ∧ ∀ g ∈ split.tail, g.separator.isSome

end Grammar
end Lineage
