/-!
Tokens of a YAML text: block structure from indentation, flow structure from brackets, and scalars.
A key is recognised late, by the colon after it on the same line, so its tokens are inserted before
it then. Anchors, aliases, tags and directives are refused.
-/
namespace Lineage.Yaml

inductive Token where
  | documentStart
  | documentEnd
  | blockSequenceStart
  | blockMappingStart
  | blockEnd
  | flowSequenceStart
  | flowSequenceEnd
  | flowMappingStart
  | flowMappingEnd
  | blockEntry
  | flowEntry
  | key
  | value
  | scalar (plain : Bool) (text : String)
deriving DecidableEq, Repr

def isBreak (c : Char) : Bool :=
  c == '\n' || c == '\r' || c == '\u0085' || c == '\u2028' || c == '\u2029'

def isSpaceOrTab (c : Char) : Bool := c == ' ' || c == '\t'

/-- Whether a blank, a line break or the end comes next. -/
def blankNext : List Char → Bool
  | [] => true
  | c :: _ => isSpaceOrTab c || isBreak c

def isFlowIndicator (c : Char) : Bool :=
  c == ',' || c == '[' || c == ']' || c == '\x7b' || c == '\x7d'

/-- Characters that a text may hold at all. -/
def isAllowed (c : Char) : Bool :=
  let n := c.toNat
  n == 9 || n == 10 || n == 13 || (32 ≤ n && n ≤ 126) || n == 0x85 || (0xA0 ≤ n && n ≤ 0xFFFD)
    || 0x10000 ≤ n

/-- Where a key may begin: the tokens before it, and its place. A required one must be a key. -/
structure PossibleKey where
  required : Bool
  before : Nat
  index : Nat
  line : Nat
  column : Nat

/-- A position in the text with what the scan has to remember. `index` counts bytes and `column`
characters; `keys` has one slot for the block level and one for each open bracket. -/
structure Scan where
  rest : List Char
  index : Nat := 0
  line : Nat := 0
  column : Nat := 0
  flow : Nat := 0
  indent : Int := -1
  outer : List Int := []
  keyAllowed : Bool := true
  keys : List (Option PossibleKey) := [none]
  tokens : Array Token := #[]

namespace Scan

def skip (s : Scan) : Scan :=
  { s with
    rest := s.rest.tail
    index := s.index + (s.rest.head?.map Char.utf8Size).getD 0
    column := s.column + 1 }

def skipMany (s : Scan) (n : Nat) : Scan := n.repeat skip s

/-- Passes over one line break: the break as it counts in a scalar, and the scan after it. -/
def takeBreak (s : Scan) : List Char × Scan :=
  match s.rest with
  | '\r' :: '\n' :: r =>
    (['\n'], { s with rest := r, index := s.index + 2, line := s.line + 1, column := 0 })
  | c :: r =>
    if isBreak c then
      let shown := if c == '\u2028' || c == '\u2029' then c else '\n'
      ([shown],
        { s with rest := r, index := s.index + c.utf8Size, line := s.line + 1, column := 0 })
    else ([], s)
  | [] => ([], s)

def push (s : Scan) (t : Token) : Scan := { s with tokens := s.tokens.push t }

def insertAt (s : Scan) (i : Nat) (t : Token) : Scan :=
  { s with tokens := (s.tokens.extract 0 i).push t ++ s.tokens.extract i s.tokens.size }

/-- Drops keys whose line has ended or that are longer than 1024 bytes; a required one is then
missing. -/
def dropStaleKeys (s : Scan) : Option Scan :=
  let stale (k : PossibleKey) : Bool := k.line < s.line || k.index + 1024 < s.index
  if s.keys.any fun k => k.any fun k => k.required && stale k then none
  else some { s with keys := s.keys.map fun k => k.filter fun k => !stale k }

def dropKey (s : Scan) : Option Scan :=
  match s.keys with
  | some k :: outer => if k.required then none else some { s with keys := none :: outer }
  | _ => some s

def saveKey (s : Scan) : Option Scan :=
  if s.keyAllowed then
    s.dropKey.map fun s =>
      let k : PossibleKey :=
        ⟨s.flow == 0 && s.indent == s.column, s.tokens.size, s.index, s.line, s.column⟩
      { s with keys := some k :: s.keys.tail }
  else some s

/-- Opens a block collection if the column is deeper than the current one. -/
def rollIndent (s : Scan) (column : Nat) (at? : Option Nat) (t : Token) : Scan :=
  if s.flow = 0 ∧ s.indent < column then
    let s := { s with outer := s.indent :: s.outer, indent := column }
    match at? with
    | some i => s.insertAt i t
    | none => s.push t
  else s

/-- Closes the block collections deeper than the column. -/
def unrollIndent (s : Scan) (column : Int) : Scan :=
  if s.flow ≠ 0 then s
  else
    let closed := (s.indent :: s.outer).takeWhile fun i => i > column
    let left := (s.indent :: s.outer).drop closed.length
    { s with
      tokens := s.tokens ++ Array.replicate closed.length Token.blockEnd
      indent := left.headD (-1)
      outer := left.tail }

/-- The lines between tokens: blanks, comments and breaks. A tab is no indentation; a byte order
mark may open a line and takes up a column there. -/
def skipToToken : Nat → Scan → Scan
  | 0, s => s
  | fuel + 1, s =>
    match s.rest with
    | ' ' :: _ => skipToToken fuel s.skip
    | '\ufeff' :: _ => if s.column = 0 then skipToToken fuel s.skip else s
    | '\t' :: _ => if s.flow > 0 || !s.keyAllowed then skipToToken fuel s.skip else s
    | '#' :: r =>
      skipToToken fuel (s.skipMany (1 + (r.takeWhile fun c => !isBreak c).length))
    | c :: _ =>
      if isBreak c then
        let s := s.takeBreak.2
        skipToToken fuel { s with keyAllowed := s.keyAllowed || s.flow == 0 }
      else s
    | [] => s

/-- Blanks and breaks inside a scalar: blanks before the first break, that break, and the breaks
after it. -/
structure Gap where
  blanks : List Char := []
  first : List Char := []
  more : List Char := []
  broken : Bool := false

/-- A single line break counts as a space; of several the first is dropped. -/
def Gap.folded (g : Gap) : List Char :=
  if g.broken then
    if g.first = ['\n'] then (if g.more = [] then [' '] else g.more) else g.first ++ g.more
  else g.blanks

/-- Reads a gap. With a limit, a tab before that column in a new line is refused. -/
def takeGap (limit : Option Int) : Nat → Gap → Scan → Option (Gap × Scan)
  | 0, g, s => some (g, s)
  | fuel + 1, g, s =>
    match s.rest with
    | [] => some (g, s)
    | c :: _ =>
      if isSpaceOrTab c then
        if g.broken && c == '\t' && limit.any fun n => (s.column : Int) < n then none
        else
          let g := if g.broken then g else { g with blanks := g.blanks ++ [c] }
          takeGap limit fuel g s.skip
      else if isBreak c then
        let (b, s) := s.takeBreak
        let g :=
          if g.broken then { g with more := g.more ++ b }
          else { g with blanks := [], first := b, broken := true }
        takeGap limit fuel g s
      else some (g, s)

def atMarker (s : Scan) : Bool :=
  s.column == 0 &&
    match s.rest with
    | '-' :: '-' :: '-' :: r => blankNext r
    | '.' :: '.' :: '.' :: r => blankNext r
    | _ => false

/-- A run of plain characters, newest first in `acc`. In a flow collection, a colon right before an
indicator is refused. -/
def plainRun : Nat → List Char → Scan → Option (List Char × Scan)
  | 0, acc, s => some (acc, s)
  | fuel + 1, acc, s =>
    match s.rest with
    | [] => some (acc, s)
    | c :: r =>
      if isSpaceOrTab c || isBreak c then some (acc, s)
      else if c == ':' && s.flow > 0 && (r.head?.any fun d => isFlowIndicator d || d == '?') then
        none
      else if (c == ':' && blankNext r) || (s.flow > 0 && isFlowIndicator c) then some (acc, s)
      else plainRun fuel (c :: acc) s.skip

/-- A plain scalar from its pending gap on. It goes on in later lines that are indented deeper than
the collection around it. -/
def plainLines : Nat → List Char → Gap → Scan → Option (List Char × Scan)
  | 0, acc, _, s => some (acc, s)
  | fuel + 1, acc, gap, s =>
    if s.atMarker || s.rest.head? == some '#' then
      some (acc, { s with keyAllowed := s.keyAllowed || gap.broken })
    else
      match plainRun (s.rest.length + 1) [] s with
      | none => none
      | some (run, s) =>
        let stop := some (acc, { s with keyAllowed := s.keyAllowed || gap.broken })
        let acc := if run = [] then acc else run ++ (gap.folded.reverse ++ acc)
        let pending := if run = [] then gap else {}
        if !(s.rest.head?.any fun c => isSpaceOrTab c || isBreak c) then
          if run = [] then stop else some (acc, s)
        else
          match takeGap (some (s.indent + 1)) (s.rest.length + 1) pending s with
          | none => none
          | some (gap, s) =>
            if s.flow = 0 ∧ (s.column : Int) < s.indent + 1 then
              some (acc, { s with keyAllowed := s.keyAllowed || gap.broken })
            else plainLines fuel acc gap s

def hexValue? (ds : List Char) : Option Nat :=
  ds.foldlM (fun n c =>
    if c.isDigit then some (n * 16 + (c.toNat - 48))
    else if 'a' ≤ c ∧ c ≤ 'f' then some (n * 16 + (c.toNat - 87))
    else if 'A' ≤ c ∧ c ≤ 'F' then some (n * 16 + (c.toNat - 55))
    else none) 0

/-- The character that a hexadecimal escape of the given length names. -/
def codePoint? (length : Nat) (r : List Char) : Option Char :=
  if r.length < length then none
  else (hexValue? (r.take length)).bind fun n => if n.isValidChar then some (Char.ofNat n) else none

def namedEscape? : Char → Option Char
  | '0' => some '\x00'
  | 'a' => some '\x07'
  | 'b' => some '\x08'
  | 't' => some '\t'
  | '\t' => some '\t'
  | 'n' => some '\n'
  | 'v' => some '\x0b'
  | 'f' => some '\x0c'
  | 'r' => some '\r'
  | 'e' => some '\x1b'
  | ' ' => some ' '
  | '"' => some '"'
  | '/' => some '/'
  | '\\' => some '\\'
  | 'N' => some '\u0085'
  | '_' => some '\u00a0'
  | 'L' => some '\u2028'
  | 'P' => some '\u2029'
  | _ => none

/-- An escape after its backslash: the character and how many characters spell it. -/
def escape? : List Char → Option (Char × Nat)
  | 'x' :: r => (codePoint? 2 r).map (·, 3)
  | 'u' :: r => (codePoint? 4 r).map (·, 5)
  | 'U' :: r => (codePoint? 8 r).map (·, 9)
  | c :: _ => (namedEscape? c).map (·, 1)
  | [] => none

/-- The inside of a quoted scalar up to its closing quote, newest first in `acc`. -/
def quotedBody (single : Bool) : Nat → List Char → Scan → Option (List Char × Scan)
  | 0, _, _ => none
  | fuel + 1, acc, s =>
    if s.atMarker then none
    else
      match s.rest with
      | [] => none
      | c :: r =>
        if isSpaceOrTab c || isBreak c then
          match takeGap none (s.rest.length + 1) {} s with
          | none => none
          | some (gap, s) => quotedBody single fuel (gap.folded.reverse ++ acc) s
        else if single then
          if c == '\'' then
            if r.head? == some '\'' then quotedBody single fuel ('\'' :: acc) (s.skipMany 2)
            else some (acc, s.skip)
          else quotedBody single fuel (c :: acc) s.skip
        else if c == '"' then some (acc, s.skip)
        else if c == '\\' then
          if r.head?.any isBreak then
            let s := s.skip.takeBreak.2
            match takeGap none (s.rest.length + 1) { broken := true } s with
            | none => none
            | some (gap, s) => quotedBody single fuel (gap.folded.reverse ++ acc) s
          else
            match escape? r with
            | some (d, n) => quotedBody single fuel (d :: acc) (s.skipMany (n + 1))
            | none => none
        else quotedBody single fuel (c :: acc) s.skip

/-- Indentation and empty lines in a block scalar: the breaks, and the scan at the next line that
has a character. `indent` is zero while it is still to be found; `deepest` is its best guess. -/
def blockBreaks : Nat → Nat → Nat → List Char → Scan → Option (Nat × List Char × Scan)
  | 0, _, _, _, _ => none
  | fuel + 1, indent, deepest, breaks, s =>
    let open_ := indent == 0 || s.column < indent
    match s.rest with
    | ' ' :: _ =>
      if open_ then blockBreaks fuel indent deepest breaks s.skip
      else some (indent, breaks, s)
    | c :: _ =>
      let deepest := max deepest s.column
      if open_ && c == '\t' then none
      else if isBreak c then
        let (b, s) := s.takeBreak
        blockBreaks fuel indent deepest (breaks ++ b) s
      else some (found indent deepest s, breaks, s)
    | [] => some (found indent (max deepest s.column) s, breaks, s)
where
  found (indent deepest : Nat) (s : Scan) : Nat :=
    if indent = 0 then max (max deepest (s.indent + 1).toNat) 1 else indent

/-- Lines of a block scalar: `acc` so far, the break before the line, the empty lines after that,
and whether the line before began with a blank. -/
def blockLines (literal : Bool) (indent : Nat) :
    Nat → List Char → List Char → List Char → Bool → Scan →
      Option (List Char × List Char × List Char × Scan)
  | 0, _, _, _, _, _ => none
  | fuel + 1, acc, before, empty, blankBefore, s =>
    if s.column = indent ∧ s.rest ≠ [] then
      let blank := s.rest.head?.any isSpaceOrTab
      let joint :=
        if !literal && before == ['\n'] && !blankBefore && !blank then
          (if empty = [] then [' '] else [])
        else before
      let line := s.rest.takeWhile fun c => !isBreak c
      let (b, s) := (s.skipMany line.length).takeBreak
      match blockBreaks (s.rest.length + 1) indent 0 [] s with
      | none => none
      | some (_, more, s) =>
        blockLines literal indent fuel (acc ++ joint ++ empty ++ line) b more blank s
    else some (acc, before, empty, s)

/-- The marks after `|` or `>`: chomping, an indentation digit, and how long they are. -/
def blockHeader : List Char → Option (Option Bool × Nat × Nat)
  | c :: r =>
    let chomp (c : Char) : Option Bool :=
      if c == '+' then some true else if c == '-' then some false else none
    match chomp c with
    | some keep =>
      match r with
      | d :: _ =>
        if d == '0' then none
        else if d.isDigit then some (some keep, d.toNat - 48, 2) else some (some keep, 0, 1)
      | [] => some (some keep, 0, 1)
    | none =>
      if c == '0' then none
      else if c.isDigit then
        match r.head?.bind chomp with
        | some keep => some (some keep, c.toNat - 48, 2)
        | none => some (none, c.toNat - 48, 1)
      else some (none, 0, 0)
  | [] => some (none, 0, 0)

def blockScalar (literal : Bool) (s : Scan) : Option (List Char × Scan) := do
  let s := s.skip
  let (chomp, step, length) ← blockHeader s.rest
  let s := s.skipMany length
  let s := s.skipMany (s.rest.takeWhile isSpaceOrTab).length
  let s :=
    if s.rest.head? = some '#' then s.skipMany (s.rest.takeWhile fun c => !isBreak c).length else s
  if s.rest.head?.any fun c => !isBreak c then none
  else
    let s := s.takeBreak.2
    let indent := if step = 0 then 0 else (max s.indent 0).toNat + step
    let (indent, empty, s) ← blockBreaks (s.rest.length + 1) indent 0 [] s
    let (acc, last, empty, s) ← blockLines literal indent (s.rest.length + 1) [] [] empty false s
    let tail := if chomp = some false then [] else last
    let tail := if chomp = some true then tail ++ empty else tail
    return (acc ++ tail, s)

def fetchMarker (s : Scan) (t : Token) : Option Scan := do
  let s ← (s.unrollIndent (-1)).dropKey
  return ({ s with keyAllowed := false }.skipMany 3).push t

def fetchFlowStart (s : Scan) (t : Token) : Option Scan := do
  let s ← s.saveKey
  return ({ s with flow := s.flow + 1, keys := none :: s.keys, keyAllowed := true }.skip).push t

def fetchFlowEnd (s : Scan) (t : Token) : Option Scan := do
  let s ← s.dropKey
  let s := if s.flow = 0 then s else { s with flow := s.flow - 1, keys := s.keys.tail }
  return ({ s with keyAllowed := false }.skip).push t

def fetchFlowEntry (s : Scan) : Option Scan := do
  let s ← s.dropKey
  return ({ s with keyAllowed := true }.skip).push .flowEntry

def fetchBlockEntry (s : Scan) : Option Scan := do
  if s.flow = 0 ∧ ¬ s.keyAllowed then none
  else
    let s ← (s.rollIndent s.column none .blockSequenceStart).dropKey
    return ({ s with keyAllowed := true }.skip).push .blockEntry

def fetchExplicitKey (s : Scan) : Option Scan := do
  if s.flow = 0 ∧ ¬ s.keyAllowed then none
  else
    let s ← (s.rollIndent s.column none .blockMappingStart).dropKey
    return ({ s with keyAllowed := s.flow == 0 }.skip).push .key

def fetchValue (s : Scan) : Option Scan :=
  match s.keys with
  | some k :: outer =>
    let s := (s.insertAt k.before .key).rollIndent k.column (some k.before) .blockMappingStart
    some (({ s with keys := none :: outer, keyAllowed := false }.skip).push .value)
  | _ =>
    if s.flow = 0 ∧ ¬ s.keyAllowed then none
    else
      let s := s.rollIndent s.column none .blockMappingStart
      some (({ s with keyAllowed := s.flow == 0 }.skip).push .value)

def fetchBlockScalar (s : Scan) (literal : Bool) : Option Scan := do
  let s ← s.dropKey
  let (text, s) ← blockScalar literal { s with keyAllowed := true }
  return s.push (.scalar false (String.ofList text))

def fetchQuoted (s : Scan) (single : Bool) : Option Scan := do
  let s ← s.saveKey
  let s := { s with keyAllowed := false }.skip
  let (text, s) ← quotedBody single (s.rest.length + 1) [] s
  return s.push (.scalar false (String.ofList text.reverse))

def fetchPlain (s : Scan) : Option Scan := do
  let s ← s.saveKey
  let s := { s with keyAllowed := false }
  let (text, s) ← plainLines (s.rest.length + 1) [] {} s
  return s.push (.scalar true (String.ofList text.reverse))

/-- Whether a plain scalar may begin with `c` before `r`. -/
def beginsPlain (flow : Nat) (c : Char) (r : List Char) : Bool :=
  if c == '-' then !(r.head?.all isSpaceOrTab)
  else if c == '?' || c == ':' then flow == 0 && !blankNext r
  else !isSpaceOrTab c && !isBreak c && !("-?:,[]\x7b\x7d#&*!|>'\"%@\x60".toList.contains c)

def fetch (s : Scan) (c : Char) (r : List Char) : Option Scan :=
  if s.column = 0 ∧ c = '%' then none
  else if s.atMarker then s.fetchMarker (if c = '-' then .documentStart else .documentEnd)
  else if c = '[' then s.fetchFlowStart .flowSequenceStart
  else if c = '\x7b' then s.fetchFlowStart .flowMappingStart
  else if c = ']' then s.fetchFlowEnd .flowSequenceEnd
  else if c = '\x7d' then s.fetchFlowEnd .flowMappingEnd
  else if c = ',' then s.fetchFlowEntry
  else if c = '-' ∧ blankNext r then s.fetchBlockEntry
  else if c = '?' ∧ (s.flow > 0 ∨ blankNext r) then s.fetchExplicitKey
  else if c = ':' ∧ (s.flow > 0 ∨ blankNext r) then s.fetchValue
  else if c = '|' ∧ s.flow = 0 then s.fetchBlockScalar true
  else if c = '>' ∧ s.flow = 0 then s.fetchBlockScalar false
  else if c = '\'' then s.fetchQuoted true
  else if c = '"' then s.fetchQuoted false
  else if beginsPlain s.flow c r then s.fetchPlain
  else none

def run : Nat → Scan → Option (Array Token)
  | 0, _ => none
  | fuel + 1, s => do
    let s ← (skipToToken (s.rest.length + 1) s).dropStaleKeys
    let s := s.unrollIndent s.column
    match s.rest with
    | [] => (← (s.unrollIndent (-1)).dropKey).tokens
    | c :: r => run fuel (← s.fetch c r)

end Scan

def tokens? (text : String) : Option (List Token) :=
  let cs := text.toList
  if cs.all isAllowed then
    (Scan.run (cs.length + 2) { rest := cs }).map Array.toList
  else none

end Lineage.Yaml
