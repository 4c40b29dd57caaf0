import Lineage.Yaml.Token

/-!
YAML documents as trees. `Node.read?` takes a text that holds at most one document; an empty text
holds none, which differs from a document with an empty scalar.
-/
namespace Lineage.Yaml

inductive Node where
  | scalar (plain : Bool) (text : String)
  | sequence (items : List Node)
  | mapping (fields : List (Node × Node))
deriving Inhabited, Repr

namespace Node

def empty : Node := scalar true ""

/-- Whether a list of tokens is at its end or begins with one of `ts`. -/
def startsWith (ts : List Token) : List Token → Bool
  | [] => true
  | t :: _ => ts.contains t

mutual

/-- A node in block or flow context. `indentless` admits entries of a sequence that is not
indented below its key. -/
def parse (block indentless : Bool) (fuel : Nat) (ts : List Token) : Option (Node × List Token) :=
  match fuel with
  | 0 => none
  | fuel + 1 =>
    match ts with
    | .scalar plain text :: r => some (scalar plain text, r)
    | .flowSequenceStart :: r =>
      (flowItems true fuel [] r).map fun (xs, r) => (sequence xs, r)
    | .flowMappingStart :: r =>
      (flowFields true fuel [] r).map fun (xs, r) => (mapping xs, r)
    | .blockEntry :: _ =>
      if indentless then (indentlessItems fuel [] ts).map fun (xs, r) => (sequence xs, r) else none
    | .blockSequenceStart :: r =>
      if block then (blockItems fuel [] r).map fun (xs, r) => (sequence xs, r) else none
    | .blockMappingStart :: r =>
      if block then (blockFields fuel [] r).map fun (xs, r) => (mapping xs, r) else none
    | _ => none

/-- A node, or an empty scalar where one of `stops` shows that it was left out. -/
def optional (block indentless : Bool) (stops : List Token) (fuel : Nat) (ts : List Token) :
    Option (Node × List Token) :=
  match fuel with
  | 0 => none
  | fuel + 1 => if startsWith stops ts then some (empty, ts) else parse block indentless fuel ts

def blockItems (fuel : Nat) (acc : List Node) (ts : List Token) :
    Option (List Node × List Token) :=
  match fuel with
  | 0 => none
  | fuel + 1 =>
    match ts with
    | .blockEntry :: r =>
      match optional true false [.blockEntry, .blockEnd] fuel r with
      | some (x, r) => blockItems fuel (x :: acc) r
      | none => none
    | .blockEnd :: r => some (acc.reverse, r)
    | _ => none

def indentlessItems (fuel : Nat) (acc : List Node) (ts : List Token) :
    Option (List Node × List Token) :=
  match fuel with
  | 0 => none
  | fuel + 1 =>
    match ts with
    | .blockEntry :: r =>
      match optional true false [.blockEntry, .key, .value, .blockEnd] fuel r with
      | some (x, r) => indentlessItems fuel (x :: acc) r
      | none => none
    | _ => some (acc.reverse, ts)

def blockFields (fuel : Nat) (acc : List (Node × Node)) (ts : List Token) :
    Option (List (Node × Node) × List Token) :=
  match fuel with
  | 0 => none
  | fuel + 1 =>
    match ts with
    | .key :: r =>
      match optional true true [.key, .value, .blockEnd] fuel r with
      | none => none
      | some (k, .value :: r) =>
        match optional true true [.key, .value, .blockEnd] fuel r with
        | some (x, r) => blockFields fuel ((k, x) :: acc) r
        | none => none
      | some (k, r) => blockFields fuel ((k, empty) :: acc) r
    | .blockEnd :: r => some (acc.reverse, r)
    | _ => none

/-- The items of a sequence in brackets. A pair there may leave out its key only if the token that
shows this is doubled. -/
def flowItems (first : Bool) (fuel : Nat) (acc : List Node) (ts : List Token) :
    Option (List Node × List Token) :=
  match fuel with
  | 0 => none
  | fuel + 1 =>
    let next : Option (List Token) :=
      match first, ts with
      | true, ts => some ts
      | false, .flowEntry :: r => some r
      | false, .flowSequenceEnd :: r => some (.flowSequenceEnd :: r)
      | false, _ => none
    match next with
    | none => none
    | some (.flowSequenceEnd :: r) => some (acc.reverse, r)
    | some (.key :: r) =>
      let pairKey :=
        if startsWith [.value, .flowEntry, .flowSequenceEnd] r then some (empty, r.tail)
        else parse false false fuel r
      match pairKey with
      | none => none
      | some (k, .value :: r) =>
        match optional false false [.flowEntry, .flowSequenceEnd] fuel r with
        | some (x, r) => flowItems false fuel (mapping [(k, x)] :: acc) r
        | none => none
      | some (k, r) => flowItems false fuel (mapping [(k, empty)] :: acc) r
    | some r =>
      match parse false false fuel r with
      | some (x, r) => flowItems false fuel (x :: acc) r
      | none => none

def flowFields (first : Bool) (fuel : Nat) (acc : List (Node × Node)) (ts : List Token) :
    Option (List (Node × Node) × List Token) :=
  match fuel with
  | 0 => none
  | fuel + 1 =>
    let next : Option (List Token) :=
      match first, ts with
      | true, ts => some ts
      | false, .flowEntry :: r => some r
      | false, .flowMappingEnd :: r => some (.flowMappingEnd :: r)
      | false, _ => none
    match next with
    | none => none
    | some (.flowMappingEnd :: r) => some (acc.reverse, r)
    | some (.key :: r) =>
      match optional false false [.value, .flowEntry, .flowMappingEnd] fuel r with
      | none => none
      | some (k, .value :: r) =>
        match optional false false [.flowEntry, .flowMappingEnd] fuel r with
        | some (x, r) => flowFields false fuel ((k, x) :: acc) r
        | none => none
      | some (k, r) => flowFields false fuel ((k, empty) :: acc) r
    | some r =>
      match parse false false fuel r with
      | some (k, r) => flowFields false fuel ((k, empty) :: acc) r
      | none => none

end

/-- The document of a token list, and whether nothing but document ends follows it. -/
def document (ts : List Token) : Option (Option Node) :=
  let content (explicit : Bool) (ts : List Token) : Option (Option Node) :=
    let body := if explicit && startsWith [.documentStart, .documentEnd] ts then some (empty, ts)
      else parse true false (3 * ts.length + 3) ts
    match body with
    | some (x, r) => if r.all (· == .documentEnd) then some (some x) else none
    | none => none
  match ts with
  | [] => some none
  | .documentStart :: r => content true r
  | ts => content false ts

def read? (text : String) : Option (Option Node) := (tokens? text).bind document

end Node
end Lineage.Yaml
