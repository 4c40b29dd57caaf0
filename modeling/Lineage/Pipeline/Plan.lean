import Lineage.Pipeline.Token

/-!
Steps from tokens. A plan is read from left to right without going back, so the first malformed
token decides.
-/
namespace Lineage.Plan

def addArgument (s : Step) (token : String) : Except Error Step :=
  if Token.isKeyword token then
    match Token.assignment token with
    | .ok a => .ok { s with assignments := s.assignments ++ [a] }
    | .error e => .error e
  else .ok { s with positional := s.positional ++ [Token.scalar token] }

/-- The label at the front, and the tokens after it. -/
def takeLabel : List String → Option String × List String
  | [] => (none, [])
  | token :: rest =>
    match Token.label? token with
    | some label => (some label, rest)
    | none => (none, token :: rest)

theorem takeLabel_length (tokens : List String) :
    (takeLabel tokens).2.length ≤ tokens.length := by
  cases tokens with
  | nil => simp [takeLabel]
  | cons token rest => simp only [takeLabel]; split <;> simp

/-- One step, which starts as its separator says and takes every token up to the next separator.
`last` is the last token of the whole pipeline. -/
def readStep (last : String) (start : Restart × Bool) (tokens : List String) :
    Except Error (Step × List String) :=
  match takeLabel tokens with
  | (_, []) => .error (.parse last .missingMethod)
  | (label, method :: rest) =>
    if Token.isSeparator method || Token.isKeyword method then .error (.parse method .notAMethod)
    else
      let arguments := rest.takeWhile fun token => !Token.isSeparator token
      match arguments.foldlM addArgument
          { label, method, restart := start.1, iterate := start.2 } with
      | .ok s => .ok (s, rest.dropWhile fun token => !Token.isSeparator token)
      | .error e => .error e

theorem readStep_length {last : String} {start : Restart × Bool} {tokens rest : List String}
    {s : Step} (h : readStep last start tokens = .ok (s, rest)) : rest.length < tokens.length := by
  have hl := takeLabel_length tokens
  unfold readStep at h
  split at h
  · cases h
  · rename_i label method more heq
    rw [heq] at hl
    split at h
    · cases h
    · simp only at h
      split at h
      · injection h with h
        injection h with _ h
        have := (List.dropWhile_sublist (l := more) fun token => !Token.isSeparator token).length_le
        rw [h] at this
        simp only [List.length_cons] at hl
        omega
      · cases h

def readFrom (last : String) (start : Restart × Bool) (tokens : List String) :
    Except Error (List Step) :=
  match h : readStep last start tokens with
  | .error e => .error e
  | .ok (s, []) => .ok [s]
  | .ok (s, token :: rest) =>
    match Token.separator? token with
    | .error e => .error e
    | .ok none => .error (.parse token .expectedSeparator)
    | .ok (some start) =>
      have : rest.length < tokens.length := by
        have := readStep_length h
        simp only [List.length_cons] at this
        omega
      (readFrom last start rest).map (s :: ·)
termination_by tokens.length

/-- The steps of a pipeline. The separator before the first step may be left out. -/
def ofTokens (tokens : List String) : Except Error (List Step) :=
  match tokens with
  | [] => .ok []
  | token :: rest =>
    let last := (token :: rest).getLast?.getD ""
    match Token.separator? token with
    | .error e => .error e
    | .ok none => readFrom last (.stay, false) tokens
    | .ok (some start) => readFrom last start rest

end Lineage.Plan
