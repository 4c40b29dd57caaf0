import Lineage.Proofs.Pipeline.Split

/-!
Pipelines one after the other. A pipeline is read from left to right, and a step ends where a
separator stands; so tokens that start with a separator go on from whatever pipeline is before them.
The first malformed token decides, whatever comes after it. Only a missing method is told by the end
of the tokens.
-/
namespace Lineage

/-- An error that some token gives by itself, whatever comes after it. -/
def Error.Malformed (err : Error) : Prop :=
  ∃ token fault, err = .parse token fault ∧ fault ≠ .missingMethod

/-- What is read from one token fails only for that it is malformed. -/
def Token.Reads {α : Type} (found : Except Error α) : Prop :=
  ∀ err, found = .error err → err.Malformed

namespace Token

variable {α β : Type} {x : Except Error α} {f : α → Except Error β}

theorem Reads.ok (a : α) : Reads (.ok a) := nofun

theorem Reads.fault {fault : TokenFault} (token : String) (present : fault ≠ .missingMethod) :
    Reads (α := α) (.error (.parse token fault)) := by
  rintro _ ⟨⟩
  exact ⟨_, _, rfl, present⟩

theorem Reads.bind (first : Reads x) (next : ∀ a, Reads (f a)) : Reads (x >>= f) := by
  cases x with
  | error err =>
      rintro _ ⟨⟩
      exact first err rfl
  | ok a => exact next a

theorem reads_dotted (token key : String) : Reads (dotted token key) := by
  rw [dotted]
  split
  · exact .fault token (by simp)
  · exact .ok _

theorem reads_separator? (token : String) : Reads (separator? token) := by
  rw [separator?]
  split
  · exact .ok _
  · split
    · exact .bind (reads_dotted token _) fun _ => .ok _
    · exact .ok _

theorem reads_assignment (token : String) : Reads (assignment token) := by
  rw [assignment]
  split
  · exact .fault token (by simp)
  · dsimp only
    split
    · exact .bind (.ok _) fun _ => .bind (reads_dotted token _) fun _ => .ok _
    · exact .bind (reads_dotted token _) fun _ => .bind (reads_dotted token _) fun _ => .ok _
  · refine .bind (reads_dotted token _) fun key => ?_
    split
    · exact .bind (reads_dotted token _) fun _ => .ok _
    · exact .ok _
  · exact .bind (reads_dotted token _) fun _ => .ok _
  · exact .bind (reads_dotted token _) fun _ => .ok _

end Token

namespace Plan

open Grammar

variable {last last' token : String} {start : Restart × Bool} {tokens rest more : List String}
  {s : Step} {steps : List Step} {err : Error}

/-! ### One step -/

theorem takeLabel_append {label : Option String} {method : String}
    (h : takeLabel tokens = (label, method :: rest)) (more : List String) :
    takeLabel (tokens ++ more) = (label, method :: (rest ++ more)) := by
  obtain ⟨rfl, words, unlabelled⟩ := takeLabel_eq_iff.mp h
  exact takeLabel_eq_iff.mpr ⟨by simp, words, unlabelled⟩

theorem addArgument_malformed (h : addArgument s token = .error err) : err.Malformed := by
  rw [addArgument] at h
  split at h
  · split at h <;> cases h
    exact Token.reads_assignment token _ ‹_›
  · cases h

theorem foldlM_addArgument_malformed (h : tokens.foldlM addArgument s = .error err) :
    err.Malformed := by
  induction tokens generalizing s with
  | nil => cases h
  | cons token tokens ih =>
      rw [List.foldlM_cons] at h
      cases added : addArgument s token with
      | error e =>
          rw [added] at h
          cases h
          exact addArgument_malformed added
      | ok s₁ =>
          rw [added, Token.ok_bind] at h
          exact ih h

theorem takeWhile_append_eq (p : String → Bool) (tokens more : List String) :
    ∃ tail, (tokens ++ more).takeWhile p = tokens.takeWhile p ++ tail := by
  rw [List.takeWhile_append]
  split
  · rename_i all
    rw [(List.takeWhile_prefix p).eq_of_length all]
    exact ⟨_, rfl⟩
  · exact ⟨[], (List.append_nil _).symm⟩

/-- A step that was read is read from more tokens, if it does not go on in them. -/
theorem readStep_append (last' : String) (h : readStep last start tokens = .ok (s, rest))
    (stops : ∀ token ∈ (rest ++ more).head?, SeparatorShaped token) :
    readStep last' start (tokens ++ more) = .ok (s, rest ++ more) := by
  obtain ⟨c, rfl, -, reads⟩ := clause_of_readStep h
  rw [List.append_assoc]
  exact readStep_of_clause last' reads stops

/-- A step of which no method is there, or one with a token that decides. -/
theorem readStep_error (h : readStep last start tokens = .error err) :
    err = .parse last .missingMethod ∨
      err.Malformed ∧ ∀ last' more, readStep last' start (tokens ++ more) = .error err := by
  rw [readStep] at h
  split at h
  · cases h
    exact .inl rfl
  · rename_i label method arguments front
    refine .inr ?_
    simp only [readStep, takeLabel_append front]
    dsimp only at h
    split at h
    · rename_i bad
      cases h
      exact ⟨⟨_, _, rfl, by simp⟩, fun _ _ => if_pos bad⟩
    · rename_i good
      split at h <;> cases h
      rename_i fails
      refine ⟨foldlM_addArgument_malformed fails, fun last' more => ?_⟩
      obtain ⟨tail, same⟩ := takeWhile_append_eq (fun token => !Token.isSeparator token)
        arguments more
      rw [if_neg good, same, List.foldlM_append, fails]
      rfl

/-! ### From a separator on -/

/-- Reads tokens that go on from steps before them. -/
def readOn (last : String) : List String → Except Error (List Step)
  | [] => .ok []
  | token :: rest =>
    match Token.separator? token with
    | .error err => .error err
    | .ok none => .error (.parse token .expectedSeparator)
    | .ok (some start) => readFrom last start rest

theorem readFrom_of_ok (h : readStep last start tokens = .ok (s, rest)) :
    readFrom last start tokens = (readOn last rest).map (s :: ·) := by
  cases rest with
  | nil => exact readFrom_last h
  | cons token rest =>
      cases sep : Token.separator? token with
      | error err =>
          rw [readOn, sep, readFrom]
          split <;> simp_all [Except.map]
      | ok found =>
          cases found with
          | some next => rw [readFrom_next h sep, readOn, sep]
          | none =>
              rw [readOn, sep, readFrom]
              split <;> simp_all [Except.map]

theorem readFrom_of_error (h : readStep last start tokens = .error err) :
    readFrom last start tokens = .error err := by
  rw [readFrom]
  split <;> simp_all

theorem readOn_of_separator {next : Restart × Bool}
    (sep : Token.separator? token = .ok (some next)) :
    readOn last (token :: rest) = readFrom last next rest := by
  rw [readOn, sep]

theorem map_append_map (found : Except Error (List Step)) :
    (found.map (steps ++ ·)).map (s :: ·) = found.map (s :: steps ++ ·) := by
  cases found <;> rfl

/-- Steps that were read are read before a separator, and what it leads to comes after them. -/
theorem readFrom_append (last' : String) (sep : SeparatorShaped token)
    (h : readFrom last start tokens = .ok steps) :
    readFrom last' start (tokens ++ token :: more) =
      (readOn last' (token :: more)).map (steps ++ ·) := by
  fun_induction readFrom last start tokens generalizing steps with
  | case1 | case3 | case4 => cases h
  | case2 start tokens s hstep =>
      cases h
      exact readFrom_of_ok (readStep_append last' hstep (by simpa using sep))
  | case5 start tokens s token' rest hstep next hsep _ ih =>
      obtain ⟨-, -, stops, -⟩ := clause_of_readStep hstep
      cases hrest : readFrom last next rest with
      | error err =>
          rw [hrest] at h
          cases h
      | ok steps =>
          rw [hrest] at h
          cases h
          rw [readFrom_of_ok (readStep_append last' hstep stops), List.cons_append,
            readOn_of_separator hsep, ih hrest, map_append_map]

/-- Steps of which the last has no method, or some with a token that decides. -/
theorem readFrom_error (h : readFrom last start tokens = .error err) :
    err = .parse last .missingMethod ∨
      err.Malformed ∧ ∀ last' more, readFrom last' start (tokens ++ more) = .error err := by
  have refused {start : Restart × Bool} {tokens rest : List String} {s : Step} {token : String}
      {err : Error} (hstep : readStep last start tokens = .ok (s, token :: rest))
      (hon : ∀ last' more, readOn last' (token :: (rest ++ more)) = .error err)
      (last' : String) (more : List String) :
      readFrom last' start (tokens ++ more) = .error err := by
    obtain ⟨-, -, stops, -⟩ := clause_of_readStep hstep
    rw [readFrom_of_ok (readStep_append last' hstep stops), List.cons_append, hon]
    rfl
  fun_induction readFrom last start tokens with
  | case1 start tokens e hstep =>
      cases h
      exact (readStep_error hstep).imp_right (And.imp_right fun again last' more =>
        readFrom_of_error (again last' more))
  | case2 => cases h
  | case3 start tokens s token rest hstep e hsep =>
      cases h
      exact .inr ⟨Token.reads_separator? token _ hsep,
        refused hstep fun last' more => by rw [readOn, hsep]⟩
  | case4 start tokens s token rest hstep hsep =>
      cases h
      exact .inr ⟨⟨_, _, rfl, by simp⟩, refused hstep fun last' more => by rw [readOn, hsep]⟩
  | case5 start tokens s token rest hstep next hsep _ ih =>
      cases hrest : readFrom last next rest with
      | ok steps =>
          rw [hrest] at h
          cases h
      | error e =>
          rw [hrest] at h
          cases h
          refine (ih hrest).imp_right (And.imp_right fun again => refused hstep ?_)
          intro last' more
          rw [readOn_of_separator hsep, again last' more]

/-! ### Whole pipelines -/

theorem ofTokens_of_separator (sep : SeparatorShaped token) (more : List String) :
    ofTokens (token :: more) = readOn ((token :: more).getLast?.getD "") (token :: more) := by
  rw [ofTokens, readOn]
  cases found : Token.separator? token with
  | error err => rfl
  | ok found' =>
      cases found' with
      | some start => rfl
      | none => exact absurd sep (Token.separator?_eq_ok_none_iff.mp found)

theorem ofTokens_append (h : ofTokens tokens = .ok steps) (sep : SeparatorShaped token) :
    ofTokens (tokens ++ token :: more) = (ofTokens (token :: more)).map (steps ++ ·) := by
  have last : (tokens ++ token :: more).getLast? = (token :: more).getLast? := by
    rw [List.getLast?_append]
    rfl
  rw [ofTokens_of_separator sep]
  cases tokens with
  | nil =>
      cases h
      rw [List.nil_append, ofTokens_of_separator sep]
      cases readOn ((token :: more).getLast?.getD "") (token :: more) <;> rfl
  | cons first tokens =>
      rw [List.cons_append] at last
      rw [List.cons_append, ofTokens, last]
      rw [ofTokens] at h
      cases found : Token.separator? first with
      | error err =>
          rw [found] at h
          cases h
      | ok found' =>
          rw [found] at h
          cases found' with
          | some start => exact readFrom_append _ sep h
          | none => exact readFrom_append _ sep h

theorem ofTokens_error (h : ofTokens tokens = .error err) :
    err = .parse (tokens.getLast?.getD "") .missingMethod ∨
      err.Malformed ∧ ∀ more, ofTokens (tokens ++ more) = .error err := by
  cases tokens with
  | nil => cases h
  | cons first tokens =>
      simp only [List.cons_append, ofTokens]
      rw [ofTokens] at h
      cases found : Token.separator? first with
      | error e =>
          rw [found] at h
          cases h
          exact .inr ⟨Token.reads_separator? first _ found, fun _ => rfl⟩
      | ok found' =>
          rw [found] at h
          cases found' with
          | some start =>
              exact (readFrom_error h).imp_right (And.imp_right fun again more => again _ more)
          | none =>
              exact (readFrom_error h).imp_right (And.imp_right fun again more => again _ more)

/-- Pipelines are composed at separators. After a pipeline, tokens that start with a separator give
the steps that they give by themselves, or fail as they do by themselves. A pipeline that fails, fails
for a token; unless that is because the last token should have been followed by a method, it fails so
whatever comes after. -/
theorem pipelines_compose (tokens : List String) :
    (∀ steps, ofTokens tokens = .ok steps → ∀ token more, SeparatorShaped token →
      ofTokens (tokens ++ token :: more) = (ofTokens (token :: more)).map (steps ++ ·)) ∧
    ∀ err, ofTokens tokens = .error err → ∃ token fault, err = .parse token fault ∧
      (fault = .missingMethod → token = tokens.getLast?.getD "") ∧
      (fault ≠ .missingMethod → ∀ more, ofTokens (tokens ++ more) = .error err) := by
  constructor
  · intro steps h token more sep
    exact ofTokens_append h sep
  · intro err h
    rcases ofTokens_error h with rfl | ⟨⟨token, fault, rfl, present⟩, again⟩
    · exact ⟨_, _, rfl, fun _ => rfl, fun missing => absurd rfl missing⟩
    · exact ⟨token, fault, rfl, fun missing => absurd missing present, fun _ => again⟩

/-- `a --k` goes on at `, b`, and `a --.` is not saved by it. -/
theorem flagged_and_pointed_composed :
    let flagged : Step := { method := "a", assignments := [.literal ["k"] (.bool true)] }
    ofTokens ["a", "--k"] = .ok [flagged] ∧ SeparatorShaped "," ∧
      ofTokens ["a", "--k", ",", "b"] = .ok [flagged, { method := "b" }] ∧
      ofTokens ["a", "--."] = .error (.parse "--." (.emptySegment ".")) ∧
      ofTokens ["a", "--.", ",", "b"] = .error (.parse "--." (.emptySegment ".")) := by
  intro flagged
  have comma : SeparatorShaped "," := .inl (by simp)
  have read : ofTokens ["a", "--k"] = .ok [flagged] := readFrom_last (by rfl)
  have next : ofTokens [",", "b"] = .ok [{ method := "b" }] := readFrom_last (by rfl)
  have refused : ofTokens ["a", "--."] = .error (.parse "--." (.emptySegment ".")) :=
    readFrom_of_error (by rfl)
  refine ⟨read, comma, ?_, refused, ?_⟩
  · have composed := (pipelines_compose ["a", "--k"]).1 _ read "," ["b"] comma
    rwa [next] at composed
  · obtain ⟨_, _, ⟨⟩, -, again⟩ := (pipelines_compose ["a", "--."]).2 _ refused
    exact again nofun [",", "b"]

end Plan
end Lineage
