import Lineage.Proofs.Pipeline.Concatenation

/-!
Values by keyword and by position. A text is coerced alike whether it is an argument of its own or
stands behind a key, and item by item where a delimiter stands before the equals sign. A keyword
takes any text that is one line; of those that an argument takes, it refuses the ones with a line feed.
-/
namespace Lineage
open Grammar

namespace Grammar

/-- A token that is read as the method of a step without a label. -/
structure IsMethod (token : String) : Prop where
  plain : ¬ SeparatorShaped token
  undashed : ¬ Dashed token
  unlabelled : ¬ LabelShaped token

/-- The items of a list are the texts between the delimiters. An empty text has none. -/
def Itemized (d : Char) (text : String) (items : List String) : Prop :=
  text = "" ∧ items = [] ∨
    text ≠ "" ∧ (∀ item ∈ items, d ∉ item.toList) ∧ (String.singleton d).intercalate items = text

/-- Every text has one list of items. -/
theorem itemized_iff {d : Char} {text : String} {items : List String} :
    Itemized d text items ↔ items = if text = "" then [] else pieces d text := by
  constructor
  · rintro (⟨rfl, rfl⟩ | ⟨some_, apart, rfl⟩)
    · rfl
    · have ne : items ≠ [] := by
        rintro rfl
        exact some_ rfl
      rw [if_neg some_, pieces_intercalate ne apart]
  · rintro rfl
    by_cases empty : text = ""
    · rw [if_pos empty]
      exact .inl ⟨empty, rfl⟩
    · rw [if_neg empty]
      exact .inr ⟨empty, fun _ => not_mem_of_mem_pieces, intercalate_pieces d text⟩

end Grammar

namespace Token

variable {key : String} {path : List String} {text : String} {d : Char}

/-! ### The text after the equals sign -/

theorem keywordForm?_value (hk : PathShaped key) (text : String) :
    keywordForm? (key ++ "=" ++ text).toList =
      if '\n' ∈ text.toList then none else some (.pair key none text) := by
  obtain ⟨ne, hp⟩ := hk
  obtain ⟨before, after⟩ := span_append ('=' :: text.toList) hp
    (by simpa using show isPathChar '=' = false by decide)
  have chars : (key ++ "=" ++ text).toList = key.toList ++ '=' :: text.toList := by simp
  rw [keywordForm?]
  simp only [chars, before, after, String.ofList_toList]
  simp [ne]

theorem keywordForm?_items (hk : PathShaped key) (hd : Delimiter d) (text : String) :
    keywordForm? (key ++ String.singleton d ++ "=" ++ text).toList =
      if '\n' ∈ text.toList then none else some (.pair key (some d) text) := by
  obtain ⟨ne, hp⟩ := hk
  have apart : isPathChar d = false ∧ d ≠ ':' ∧ d ≠ '=' := by
    rcases hd with rfl | rfl | rfl <;> decide
  obtain ⟨before, after⟩ := span_append (d :: '=' :: text.toList) hp (by simp [apart])
  have chars : (key ++ String.singleton d ++ "=" ++ text).toList =
      key.toList ++ d :: '=' :: text.toList := by simp
  rw [keywordForm?]
  simp only [chars, before, after, String.ofList_toList]
  simp [ne, apart, show d = ',' ∨ d = ';' ∨ d = ' ' from hd]

theorem assignment_of_body {token body : String} (ht : token = "--" ++ body)
    (refused : keywordForm? body.toList = none) :
    assignment token = .error (.parse token .noKeywordForm) := by
  have drop : token.toList.drop 2 = body.toList := by simp [ht]
  rw [assignment, drop, refused]

/-- A value with a line feed has no keyword form, with or without a delimiter. -/
theorem assignment_of_lineFeed (hk : Dotted path) (lines : '\n' ∈ text.toList) :
    assignment ("--" ++ spell path ++ "=" ++ text) =
        .error (.parse ("--" ++ spell path ++ "=" ++ text) .noKeywordForm) ∧
      ∀ d, Delimiter d → assignment ("--" ++ spell path ++ String.singleton d ++ "=" ++ text) =
        .error (.parse ("--" ++ spell path ++ String.singleton d ++ "=" ++ text) .noKeywordForm) := by
  have value := keywordForm?_value hk.pathShaped text
  have items {d : Char} (hd : Delimiter d) := keywordForm?_items hk.pathShaped hd text
  simp only [if_pos lines] at value items
  refine ⟨assignment_of_body ?_ value, fun d hd => assignment_of_body ?_ (items hd)⟩
  · simp only [String.append_assoc]
  · simp only [String.append_assoc]

/-- Only what begins with a colon can refer to a result. -/
theorem not_referenceShaped_of_head (head : text.toList.head? ≠ some ':') :
    ¬ ReferenceShaped text := by
  rintro ⟨path, -, rfl⟩
  exact head (by simp)

theorem keyword_of_itemized {items : List String} (hk : Dotted path) (hd : Delimiter d)
    (line : '\n' ∉ text.toList) (h : Itemized d text items) :
    Keyword ("--" ++ spell path ++ String.singleton d ++ "=" ++ text)
      (.literal path (.arr (items.map scalar))) := by
  rcases h with ⟨rfl, rfl⟩ | ⟨some_, apart, rfl⟩
  · rw [String.append_empty]
    exact .noItems hk hd
  · refine .items hk hd ?_ ?_ fun item mem => ⟨apart item mem, fun lines => line ?_⟩
    · rintro rfl
      exact some_ rfl
    · rintro rfl
      exact some_ (String.intercalate_singleton ..)
    · exact mem_intercalate_of_mem mem lines

end Token

namespace Plan

variable {method token text : String} {path : List String}

/-! ### A method and one argument -/

theorem readStep_of_method (hm : IsMethod method) (last : String) (tokens : List String) :
    readStep last (.stay, false) (method :: tokens) =
      ((tokens.takeWhile fun token => !Token.isSeparator token).foldlM addArgument { method }).map
        fun s => (s, tokens.dropWhile fun token => !Token.isSeparator token) := by
  have front : takeLabel (method :: tokens) = (none, method :: tokens) :=
    takeLabel_eq_iff.mpr ⟨rfl, by simp, fun _ => hm.unlabelled⟩
  have named : ¬ (Token.isSeparator method || Token.isKeyword method) = true := by
    rw [Bool.or_eq_true, Token.isSeparator_iff, Token.isKeyword_iff, not_or]
    exact ⟨hm.plain, hm.undashed⟩
  rw [readStep, front]
  simp only [if_neg named]
  cases (tokens.takeWhile fun token => !Token.isSeparator token).foldlM addArgument { method } <;>
    rfl

/-- What is no separator is an argument of the method before it. -/
theorem ofTokens_argument (hm : IsMethod method) (plain : ¬ SeparatorShaped token) :
    ofTokens [method, token] = (addArgument { method } token).map fun s => [s] := by
  have among : (!Token.isSeparator token) = true := not_isSeparator_iff.mpr plain
  have step (last : String) : readStep last (.stay, false) [method, token] =
      (addArgument { method } token).map fun s => (s, []) := by
    rw [readStep_of_method hm, List.takeWhile_cons, List.dropWhile_cons, if_pos among, if_pos among,
      List.takeWhile_nil, List.dropWhile_nil, List.foldlM_cons]
    cases addArgument { method } token <;> rfl
  rw [ofTokens]
  simp only [Token.separator?_eq_ok_none_iff.mpr hm.plain]
  cases added : addArgument { method } token with
  | ok s => exact readFrom_last (by rw [step, added]; rfl)
  | error e => exact readFrom_of_error (by rw [step, added]; rfl)

/-- A separator after the method wants another method after it. -/
theorem ofTokens_separator (hm : IsMethod method) (sep : SeparatorShaped token)
    (steps : List Step) : ofTokens [method, token] ≠ .ok steps := by
  have among : ¬ (!Token.isSeparator token) = true := fun h => not_isSeparator_iff.mp h sep
  have step (last : String) :
      readStep last (.stay, false) [method, token] = .ok ({ method }, [token]) := by
    rw [readStep_of_method hm, List.takeWhile_cons, List.dropWhile_cons, if_neg among, if_neg among]
    rfl
  have nothing (last : String) (start : Restart × Bool) :
      readFrom last start [] = .error (.parse last .missingMethod) := readFrom_of_error rfl
  rw [ofTokens]
  simp only [Token.separator?_eq_ok_none_iff.mpr hm.plain]
  rw [readFrom_of_ok (step _), readOn]
  split
  · simp [Except.map]
  · simp [Except.map]
  · simp [nothing, Except.map]

/-- A token that is neither a separator nor a keyword gives its value by position, no other does. -/
theorem ofTokens_positional_iff (hm : IsMethod method) (text : String) (value : Json) :
    ofTokens [method, text] = .ok [{ method, positional := [value] }] ↔
      ¬ SeparatorShaped text ∧ ¬ Dashed text ∧ value = Token.scalar text := by
  constructor
  · intro h
    have plain : ¬ SeparatorShaped text := fun sep => ofTokens_separator hm sep _ h
    rw [ofTokens_argument hm plain] at h
    cases added : addArgument { method } text with
    | error e =>
        rw [added] at h
        cases h
    | ok s =>
        rw [added] at h
        obtain rfl : s = { method, positional := [value] } := by simpa [Except.map] using h
        rcases addArgument_cases added with ⟨undashed, same⟩ | ⟨a, -, same⟩
        · exact ⟨plain, undashed, by simpa using congrArg Step.positional same⟩
        · simpa using congrArg Step.positional same
  · rintro ⟨plain, undashed, rfl⟩
    rw [ofTokens_argument hm plain, addArgument_of_plain undashed]
    rfl

theorem ofTokens_keyword {a : Assignment} (hm : IsMethod method) (h : Keyword token a) :
    ofTokens [method, token] = .ok [{ method, assignments := [a] }] := by
  rw [ofTokens_argument hm (Token.dashed_of_keyword h).not_separatorShaped,
    addArgument_of_keyword h]
  rfl

theorem ofTokens_refused {fault : TokenFault} (hm : IsMethod method) (dashed : Dashed token)
    (refused : Token.assignment token = .error (.parse token fault)) :
    ofTokens [method, token] = .error (.parse token fault) := by
  rw [ofTokens_argument hm dashed.not_separatorShaped, addArgument,
    if_pos (Token.isKeyword_iff.mpr dashed), refused]
  rfl

/-! ### Keywords -/

/-- Behind any dotted key a text of one line is coerced as it is by position, if it does not begin
with a colon, and item by item behind a key with a delimiter. A text with a line feed is refused
there, though not by position. -/
theorem keyword_carries_text (hm : IsMethod method) (hk : Dotted path) (text : String) :
    (text.toList.head? ≠ some ':' →
      ('\n' ∉ text.toList → ofTokens [method, "--" ++ spell path ++ "=" ++ text] =
        .ok [{ method, assignments := [.literal path (Token.scalar text)] }]) ∧
      ('\n' ∈ text.toList → ofTokens [method, "--" ++ spell path ++ "=" ++ text] =
        .error (.parse ("--" ++ spell path ++ "=" ++ text) .noKeywordForm))) ∧
    (∀ value, ofTokens [method, text] = .ok [{ method, positional := [value] }] ↔
      ¬ SeparatorShaped text ∧ ¬ Dashed text ∧ value = Token.scalar text) ∧
    ∀ d, Delimiter d →
      ('\n' ∉ text.toList → ∃ items, (∀ other, Itemized d text other ↔ other = items) ∧
        ofTokens [method, "--" ++ spell path ++ String.singleton d ++ "=" ++ text] =
          .ok [{ method, assignments := [.literal path (.arr (items.map Token.scalar))] }]) ∧
      ('\n' ∈ text.toList →
        ofTokens [method, "--" ++ spell path ++ String.singleton d ++ "=" ++ text] =
          .error (.parse ("--" ++ spell path ++ String.singleton d ++ "=" ++ text) .noKeywordForm)) := by
  refine ⟨fun head => ⟨fun line => ?_, fun lines => ?_⟩, ofTokens_positional_iff hm text,
    fun d hd => ⟨fun line => ⟨_, fun _ => itemized_iff, ?_⟩, fun lines => ?_⟩⟩
  · exact ofTokens_keyword hm (.value hk line (Token.not_referenceShaped_of_head head))
  · refine ofTokens_refused hm ?_ (Token.assignment_of_lineFeed hk lines).1
    simp only [String.append_assoc]
    exact ⟨_, rfl⟩
  · exact ofTokens_keyword hm (Token.keyword_of_itemized hk hd line (itemized_iff.mpr rfl))
  · refine ofTokens_refused hm ?_ ((Token.assignment_of_lineFeed hk lines).2 d hd)
    simp only [String.append_assoc]
    exact ⟨_, rfl⟩

theorem isMethod_m : IsMethod "m" where
  plain h := absurd h.head (by decide)
  undashed h := absurd (Token.isKeyword_iff.mpr h) (by decide)
  unlabelled := Token.label?_eq_none_iff.mp (by decide)

/-- A text with an equals sign and a comma, by position, by keyword, and as a list. -/
theorem pair_carried : IsMethod "m" ∧ Dotted ["k", "sub"] ∧ Itemized ',' "7,x=y" ["7", "x=y"] ∧
    ofTokens ["m", "7,x=y"] = .ok [{ method := "m", positional := [.str "7,x=y"] }] ∧
    ofTokens ["m", "--k.sub=7,x=y"] =
      .ok [{ method := "m", assignments := [.literal ["k", "sub"] (.str "7,x=y")] }] ∧
    ofTokens ["m", "--k.sub,=7,x=y"] =
      .ok [{ method := "m", assignments := [.literal ["k", "sub"] (.arr [.int 7, .str "x=y"])] }] := by
  have key : Dotted ["k", "sub"] := by
    refine ⟨by simp, fun s hs => ?_⟩
    rcases List.mem_pair.mp hs with rfl | rfl <;>
      exact ⟨by decide, List.all_eq_true.mp (by decide)⟩
  have comma : Delimiter ',' := .inl rfl
  have plain : ¬ SeparatorShaped "7,x=y" ∧ ¬ Dashed "7,x=y" :=
    ⟨fun h => absurd h.head (by decide),
      fun h => absurd (Token.isKeyword_iff.mpr h) (by decide)⟩
  have listed : Itemized ',' "7,x=y" ["7", "x=y"] := .inr ⟨by decide, by decide, rfl⟩
  obtain ⟨value, position, items⟩ := keyword_carries_text isMethod_m key "7,x=y"
  obtain ⟨_, only, parsed⟩ := (items ',' comma).1 (by decide)
  obtain rfl := (only _).mp listed
  exact ⟨isMethod_m, key, listed, (position _).mpr ⟨plain.1, plain.2, rfl⟩,
    (value (by decide)).1 (by decide), parsed⟩

/-- A text of two lines is a value by position but not by keyword. -/
theorem two_lines_refused :
    ofTokens ["m", "a\nb"] = .ok [{ method := "m", positional := [.str "a\nb"] }] ∧
      ofTokens ["m", "--k=a\nb"] = .error (.parse "--k=a\nb" .noKeywordForm) := by
  have plain : ¬ SeparatorShaped "a\nb" ∧ ¬ Dashed "a\nb" :=
    ⟨fun h => absurd h.head (by decide),
      fun h => absurd (Token.isKeyword_iff.mpr h) (by decide)⟩
  exact ⟨(ofTokens_positional_iff isMethod_m _ _).mpr ⟨plain.1, plain.2, rfl⟩,
    ofTokens_refused isMethod_m ⟨"k=a\nb", rfl⟩ rfl⟩

end Plan
end Lineage
