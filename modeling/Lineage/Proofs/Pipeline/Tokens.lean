import Lineage.Proofs.Pipeline.Grammar
import Lineage.Proofs.Text

/-!
Tokens are read as the grammar has them. Each classification of a token agrees with a class of the
grammar, a separator or keyword is accepted exactly when the grammar has it, and its value is the
one the grammar gives.
-/
namespace Lineage
open Grammar

/-! ### Characters and paths -/

theorem isPathChar_of_isWordChar {c : Char} (h : isWordChar c = true) :
    Token.isPathChar c = true := by
  simp [Token.isPathChar, h]

theorem isWordChar_of_isPathChar {c : Char} (h : Token.isPathChar c = true) (hc : c ≠ '.') :
    isWordChar c = true := by
  simpa [Token.isPathChar, hc] using h

theorem Grammar.IsWord.point_not_mem {s : String} (h : IsWord s) : '.' ∉ s.toList := by
  intro hc
  have : isWordChar '.' = true := h.2 _ hc
  exact absurd this (by decide)

namespace Grammar

theorem Dotted.pieces_spell {segments : List String} (h : Dotted segments) :
    pieces '.' (spell segments) = segments :=
  pieces_intercalate h.1 fun s hs => (h.2 s hs).point_not_mem

theorem Dotted.pathShaped {segments : List String} (h : Dotted segments) :
    PathShaped (spell segments) := by
  constructor
  · intro he
    have hp : pieces '.' "" = segments := he ▸ h.pieces_spell
    exact (h.2 "" (hp ▸ by decide)).1 rfl
  · intro c hc
    rcases mem_intercalate hc with hc | ⟨s, hs, hc⟩
    · obtain rfl : c = '.' := by simpa using hc
      decide
    · exact isPathChar_of_isWordChar ((h.2 s hs).2 c hc)

end Grammar

namespace Token

theorem dotted_spell (token : String) {segments : List String} (h : Dotted segments) :
    dotted token (spell segments) = .ok segments := by
  have ne : "" ∉ segments := fun hs => (h.2 "" hs).1 rfl
  simp [dotted, h.pieces_spell, ne]

/-- A path-shaped text is accepted just when it spells words. -/
theorem dotted_eq_ok_iff {token key : String} {segments : List String} (hk : PathShaped key) :
    dotted token key = .ok segments ↔ Dotted segments ∧ key = spell segments := by
  constructor
  · intro h
    unfold dotted at h
    simp only at h
    split at h
    · cases h
    · rename_i ne
      obtain rfl := Except.ok.inj h
      rw [List.contains_iff_mem] at ne
      refine ⟨⟨pieces_ne_nil '.' key, fun s hs => ⟨fun he => ne (he ▸ hs), fun c hc => ?_⟩⟩,
        (intercalate_pieces '.' key).symm⟩
      apply isWordChar_of_isPathChar (hk.2 c (mem_of_mem_pieces hs hc))
      rintro rfl
      exact not_mem_of_mem_pieces hs hc
  · rintro ⟨h, rfl⟩
    exact dotted_spell token h

/-! ### Separators -/

theorem afterColon?_eq_some_iff {cs r : List Char} :
    afterColon? cs = some r ↔ cs = ':' :: r ∧ r ≠ [] ∧ ∀ c ∈ r, isPathChar c = true := by
  simp only [afterColon?]
  split
  · rename_i r'
    simp only [Option.ite_none_right_eq_some, Option.some.injEq, List.cons.injEq, true_and,
      List.all_eq_true]
    constructor
    · rintro ⟨h, rfl⟩
      exact ⟨rfl, h⟩
    · rintro ⟨rfl, h⟩
      exact ⟨h, rfl⟩
  · rename_i hne
    simp only [reduceCtorEq, false_iff, not_and]
    intro he
    exact absurd he (hne r)

theorem afterColon?_toList_eq_some_iff {text : String} {r : List Char} :
    afterColon? text.toList = some r ↔
      PathShaped (String.ofList r) ∧ text = ":" ++ String.ofList r := by
  rw [afterColon?_eq_some_iff, ← String.toList_inj]
  simp [PathShaped, and_comm]

theorem referenceShaped_iff {text : String} :
    ReferenceShaped text ↔ afterColon? text.toList ≠ none := by
  rw [Option.ne_none_iff_exists']
  constructor
  · rintro ⟨path, hp, rfl⟩
    exact ⟨path.toList, afterColon?_toList_eq_some_iff.mpr (by simpa using hp)⟩
  · rintro ⟨r, hr⟩
    exact ⟨_, afterColon?_toList_eq_some_iff.mp hr⟩

theorem afterColon?_toList_eq_none_iff {text : String} :
    afterColon? text.toList = none ↔ ¬ ReferenceShaped text := by
  rw [referenceShaped_iff, Classical.not_not]

/-- The brace that ends a separator of an iterating step. -/
def brace (iterate : Bool) : String := if iterate then "\x7b" else ""

theorem not_referenceShaped_brace (path : String) : ¬ ReferenceShaped (path ++ "\x7b") := by
  rintro ⟨inner, h, he⟩
  have hb : '\x7b' ∈ (":" ++ inner).toList := by
    rw [← he]
    simp
  have : isPathChar '\x7b' = true := h.2 _ (by simpa using hb)
  exact absurd this (by decide)

theorem cacheRestart?_eq_some_iff {token path : String} {iterate : Bool} :
    cacheRestart? token = some (path, iterate) ↔
      PathShaped path ∧ token = ":" ++ path ++ brace iterate := by
  unfold cacheRestart?
  constructor
  · intro h
    simp only at h
    split at h
    · rename_i r hr
      obtain ⟨hp, ht⟩ := afterColon?_toList_eq_some_iff.mp hr
      obtain ⟨rfl, rfl⟩ : String.ofList r = path ∧ false = iterate := by simpa using h
      exact ⟨hp, by simp [brace, ht]⟩
    · split at h
      · rename_i r hrev
        obtain ⟨inner, hr, he⟩ := Option.map_eq_some_iff.mp h
        obtain ⟨rfl, rfl⟩ : String.ofList inner = path ∧ true = iterate := by simpa using he
        obtain ⟨hr, ne, hall⟩ := afterColon?_eq_some_iff.mp hr
        refine ⟨⟨by simpa using ne, by simpa using hall⟩, String.toList_inj.mp ?_⟩
        rw [List.reverse_eq_cons_iff.mp hrev, hr]
        simp [brace]
      · cases h
  · rintro ⟨hp, rfl⟩
    cases iterate with
    | false =>
        have h : afterColon? (":" ++ path ++ brace false).toList = some path.toList :=
          afterColon?_toList_eq_some_iff.mpr (by simpa [brace] using hp)
        simp only [h, String.ofList_toList]
    | true =>
        have h : afterColon? (":" ++ path ++ brace true).toList = none :=
          afterColon?_toList_eq_none_iff.mpr (not_referenceShaped_brace _)
        have hrev : (":" ++ path ++ brace true).toList.reverse
            = '\x7b' :: (":" ++ path).toList.reverse := by simp [brace]
        have inner : afterColon? (":" ++ path).toList = some path.toList :=
          afterColon?_toList_eq_some_iff.mpr (by simpa using hp)
        simp only [h, hrev, List.reverse_reverse, inner, Option.map_some, String.ofList_toList]

theorem cacheRestart?_isSome_iff {token : String} :
    (cacheRestart? token).isSome ↔
      ∃ path, PathShaped path ∧ (token = ":" ++ path ∨ token = ":" ++ path ++ "\x7b") := by
  constructor
  · intro h
    obtain ⟨⟨path, iterate⟩, h⟩ := Option.isSome_iff_exists.mp h
    obtain ⟨hp, rfl⟩ := cacheRestart?_eq_some_iff.mp h
    exact ⟨path, hp, by cases iterate <;> simp [brace]⟩
  · rintro ⟨path, hp, rfl | rfl⟩
    · have h : cacheRestart? (":" ++ path) = some (path, false) :=
        cacheRestart?_eq_some_iff.mpr ⟨hp, by simp [brace]⟩
      rw [h]
      rfl
    · have h : cacheRestart? (":" ++ path ++ "\x7b") = some (path, true) :=
        cacheRestart?_eq_some_iff.mpr ⟨hp, rfl⟩
      rw [h]
      rfl

theorem plainSeparator?_isSome_iff {token : String} :
    (plainSeparator? token).isSome ↔ token ∈ [",", ",,", ",\x7b", ",,\x7b"] := by
  rw [plainSeparator?]
  repeat' split
  all_goals simp_all

theorem isSeparator_iff {token : String} : isSeparator token = true ↔ SeparatorShaped token := by
  rw [isSeparator, Bool.or_eq_true, plainSeparator?_isSome_iff, cacheRestart?_isSome_iff]
  rfl

theorem plainSeparator?_colon (rest : String) : plainSeparator? (":" ++ rest) = none := by
  have h : ∀ s : String, s.toList.head? = some ',' → ":" ++ rest ≠ s := by
    rintro s hs rfl
    simp at hs
  rw [plainSeparator?, if_neg (h _ rfl), if_neg (h _ rfl), if_neg (h _ rfl), if_neg (h _ rfl)]

theorem plainSeparator?_eq_some {token : String} {restart : Restart} {iterate : Bool}
    (h : plainSeparator? token = some (restart, iterate)) : Separator token restart iterate := by
  rw [plainSeparator?] at h
  repeat' split at h
  all_goals simp only [Option.some.injEq, Prod.mk.injEq, reduceCtorEq] at h
  all_goals
    obtain ⟨rfl, rfl⟩ := h
    subst token
    constructor

/-- A separator is accepted, with the meaning it has, exactly when the grammar has it. -/
theorem separator?_eq_ok_some_iff {token : String} {restart : Restart} {iterate : Bool} :
    separator? token = .ok (some (restart, iterate)) ↔ Separator token restart iterate := by
  constructor
  · intro h
    rw [separator?] at h
    split at h
    · rename_i sep hp
      obtain rfl : sep = (restart, iterate) := by simpa using h
      exact plainSeparator?_eq_some hp
    · split at h
      · rename_i path iterate' hc
        obtain ⟨hp, rfl⟩ := cacheRestart?_eq_some_iff.mp hc
        cases hd : dotted (":" ++ path ++ brace iterate') path with
        | error e => simp [hd, bind, Except.bind] at h
        | ok segments =>
            obtain ⟨hs, rfl⟩ := (dotted_eq_ok_iff hp).mp hd
            obtain ⟨rfl, rfl⟩ : .cached segments = restart ∧ iterate' = iterate := by
              simpa [hd, bind, Except.bind, pure, Except.pure] using h
            cases iterate' with
            | false => simpa [brace] using Separator.cached hs
            | true => exact .cachedEach hs
      · cases h
  · intro h
    cases h with
    | next | root | each | rootEach => rfl
    | @cached path h =>
        have hc : cacheRestart? (":" ++ spell path) = some (spell path, false) :=
          cacheRestart?_eq_some_iff.mpr ⟨h.pathShaped, by simp [brace]⟩
        rw [separator?, plainSeparator?_colon, hc]
        simp [dotted_spell _ h, bind, Except.bind, pure, Except.pure]
    | @cachedEach path h =>
        have hc : cacheRestart? (":" ++ spell path ++ "\x7b") = some (spell path, true) :=
          cacheRestart?_eq_some_iff.mpr ⟨h.pathShaped, rfl⟩
        rw [separator?, String.append_assoc, plainSeparator?_colon, ← String.append_assoc, hc]
        simp [dotted_spell _ h, bind, Except.bind, pure, Except.pure]

theorem separator?_eq_ok_none_iff {token : String} :
    separator? token = .ok none ↔ ¬ SeparatorShaped token := by
  rw [← isSeparator_iff, isSeparator, separator?]
  cases hp : plainSeparator? token with
  | some sep => simp
  | none =>
      cases hc : cacheRestart? token with
      | none => simp
      | some found =>
          obtain ⟨path, iterate⟩ := found
          cases hd : dotted token path <;> simp [hd, bind, Except.bind, pure, Except.pure]

theorem separator_unique {token : String} {restart restart' : Restart} {iterate iterate' : Bool}
    (h : Separator token restart iterate) (h' : Separator token restart' iterate') :
    restart = restart' ∧ iterate = iterate' := by
  have h := (separator?_eq_ok_some_iff.mpr h).symm.trans (separator?_eq_ok_some_iff.mpr h')
  simpa using h

theorem Separator.shaped {token : String} {restart : Restart} {iterate : Bool}
    (h : Separator token restart iterate) : SeparatorShaped token := by
  cases h with
  | next | root | each | rootEach => exact .inl (by decide)
  | cached h => exact .inr ⟨_, h.pathShaped, .inl rfl⟩
  | cachedEach h => exact .inr ⟨_, h.pathShaped, .inr rfl⟩

/-! ### Labels and keywords -/

theorem label?_eq_some_iff {token name : String} :
    label? token = some name ↔ IsWord name ∧ token = name ++ ":" := by
  rw [label?]
  constructor
  · intro h
    split at h
    · rename_i r hrev
      obtain ⟨⟨ne, hall⟩, rfl⟩ : (r ≠ [] ∧ r.all isWordChar = true) ∧ String.ofList r.reverse = name :=
        by simpa using h
      refine ⟨⟨by simpa using ne, by simpa using hall⟩, String.toList_inj.mp ?_⟩
      rw [List.reverse_eq_cons_iff.mp hrev]
      simp
    · cases h
  · rintro ⟨⟨ne, hall⟩, rfl⟩
    have hrev : (name ++ ":").toList.reverse = ':' :: name.toList.reverse := by simp
    have hw : name.toList.reverse ≠ [] ∧ name.toList.reverse.all isWordChar = true := by
      simpa using ⟨ne, hall⟩
    simp only [hrev, if_pos hw, List.reverse_reverse, String.ofList_toList]

theorem label?_eq_none_iff {token : String} : label? token = none ↔ ¬ LabelShaped token := by
  rw [Option.eq_none_iff_forall_not_mem]
  simp only [Option.mem_def, label?_eq_some_iff, LabelShaped, not_exists]

theorem isKeyword_iff {token : String} : isKeyword token = true ↔ Dashed token := by
  rw [isKeyword]
  constructor
  · intro h
    split at h
    · rename_i body hb
      exact ⟨String.ofList body, String.toList_inj.mp (by simp [hb])⟩
    · cases h
  · rintro ⟨body, rfl⟩
    simp

/-- The text after the dashes of a keyword that has a form. -/
def KeywordForm.Spells : KeywordForm → String → Prop
  | .reference target source, body =>
    (∀ c ∈ target.toList, isPathChar c = true) ∧ PathShaped source ∧ body = target ++ ":" ++ source
  | .pair key none value, body =>
    PathShaped key ∧ '\n' ∉ value.toList ∧ body = key ++ "=" ++ value
  | .pair key (some d) value, body =>
    PathShaped key ∧ Delimiter d ∧ '\n' ∉ value.toList ∧
      body = key ++ String.singleton d ++ "=" ++ value
  | .single key none, body => PathShaped key ∧ body = key
  | .single key (some c), body =>
    PathShaped key ∧ (c = ',' ∨ c = ';' ∨ c = '-') ∧ body = key ++ String.singleton c

theorem keywordForm?_of_spells {form : KeywordForm} {body : String} (h : form.Spells body) :
    keywordForm? body.toList = some form := by
  rw [keywordForm?]
  cases form with
  | reference target source =>
      obtain ⟨ht, ⟨ne, hs⟩, rfl⟩ := h
      obtain ⟨hk, hr⟩ := span_append (':' :: source.toList) ht
        (by simpa using show isPathChar ':' = false by decide)
      have hb : (target ++ ":" ++ source).toList = target.toList ++ ':' :: source.toList := by simp
      simp only [hb, hk, hr, String.ofList_toList]
      simpa [ne] using hs
  | pair key delimiter value =>
      cases delimiter with
      | none =>
          obtain ⟨⟨ne, hp⟩, line, rfl⟩ := h
          obtain ⟨hk, hr⟩ := span_append ('=' :: value.toList) hp
            (by simpa using show isPathChar '=' = false by decide)
          have hb : (key ++ "=" ++ value).toList = key.toList ++ '=' :: value.toList := by simp
          simp only [hb, hk, hr, String.ofList_toList]
          simp [ne, line]
      | some d =>
          obtain ⟨⟨ne, hp⟩, hd, line, rfl⟩ := h
          have hdp : isPathChar d = false ∧ d ≠ ':' ∧ d ≠ '=' := by
            rcases hd with rfl | rfl | rfl <;> decide
          obtain ⟨hk, hr⟩ := span_append (d :: '=' :: value.toList) hp (by simp [hdp])
          have hb : (key ++ String.singleton d ++ "=" ++ value).toList
              = key.toList ++ d :: '=' :: value.toList := by simp
          simp only [hb, hk, hr, String.ofList_toList]
          simp [ne, line, hdp, show d = ',' ∨ d = ';' ∨ d = ' ' from hd]
  | single key mark =>
      cases mark with
      | none =>
          obtain ⟨⟨ne, hp⟩, rfl⟩ := h
          obtain ⟨hk, hr⟩ := span_append [] hp (by simp)
          rw [List.append_nil] at hk hr
          simp only [hk, hr, String.ofList_toList]
          simp [ne]
      | some c =>
          obtain ⟨⟨ne, hp⟩, hc, rfl⟩ := h
          have hcp : isPathChar c = false ∧ c ≠ ':' ∧ c ≠ '=' := by
            rcases hc with rfl | rfl | rfl <;> decide
          obtain ⟨hk, hr⟩ := span_append [c] hp (by simp [hcp])
          have hb : (key ++ String.singleton c).toList = key.toList ++ [c] := by simp
          simp only [hb, hk, hr, String.ofList_toList]
          simp [ne, hcp, hc]

theorem spells_of_keywordForm? {form : KeywordForm} {body : String}
    (h : keywordForm? body.toList = some form) : form.Spells body := by
  have hk : ∀ c ∈ body.toList.takeWhile isPathChar, isPathChar c = true :=
    List.all_eq_true.mp List.all_takeWhile
  have hb : body = String.ofList (body.toList.takeWhile isPathChar)
      ++ String.ofList (body.toList.dropWhile isPathChar) := by
    rw [← String.ofList_append, List.takeWhile_append_dropWhile, String.ofList_toList]
  rw [keywordForm?] at h
  generalize body.toList.takeWhile isPathChar = key at hk hb h
  generalize body.toList.dropWhile isPathChar = rest at hb h
  subst body
  split at h
  · rename_i source
    split at h
    · rename_i hs
      obtain rfl := Option.some.inj h
      exact ⟨by simpa using hk, by simpa [PathShaped] using hs, String.toList_inj.mp (by simp)⟩
    · cases h
  · simp only at h
    split at h
    · cases h
    · rename_i ne
      have hp : PathShaped (String.ofList key) := ⟨ne, by simpa using hk⟩
      split at h
      · obtain rfl := Option.some.inj h
        exact ⟨hp, by simp⟩
      · rename_i r _
        obtain ⟨line, rfl⟩ : '\n' ∉ r ∧ .pair (String.ofList key) none (String.ofList r) = form := by
          simpa using h
        exact ⟨hp, by simpa using line, String.toList_inj.mp (by simp)⟩
      · rename_i c _ _
        obtain ⟨hc, rfl⟩ :
            (c = ',' ∨ c = ';' ∨ c = '-') ∧ .single (String.ofList key) (some c) = form := by
          simpa using h
        exact ⟨hp, hc, String.toList_inj.mp (by simp)⟩
      · rename_i c r _ _
        obtain ⟨hc, line, rfl⟩ : (c = ',' ∨ c = ';' ∨ c = ' ') ∧ '\n' ∉ r ∧
            .pair (String.ofList key) (some c) (String.ofList r) = form := by
          simpa using h
        exact ⟨hp, hc, by simpa using line, String.toList_inj.mp (by simp)⟩
      · cases h

theorem keywordForm?_eq_some_iff {form : KeywordForm} {body : String} :
    keywordForm? (("--" ++ body).toList.drop 2) = some form ↔ form.Spells body := by
  have hb : ("--" ++ body).toList.drop 2 = body.toList := by simp
  rw [hb]
  exact ⟨spells_of_keywordForm?, keywordForm?_of_spells⟩

theorem ok_bind {α β : Type} (x : α) (f : α → Except Error β) : (Except.ok x >>= f) = f x := rfl

/-- Two texts that are joined with a point between are a key and a dotted path of it. -/
theorem bind_dotted_eq_ok_iff {α : Type} {token key : String} {f : List String → Except Error α}
    {a : α} (hk : PathShaped key) :
    (dotted token key >>= f) = .ok a ↔
      ∃ segments, Dotted segments ∧ key = spell segments ∧ f segments = .ok a := by
  cases hd : dotted token key with
  | ok segments =>
      obtain ⟨hs, he⟩ := (dotted_eq_ok_iff hk).mp hd
      rw [ok_bind]
      constructor
      · exact fun h => ⟨segments, hs, he, h⟩
      · rintro ⟨segments', hs', he', h⟩
        obtain rfl : segments = segments' := by
          rw [← hs.pieces_spell, ← hs'.pieces_spell, ← he, ← he']
        exact h
  | error e =>
      constructor
      · intro h
        cases h
      · rintro ⟨segments, hs, rfl, -⟩
        rw [dotted_spell _ hs] at hd
        cases hd

theorem keyword_of_reference {body target source : String} {a : Assignment}
    (hs : (KeywordForm.reference target source).Spells body)
    (h : assignment ("--" ++ body) = .ok a) : Keyword ("--" ++ body) a := by
  simp only [assignment, keywordForm?_eq_some_iff.mpr hs] at h
  obtain ⟨ht, hp, rfl⟩ := hs
  by_cases he : target = ""
  · subst he
    rw [if_pos rfl] at h
    obtain ⟨source, hs, rfl, ha⟩ := (bind_dotted_eq_ok_iff hp).mp h
    obtain rfl := Except.ok.inj ha
    simpa only [String.append_assoc, String.empty_append] using Keyword.tree hs
  · rw [if_neg he] at h
    obtain ⟨key, hk, rfl, h⟩ := (bind_dotted_eq_ok_iff ⟨he, ht⟩).mp h
    obtain ⟨source, hs, rfl, ha⟩ := (bind_dotted_eq_ok_iff hp).mp h
    obtain rfl := Except.ok.inj ha
    simpa only [String.append_assoc] using Keyword.reference hk hs

theorem keyword_of_value {body key value : String} {a : Assignment}
    (hs : (KeywordForm.pair key none value).Spells body)
    (h : assignment ("--" ++ body) = .ok a) : Keyword ("--" ++ body) a := by
  simp only [assignment, keywordForm?_eq_some_iff.mpr hs] at h
  obtain ⟨hp, line, rfl⟩ := hs
  obtain ⟨key, hk, rfl, h⟩ := (bind_dotted_eq_ok_iff hp).mp h
  cases hr : afterColon? value.toList with
  | some r =>
      obtain ⟨hp, hv⟩ := afterColon?_toList_eq_some_iff.mp hr
      rw [hr] at h
      obtain ⟨source, hs, he, ha⟩ := (bind_dotted_eq_ok_iff hp).mp h
      obtain rfl := Except.ok.inj ha
      have := Keyword.referenceValue hk hs
      rw [← he] at this
      simpa only [hv, String.append_assoc] using this
  | none =>
      rw [hr] at h
      obtain rfl := Except.ok.inj h
      have plain := afterColon?_toList_eq_none_iff.mp hr
      simpa only [String.append_assoc] using Keyword.value hk line plain

theorem keyword_of_items {body key value : String} {d : Char} {a : Assignment}
    (hs : (KeywordForm.pair key (some d) value).Spells body)
    (h : assignment ("--" ++ body) = .ok a) : Keyword ("--" ++ body) a := by
  simp only [assignment, keywordForm?_eq_some_iff.mpr hs] at h
  obtain ⟨hp, hd, line, rfl⟩ := hs
  obtain ⟨key, hk, rfl, ha⟩ := (bind_dotted_eq_ok_iff hp).mp h
  obtain rfl := Except.ok.inj ha
  by_cases he : value = ""
  · subst he
    rw [if_pos rfl, String.append_empty]
    simpa only [String.append_assoc] using Keyword.noItems hk hd
  · rw [if_neg he]
    have apart : ∀ item ∈ pieces d value, d ∉ item.toList ∧ '\n' ∉ item.toList :=
      fun item hi => ⟨not_mem_of_mem_pieces hi, fun hn => line (mem_of_mem_pieces hi hn)⟩
    have text : pieces d value ≠ [""] := by
      intro hv
      have := intercalate_pieces d value
      rw [hv, String.intercalate_singleton] at this
      exact he this.symm
    have := Keyword.items hk hd (pieces_ne_nil d value) text apart
    rw [intercalate_pieces] at this
    simpa only [String.append_assoc] using this

theorem keyword_of_single {body key : String} {mark : Option Char} {a : Assignment}
    (hs : (KeywordForm.single key mark).Spells body)
    (h : assignment ("--" ++ body) = .ok a) : Keyword ("--" ++ body) a := by
  simp only [assignment, keywordForm?_eq_some_iff.mpr hs] at h
  cases mark with
  | none =>
      obtain ⟨hp, rfl⟩ := hs
      obtain ⟨key, hk, rfl, ha⟩ := (bind_dotted_eq_ok_iff hp).mp h
      obtain rfl := Except.ok.inj ha
      exact .on hk
  | some c =>
      obtain ⟨hp, hc, rfl⟩ := hs
      obtain ⟨key, hk, rfl, ha⟩ := (bind_dotted_eq_ok_iff hp).mp h
      obtain rfl := Except.ok.inj ha
      rw [← String.append_assoc]
      rcases hc with rfl | rfl | rfl
      · exact .empty hk (.inl rfl)
      · exact .empty hk (.inr rfl)
      · exact .off hk

theorem keyword_of_assignment {token : String} {a : Assignment} (hd : Dashed token)
    (h : assignment token = .ok a) : Keyword token a := by
  obtain ⟨body, rfl⟩ := hd
  cases hf : keywordForm? (("--" ++ body).toList.drop 2) with
  | none =>
      rw [assignment, hf] at h
      cases h
  | some form =>
      have hs := keywordForm?_eq_some_iff.mp hf
      cases form with
      | reference target source => exact keyword_of_reference hs h
      | pair key delimiter value =>
          cases delimiter with
          | none => exact keyword_of_value hs h
          | some d => exact keyword_of_items hs h
      | single key mark => exact keyword_of_single hs h

theorem dashed_of_keyword {token : String} {a : Assignment} (h : Keyword token a) :
    Dashed token := by
  cases h with
  | on hk => exact ⟨_, rfl⟩
  | tree | reference | referenceValue | value | noItems | items | off | empty =>
      simp only [String.append_assoc]
      exact ⟨_, rfl⟩

theorem form_of_token {token body : String} {form : KeywordForm} (ht : token = "--" ++ body)
    (hs : form.Spells body) : keywordForm? (token.toList.drop 2) = some form := by
  rw [ht]
  exact keywordForm?_eq_some_iff.mpr hs

theorem assignment_of_referenceValue {key source : List String} (hk : Dotted key)
    (hs : Dotted source) : assignment ("--" ++ spell key ++ "=" ++ ":" ++ spell source)
      = .ok (.reference key source) := by
  have line : '\n' ∉ (":" ++ spell source).toList := by
    intro hn
    have : isPathChar '\n' = true := hs.pathShaped.2 _ (by simpa using hn)
    exact absurd this (by decide)
  have hf : (KeywordForm.pair (spell key) none (":" ++ spell source)).Spells
      (spell key ++ "=" ++ (":" ++ spell source)) := ⟨hk.pathShaped, line, rfl⟩
  have hr : afterColon? (":" ++ spell source).toList = some (spell source).toList :=
    afterColon?_toList_eq_some_iff.mpr (by simpa using hs.pathShaped)
  rw [assignment, form_of_token (by simp only [String.append_assoc]) hf]
  simp only [dotted_spell _ hk, ok_bind, hr, String.ofList_toList, dotted_spell _ hs]
  rfl

theorem assignment_of_items {key items : List String} {d : Char} (hk : Dotted key)
    (hd : Delimiter d) (ne : items ≠ []) (text : items ≠ [""])
    (apart : ∀ item ∈ items, d ∉ item.toList ∧ '\n' ∉ item.toList) :
    assignment ("--" ++ spell key ++ String.singleton d ++ "=" ++
        (String.singleton d).intercalate items)
      = .ok (.literal key (.arr (items.map scalar))) := by
  have line : '\n' ∉ ((String.singleton d).intercalate items).toList := by
    intro hn
    rcases mem_intercalate hn with hn | ⟨item, hi, hn⟩
    · rcases hd with rfl | rfl | rfl <;> revert hn <;> decide
    · exact (apart item hi).2 hn
  have hp := pieces_intercalate ne fun item hi => (apart item hi).1
  have hv : (String.singleton d).intercalate items ≠ "" := by
    intro he
    rw [he] at hp
    exact text hp.symm
  have hf : (KeywordForm.pair (spell key) (some d) _).Spells
      (spell key ++ String.singleton d ++ "=" ++ (String.singleton d).intercalate items) :=
    ⟨hk.pathShaped, hd, line, rfl⟩
  rw [assignment, form_of_token (by simp only [String.append_assoc]) hf]
  simp only [dotted_spell _ hk, ok_bind, if_neg hv, hp]
  rfl

theorem assignment_of_keyword {token : String} {a : Assignment} (h : Keyword token a) :
    assignment token = .ok a := by
  cases h with
  | @tree source hs =>
      have hf : (KeywordForm.reference "" (spell source)).Spells (":" ++ spell source) :=
        ⟨by simp, hs.pathShaped, by simp⟩
      rw [assignment, form_of_token String.append_assoc hf]
      simp only [dotted_spell _ hs]
      rfl
  | @reference key source hk hs =>
      have hf : (KeywordForm.reference (spell key) (spell source)).Spells
          (spell key ++ ":" ++ spell source) := ⟨hk.pathShaped.2, hs.pathShaped, rfl⟩
      rw [assignment, form_of_token (by simp only [String.append_assoc]) hf]
      simp only [dotted_spell _ hs, dotted_spell _ hk, if_neg hk.pathShaped.1]
      rfl
  | referenceValue hk hs => exact assignment_of_referenceValue hk hs
  | @value key text hk line plain =>
      have hf : (KeywordForm.pair (spell key) none text).Spells (spell key ++ "=" ++ text) :=
        ⟨hk.pathShaped, line, rfl⟩
      rw [assignment, form_of_token (by simp only [String.append_assoc]) hf]
      simp only [dotted_spell _ hk, ok_bind, afterColon?_toList_eq_none_iff.mpr plain]
      rfl
  | @noItems key d hk hd =>
      have hf : (KeywordForm.pair (spell key) (some d) "").Spells
          (spell key ++ String.singleton d ++ "=" ++ "") := ⟨hk.pathShaped, hd, by simp, rfl⟩
      rw [assignment, form_of_token (by simp only [String.append_assoc, String.append_empty]) hf]
      simp only [dotted_spell _ hk, ok_bind]
      rfl
  | items hk hd ne text apart => exact assignment_of_items hk hd ne text apart
  | @on key hk =>
      have hf : (KeywordForm.single (spell key) none).Spells (spell key) := ⟨hk.pathShaped, rfl⟩
      rw [assignment, form_of_token rfl hf]
      simp only [dotted_spell _ hk]
      rfl
  | @off key hk =>
      have hf : (KeywordForm.single (spell key) (some '-')).Spells (spell key ++ "-") :=
        ⟨hk.pathShaped, by decide, rfl⟩
      rw [assignment, form_of_token String.append_assoc hf]
      simp only [dotted_spell _ hk]
      rfl
  | @empty key mark hk hm =>
      have hf : (KeywordForm.single (spell key) (some mark)).Spells
          (spell key ++ String.singleton mark) := ⟨hk.pathShaped, hm.imp_right .inl, rfl⟩
      rw [assignment, form_of_token String.append_assoc hf]
      simp only [dotted_spell _ hk, ok_bind]
      rcases hm with rfl | rfl <;> rfl

/-- A keyword is accepted, with the assignment it makes, exactly when the grammar has it. -/
theorem assignment_eq_ok_iff {token : String} {a : Assignment} :
    isKeyword token = true ∧ assignment token = .ok a ↔ Keyword token a := by
  rw [isKeyword_iff]
  constructor
  · rintro ⟨hd, h⟩
    exact keyword_of_assignment hd h
  · intro h
    exact ⟨dashed_of_keyword h, assignment_of_keyword h⟩

end Token
end Lineage
