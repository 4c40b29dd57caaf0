import Lineage.Pipeline.Plan
import Lineage.Proofs.Pipeline.Tokens
import Mathlib.Data.List.Forall2

/-!
Plans and splits. Reading one step takes exactly one clause off the front of the tokens, since a clause
ends where the next separator is; by induction a whole pipeline is read as one split of its tokens,
which is the only one.
-/
namespace Lineage
open Grammar

namespace Grammar

theorem SeparatorShaped.head {token : String} (h : SeparatorShaped token) :
    token.toList.head? = some ',' ∨ token.toList.head? = some ':' := by
  rcases h with h | ⟨path, -, rfl | rfl⟩
  · refine .inl ?_
    simp only [List.mem_cons, List.not_mem_nil, or_false] at h
    rcases h with rfl | rfl | rfl | rfl <;> decide
  · exact .inr (by simp)
  · exact .inr (by simp)

theorem IsWord.not_separatorShaped {name : String} (h : IsWord name) (rest : String) :
    ¬ SeparatorShaped (name ++ rest) := by
  intro hs
  cases hn : name.toList with
  | nil => exact h.1 (String.toList_eq_nil_iff.mp hn)
  | cons c cs =>
      have word : isWordChar c = true := h.2 c (by simp [hn])
      have head : c = ',' ∨ c = ':' := by simpa [hn] using hs.head
      rcases head with rfl | rfl <;> exact absurd word (by decide)

theorem Dashed.not_separatorShaped {token : String} (h : Dashed token) :
    ¬ SeparatorShaped token := by
  obtain ⟨body, rfl⟩ := h
  intro hs
  have head : '-' = ',' ∨ '-' = ':' := by simpa using hs.head
  exact absurd head (by decide)

/-- A clause does not start with a separator. -/
theorem Clause.Reads.head {c : Clause} {restart : Restart} {iterate : Bool} {s : Step}
    (h : c.Reads restart iterate s) : ∃ token rest, c.tokens = token :: rest ∧
      ¬ SeparatorShaped token := by
  cases hl : c.label with
  | none => exact ⟨c.method, c.arguments, by simp [Clause.tokens, hl], h.method.1⟩
  | some name =>
      refine ⟨name ++ ":", c.method :: c.arguments, by simp [Clause.tokens, hl], ?_⟩
      exact (h.label name hl).not_separatorShaped ":"

theorem Arguments.not_separatorShaped {tokens : List String} {values : List Json}
    {assignments : List Assignment} (h : Arguments tokens values assignments) :
    ∀ token ∈ tokens, ¬ SeparatorShaped token := by
  induction h with
  | nil => simp
  | positional plain _ ih => exact List.forall_mem_cons.mpr ⟨plain.1, ih⟩
  | keyword head _ ih =>
      exact List.forall_mem_cons.mpr ⟨(Token.dashed_of_keyword head).not_separatorShaped, ih⟩

end Grammar

namespace Plan

/-! ### One step -/

theorem addArgument_of_keyword {token : String} {a : Assignment} (h : Keyword token a) (s : Step) :
    addArgument s token = .ok { s with assignments := s.assignments ++ [a] } := by
  obtain ⟨hk, ha⟩ := Token.assignment_eq_ok_iff.mpr h
  rw [addArgument, if_pos hk, ha]

theorem addArgument_of_plain {token : String} (h : ¬ Dashed token) (s : Step) :
    addArgument s token = .ok { s with positional := s.positional ++ [Token.scalar token] } := by
  rw [addArgument, if_neg fun hk => h (Token.isKeyword_iff.mp hk)]

theorem addArgument_cases {s s' : Step} {token : String} (h : addArgument s token = .ok s') :
    (¬ Dashed token ∧ s' = { s with positional := s.positional ++ [Token.scalar token] }) ∨
      ∃ a, Keyword token a ∧ s' = { s with assignments := s.assignments ++ [a] } := by
  by_cases hd : Dashed token
  · rw [addArgument, if_pos (Token.isKeyword_iff.mpr hd)] at h
    cases ha : Token.assignment token with
    | error e =>
        rw [ha] at h
        cases h
    | ok a =>
        rw [ha] at h
        exact .inr ⟨a, Token.keyword_of_assignment hd ha, (Except.ok.inj h).symm⟩
  · rw [addArgument_of_plain hd] at h
    exact .inl ⟨hd, (Except.ok.inj h).symm⟩

/-- Arguments are added exactly when the grammar has them, behind those that the step has. -/
theorem foldlM_addArgument_eq_ok_iff {tokens : List String} {s s' : Step}
    (plain : ∀ token ∈ tokens, ¬ SeparatorShaped token) :
    tokens.foldlM addArgument s = .ok s' ↔ ∃ values assignments,
      Arguments tokens values assignments ∧
        s' = { s with positional := s.positional ++ values
                      assignments := s.assignments ++ assignments } := by
  induction tokens generalizing s with
  | nil =>
      constructor
      · intro h
        obtain rfl := Except.ok.inj h
        exact ⟨[], [], .nil, by simp⟩
      · rintro ⟨values, assignments, h, rfl⟩
        cases h
        simp [pure, Except.pure]
  | cons token tokens ih =>
      obtain ⟨here, plain⟩ := List.forall_mem_cons.mp plain
      rw [List.foldlM_cons]
      constructor
      · intro h
        cases hadd : addArgument s token with
        | error e =>
            rw [hadd] at h
            cases h
        | ok s₁ =>
            rw [hadd, Token.ok_bind] at h
            obtain ⟨values, assignments, tail, rfl⟩ := (ih plain).mp h
            rcases addArgument_cases hadd with ⟨hd, rfl⟩ | ⟨a, hk, rfl⟩
            · exact ⟨_, _, .positional ⟨here, hd⟩ tail, by simp⟩
            · exact ⟨_, _, .keyword hk tail, by simp⟩
      · rintro ⟨values, assignments, h, rfl⟩
        cases h with
        | positional hp tail =>
            rw [addArgument_of_plain hp.2, Token.ok_bind]
            exact (ih plain).mpr ⟨_, _, tail, by simp⟩
        | keyword hk tail =>
            rw [addArgument_of_keyword hk, Token.ok_bind]
            exact (ih plain).mpr ⟨_, _, tail, by simp⟩

theorem takeLabel_eq_iff {tokens rest : List String} {label : Option String} {method : String} :
    takeLabel tokens = (label, method :: rest) ↔
      tokens = (label.map (· ++ ":")).toList ++ method :: rest ∧
        (∀ name ∈ label, IsWord name) ∧ (label = none → ¬ LabelShaped method) := by
  cases tokens with
  | nil => cases label <;> simp [takeLabel]
  | cons token tokens =>
      rw [takeLabel]
      constructor
      · intro h
        cases hl : Token.label? token with
        | some name =>
            obtain ⟨hw, rfl⟩ := Token.label?_eq_some_iff.mp hl
            obtain ⟨rfl, rfl⟩ : some name = label ∧ tokens = method :: rest := by simpa [hl] using h
            simpa using hw
        | none =>
            obtain ⟨rfl, rfl, rfl⟩ : none = label ∧ token = method ∧ tokens = rest := by
              simpa [hl] using h
            simpa using Token.label?_eq_none_iff.mp hl
      · rintro ⟨he, hw, hm⟩
        cases label with
        | some name =>
            obtain ⟨rfl, rfl⟩ : token = name ++ ":" ∧ tokens = method :: rest := by simpa using he
            simp only [Token.label?_eq_some_iff.mpr ⟨hw name rfl, rfl⟩]
        | none =>
            obtain ⟨rfl, rfl⟩ : token = method ∧ tokens = rest := by simpa using he
            simp only [Token.label?_eq_none_iff.mpr (hm rfl)]

theorem not_isSeparator_iff {token : String} :
    (!Token.isSeparator token) = true ↔ ¬ SeparatorShaped token := by
  rw [Bool.not_eq_true', ← Token.isSeparator_iff, Bool.not_eq_true]

/-- Reading a step takes one clause off the front, which ends at a separator or with the tokens. -/
theorem clause_of_readStep {last : String} {start : Restart × Bool} {tokens rest : List String}
    {s : Step} (h : readStep last start tokens = .ok (s, rest)) :
    ∃ c : Clause, tokens = c.tokens ++ rest ∧ (∀ token ∈ rest.head?, SeparatorShaped token) ∧
      c.Reads start.1 start.2 s := by
  rw [readStep] at h
  split at h
  · cases h
  · rename_i label method more hl
    split at h
    · cases h
    · rename_i hm
      simp only at h
      split at h
      · rename_i s' hargs
        obtain ⟨rfl, rfl⟩ : s' = s ∧ _ = rest := by simpa using h
        have plain : ∀ token ∈ more.takeWhile fun token => !Token.isSeparator token,
            ¬ SeparatorShaped token :=
          fun token ht => not_isSeparator_iff.mp (List.all_eq_true.mp List.all_takeWhile token ht)
        obtain ⟨rfl, hw, hu⟩ := takeLabel_eq_iff.mp hl
        obtain ⟨values, assignments, ha, rfl⟩ := (foldlM_addArgument_eq_ok_iff plain).mp hargs
        rw [Bool.or_eq_true, Token.isSeparator_iff, Token.isKeyword_iff, not_or] at hm
        refine ⟨⟨label, method, _⟩, ?_, ?_, ⟨hw, hm, hu, by simpa using ha, ⟨rfl, rfl⟩, rfl, rfl⟩⟩
        · rw [Clause.tokens, List.append_assoc, List.cons_append, List.takeWhile_append_dropWhile]
        · intro token ht
          have := List.head?_dropWhile_not (fun token => !Token.isSeparator token) more
          rw [ht] at this
          simpa [Token.isSeparator_iff] using this
      · cases h

theorem readStep_of_clause (last : String) {start : Restart × Bool} {c : Clause} {s : Step}
    (h : c.Reads start.1 start.2 s) {rest : List String}
    (hb : ∀ token ∈ rest.head?, SeparatorShaped token) :
    readStep last start (c.tokens ++ rest) = .ok (s, rest) := by
  have hl : takeLabel (c.tokens ++ rest) = (c.label, c.method :: (c.arguments ++ rest)) :=
    takeLabel_eq_iff.mpr ⟨by simp [Clause.tokens], h.label, h.unlabelled⟩
  have hm : ¬ (Token.isSeparator c.method || Token.isKeyword c.method) = true := by
    rw [Bool.or_eq_true, Token.isSeparator_iff, Token.isKeyword_iff, not_or]
    exact h.method
  have plain := h.arguments.not_separatorShaped
  obtain ⟨htake, hdrop⟩ := span_append (p := fun token => !Token.isSeparator token) rest
    (fun token ht => not_isSeparator_iff.mpr (plain token ht))
    (fun token ht => by simpa [Token.isSeparator_iff] using hb token ht)
  have hs : s = { label := c.label, method := c.method, restart := start.1, iterate := start.2
                  positional := s.positional, assignments := s.assignments } := by
    rw [← h.named.1, ← h.named.2, ← h.start.1, ← h.start.2]
  have hargs : c.arguments.foldlM addArgument
      { label := c.label, method := c.method, restart := start.1, iterate := start.2 } = .ok s :=
    (foldlM_addArgument_eq_ok_iff plain).mpr ⟨_, _, h.arguments, hs⟩
  rw [readStep, hl]
  simp only [if_neg hm, htake, hdrop, hargs]

/-! ### Whole pipelines -/

theorem readFrom_last {last : String} {start : Restart × Bool} {tokens : List String} {s : Step}
    (h : readStep last start tokens = .ok (s, [])) : readFrom last start tokens = .ok [s] := by
  rw [readFrom]
  split
  · simp_all
  · simp_all
  · simp_all

theorem readFrom_next {last token : String} {start next : Restart × Bool}
    {tokens rest : List String} {s : Step} (h : readStep last start tokens = .ok (s, token :: rest))
    (hs : Token.separator? token = .ok (some next)) :
    readFrom last start tokens = (readFrom last next rest).map (s :: ·) := by
  rw [readFrom]
  split
  · simp_all
  · simp_all
  · rename_i s' token' rest' h'
    obtain ⟨rfl, rfl, rfl⟩ : s = s' ∧ token = token' ∧ rest = rest' := by simpa [h] using h'
    simp only [hs]

theorem flatMap_tokens {g : Segment} {token : String} (h : g.separator = some token)
    (split : List Segment) : (g :: split).flatMap Segment.tokens
      = token :: (g.clause.tokens ++ split.flatMap Segment.tokens) := by
  simp [Segment.tokens, h]

/-- Segments that follow a clause, each with its separator, and their steps. -/
def Continues (split : List Segment) (steps : List Step) : Prop :=
  (∀ g ∈ split, g.separator.isSome) ∧ List.Forall₂ Segment.Reads split steps

theorem continues_cons_iff {g : Segment} {split : List Segment} {s : Step} {steps : List Step} :
    Continues (g :: split) (s :: steps) ↔ Continues split steps ∧
      ∃ token restart iterate, g.separator = some token ∧ Separator token restart iterate ∧
        g.clause.Reads restart iterate s := by
  simp only [Continues, List.forall_mem_cons, List.forall₂_cons]
  constructor
  · rintro ⟨⟨hg, hsep⟩, hr, htail⟩
    refine ⟨⟨hsep, htail⟩, ?_⟩
    cases hr with
    | first => cases hg
    | after start clause => exact ⟨_, _, _, rfl, start, clause⟩
  · rintro ⟨⟨hsep, htail⟩, token, restart, iterate, hg, start, clause⟩
    obtain ⟨separator, c⟩ := g
    obtain rfl : separator = some token := hg
    exact ⟨⟨rfl, hsep⟩, .after start clause, htail⟩

/-- What continues a clause starts with a separator, if it is not empty. -/
theorem Continues.head {split : List Segment} {steps : List Step} (h : Continues split steps) :
    ∀ token ∈ (split.flatMap Segment.tokens).head?, SeparatorShaped token := by
  cases split with
  | nil => simp
  | cons g split =>
      cases steps with
      | nil => cases h.2
      | cons s steps =>
          obtain ⟨-, token, restart, iterate, hg, start, -⟩ := continues_cons_iff.mp h
          simpa [flatMap_tokens hg] using Token.Separator.shaped start

/-- From a separator on, the tokens are read as a clause and segments that continue it. -/
theorem split_of_readFrom {last : String} {start : Restart × Bool} {tokens : List String}
    {steps : List Step} (h : readFrom last start tokens = .ok steps) : ∃ c split s more,
      tokens = Clause.tokens c ++ split.flatMap Segment.tokens ∧ c.Reads start.1 start.2 s ∧
        Continues split more ∧ steps = s :: more := by
  fun_induction readFrom last start tokens generalizing steps with
  | case1 | case3 | case4 => cases h
  | case2 start tokens s hstep =>
      obtain rfl := Except.ok.inj h
      obtain ⟨c, rfl, -, hc⟩ := clause_of_readStep hstep
      exact ⟨c, [], s, [], rfl, hc, ⟨by simp, .nil⟩, rfl⟩
  | case5 start tokens s token rest hstep next hsep _ ih =>
      obtain ⟨c, rfl, -, hc⟩ := clause_of_readStep hstep
      cases hrest : readFrom last next rest with
      | error e =>
          rw [hrest] at h
          cases h
      | ok more =>
          rw [hrest] at h
          obtain rfl := Except.ok.inj h
          obtain ⟨c', split, s', more, rfl, hc', hcont, rfl⟩ := ih hrest
          refine ⟨c, ⟨some token, c'⟩ :: split, s, s' :: more, ?_, hc, ?_, rfl⟩
          · simp [Segment.tokens]
          · have hsep := Token.separator?_eq_ok_some_iff.mp hsep
            exact continues_cons_iff.mpr ⟨hcont, token, _, _, rfl, hsep, hc'⟩

theorem readFrom_of_split (last : String) {start : Restart × Bool} {c : Clause} {s : Step}
    {split : List Segment} {more : List Step} (hc : c.Reads start.1 start.2 s)
    (hcont : Continues split more) :
    readFrom last start (c.tokens ++ split.flatMap Segment.tokens) = .ok (s :: more) := by
  induction split generalizing start c s more with
  | nil =>
      cases hcont.2
      exact readFrom_last (readStep_of_clause last hc (by simp))
  | cons g split ih =>
      have hstep : readStep last start _ = .ok (s, _) :=
        readStep_of_clause last hc hcont.head
      cases more with
      | nil => cases hcont.2
      | cons s' more =>
          obtain ⟨hcont, token, restart, iterate, hg, hsep, hc'⟩ := continues_cons_iff.mp hcont
          have hsep := Token.separator?_eq_ok_some_iff.mpr hsep
          rw [flatMap_tokens hg] at hstep ⊢
          rw [readFrom_next hstep hsep, ih hc' hcont]
          rfl

/-- The clause at the front of some tokens is the only one there. -/
theorem clause_unique {c c' : Clause} {restart : Restart} {iterate : Bool} {s s' : Step}
    {rest rest' : List String} (hc : c.Reads restart iterate s) (hc' : c'.Reads restart iterate s')
    (hb : ∀ token ∈ rest.head?, SeparatorShaped token)
    (hb' : ∀ token ∈ rest'.head?, SeparatorShaped token)
    (h : c.tokens ++ rest = c'.tokens ++ rest') : c = c' ∧ rest = rest' := by
  have hr : readStep "" (restart, iterate) (c.tokens ++ rest) = .ok (s, rest) :=
    readStep_of_clause "" hc hb
  have hr' : readStep "" (restart, iterate) (c.tokens ++ rest) = .ok (s', rest') :=
    h ▸ readStep_of_clause "" hc' hb'
  obtain ⟨rfl, rfl⟩ : s = s' ∧ rest = rest' := by simpa [hr] using hr'
  have htokens := List.append_cancel_right h
  have hlabel : c.label = c'.label := hc.named.1.symm.trans hc'.named.1
  have hmethod : c.method = c'.method := hc.named.2.symm.trans hc'.named.2
  obtain ⟨label, method, arguments⟩ := c
  obtain ⟨label', method', arguments'⟩ := c'
  obtain rfl : label = label' := hlabel
  obtain rfl : method = method' := hmethod
  obtain rfl : arguments = arguments' := by simpa [Clause.tokens] using htokens
  exact ⟨rfl, rfl⟩

/-- A clause and what continues it are found in the tokens in one way only. -/
theorem continues_unique {c c' : Clause} {split split' : List Segment} {restart : Restart}
    {iterate : Bool} {s s' : Step} {more more' : List Step} (hc : c.Reads restart iterate s)
    (hc' : c'.Reads restart iterate s') (hcont : Continues split more)
    (hcont' : Continues split' more')
    (h : c.tokens ++ split.flatMap Segment.tokens = c'.tokens ++ split'.flatMap Segment.tokens) :
    c = c' ∧ split = split' := by
  induction split generalizing split' more more' c c' restart iterate s s' with
  | nil =>
      obtain ⟨rfl, hrest⟩ := clause_unique hc hc' hcont.head hcont'.head h
      cases split' with
      | nil => exact ⟨rfl, rfl⟩
      | cons g' split' =>
          obtain ⟨token, hg⟩ := Option.isSome_iff_exists.mp (hcont'.1 g' (by simp))
          rw [flatMap_tokens hg] at hrest
          cases hrest
  | cons g split ih =>
      obtain ⟨rfl, hrest⟩ := clause_unique hc hc' hcont.head hcont'.head h
      cases hcont.2 with
      | cons hr htail =>
      obtain ⟨hcont, token, restart, iterate, hg, start, clause⟩ := continues_cons_iff.mp hcont
      rw [flatMap_tokens hg] at hrest
      cases hcont'.2 with
      | nil => cases hrest
      | cons hr' htail' =>
          rename_i g' s'' split' more'
          obtain ⟨hcont', token', restart', iterate', hg', start', clause'⟩ :=
            continues_cons_iff.mp hcont'
          rw [flatMap_tokens hg'] at hrest
          obtain ⟨rfl, htokens⟩ := List.cons.inj hrest
          obtain ⟨rfl, rfl⟩ := Token.separator_unique start start'
          obtain ⟨hclause, rfl⟩ := ih clause clause' hcont hcont' htokens
          obtain ⟨separator, c⟩ := g
          obtain ⟨separator', c'⟩ := g'
          obtain rfl : c = c' := hclause
          obtain rfl : separator = separator' := hg.trans hg'.symm
          exact ⟨rfl, rfl⟩

theorem segment_tokens_ne_nil (g : Segment) : g.tokens ≠ [] := by
  simp [Segment.tokens, Clause.tokens]

/-- Segments without a separator and with one do not start alike. -/
theorem tokens_ne_of_separator {c c' : Clause} {token : String} {restart restart' : Restart}
    {iterate iterate' : Bool} {s : Step} {rest rest' : List String}
    (hc : c.Reads restart iterate s) (start : Separator token restart' iterate') :
    c.tokens ++ rest ≠ token :: (c'.tokens ++ rest') := by
  obtain ⟨first, more, hfirst, plain⟩ := hc.head
  intro h
  rw [hfirst, List.cons_append] at h
  obtain ⟨rfl, -⟩ := List.cons.inj h
  exact plain (Token.Separator.shaped start)

/-- The split of some tokens is the only one. -/
theorem split_unique {tokens : List String} {split split' : List Segment} {steps steps' : List Step}
    (h : IsSplit tokens split) (hr : List.Forall₂ Segment.Reads split steps)
    (h' : IsSplit tokens split') (hr' : List.Forall₂ Segment.Reads split' steps') :
    split = split' := by
  have heq := h.1.symm.trans h'.1
  cases hr with
  | nil =>
      cases hr' with
      | nil => rfl
      | @cons g' => exact absurd heq.symm (by simp [segment_tokens_ne_nil])
  | @cons g s split more hg htail =>
      cases hr' with
      | nil => exact absurd heq (by simp [segment_tokens_ne_nil])
      | @cons g' s' split' more' hg' htail' =>
          have hcont : Continues split more := ⟨h.2, htail⟩
          have hcont' : Continues split' more' := ⟨h'.2, htail'⟩
          cases hg with
          | first hc =>
              cases hg' with
              | first hc' =>
                  obtain ⟨rfl, rfl⟩ := continues_unique hc hc' hcont hcont' heq
                  rfl
              | after start' hc' => exact absurd heq (tokens_ne_of_separator hc start')
          | after start hc =>
              cases hg' with
              | first hc' => exact absurd heq.symm (tokens_ne_of_separator hc' start)
              | after start' hc' =>
                  obtain ⟨rfl, htokens⟩ := List.cons.inj heq
                  obtain ⟨rfl, rfl⟩ := Token.separator_unique start start'
                  obtain ⟨rfl, rfl⟩ := continues_unique hc hc' hcont hcont' htokens
                  rfl

theorem split_of_ofTokens {tokens : List String} {steps : List Step}
    (h : ofTokens tokens = .ok steps) :
    ∃ split, IsSplit tokens split ∧ List.Forall₂ Segment.Reads split steps := by
  unfold ofTokens at h
  split at h
  · obtain rfl := Except.ok.inj h
    exact ⟨[], ⟨rfl, by simp⟩, .nil⟩
  · rename_i token rest
    simp only at h
    split at h
    · cases h
    · obtain ⟨c, split, s, more, he, hc, hcont, rfl⟩ := split_of_readFrom h
      exact ⟨⟨none, c⟩ :: split, ⟨he, hcont.1⟩, .cons (.first hc) hcont.2⟩
    · rename_i hsep
      obtain ⟨c, split, s, more, rfl, hc, hcont, rfl⟩ := split_of_readFrom h
      have start := Token.separator?_eq_ok_some_iff.mp hsep
      exact ⟨⟨some token, c⟩ :: split, ⟨rfl, hcont.1⟩, .cons (.after start hc) hcont.2⟩

theorem ofTokens_of_split {tokens : List String} {split : List Segment} {steps : List Step}
    (h : IsSplit tokens split) (hr : List.Forall₂ Segment.Reads split steps) :
    ofTokens tokens = .ok steps := by
  obtain ⟨rfl, hsep⟩ := h
  cases hr with
  | nil => rfl
  | @cons g s split more hg htail =>
      have hcont : Continues split more := ⟨hsep, htail⟩
      cases hg with
      | @first c s hc =>
          obtain ⟨first, rest, he, plain⟩ := hc.head
          have htokens : (⟨none, c⟩ :: split : List Segment).flatMap Segment.tokens
              = first :: (rest ++ split.flatMap Segment.tokens) := by
            simp [Segment.tokens, he]
          rw [htokens, ofTokens]
          simp only [Token.separator?_eq_ok_none_iff.mpr plain]
          have all : first :: (rest ++ split.flatMap Segment.tokens)
              = c.tokens ++ split.flatMap Segment.tokens := by rw [he, List.cons_append]
          rw [all]
          exact readFrom_of_split _ hc hcont
      | @after token restart iterate c s start hc =>
          rw [flatMap_tokens rfl, ofTokens]
          simp only [Token.separator?_eq_ok_some_iff.mpr start]
          exact readFrom_of_split _ hc hcont

/-- A pipeline is accepted exactly when the grammar splits its tokens, with the steps that are the
values of the segments, and a pipeline has at most one split. -/
theorem ofTokens_accepts_grammar (tokens : List String) :
    (∀ steps, ofTokens tokens = .ok steps ↔
      ∃ split, IsSplit tokens split ∧ List.Forall₂ Segment.Reads split steps) ∧
    ∀ split split' steps steps', IsSplit tokens split → List.Forall₂ Segment.Reads split steps →
      IsSplit tokens split' → List.Forall₂ Segment.Reads split' steps' →
      split = split' ∧ steps = steps' := by
  constructor
  · intro steps
    exact ⟨split_of_ofTokens, fun ⟨split, h, hr⟩ => ofTokens_of_split h hr⟩
  · intro split split' steps steps' h hr h' hr'
    have hsteps := (ofTokens_of_split h hr).symm.trans (ofTokens_of_split h' hr')
    exact ⟨split_unique h hr h' hr', Except.ok.inj hsteps⟩

end Plan
end Lineage
