import Lineage.Json.Printer
import Lineage.Number.Integer
import Lineage.Proofs.Json.Numerals
import Lineage.Proofs.Table

/-!
What is written is read back. The text of a value, in either layout, is read as that very value, its
keys in the same order, if integers are of 64 bits, maps have each key once and the containers are
not too deep. A double is read in two roundings, which may miss it; the text of each must be one that
does not.
-/
namespace Lineage

namespace Json

/-- A value whose text can be read back, with at most so many containers nested. -/
inductive Legible : Nat → Json → Prop
  | null {levels} : Legible levels .null
  | bool {levels b} : Legible levels (.bool b)
  | int {levels n} (range : fits 63 64 n = true) : Legible levels (.int n)
  | float {levels x} (exact_ : read? (numberFormat.render x) = some (.float x)) :
      Legible levels (.float x)
  | str {levels s} : Legible levels (.str s)
  | arr {levels items} (h : ∀ x ∈ items, Legible levels x) : Legible (levels + 1) (.arr items)
  | obj {levels} {fields : Params} (distinct : Table.Distinct fields)
      (h : ∀ field ∈ fields, Legible levels field.2) : Legible (levels + 1) (.obj fields)

theorem Legible.field {levels : Nat} {key : String} {x : Json} (h : x.Legible levels) :
    (Json.obj [(key, x)]).Legible (levels + 1) :=
  .obj (List.nodup_singleton key) (List.forall_mem_singleton.mpr h)

end Json

namespace Json.Reader

attribute [local simp] value items fields

variable {fuel room depth : Nat} {l : Layout} {cs r rest : List Char} {x : Json}

/-! ### Blanks -/

theorem skipBlanks_cons {c : Char} (h : isBlank c = false) (cs : List Char) :
    skipBlanks (c :: cs) = c :: cs := by
  simp [skipBlanks, h]

theorem skipBlanks_append (blank : ∀ c ∈ cs, isBlank c = true) (rest : List Char) :
    skipBlanks (cs ++ rest) = skipBlanks rest := by
  rw [skipBlanks, List.dropWhile_append_of_pos blank, skipBlanks]

theorem skipBlanks_skipBlanks (cs : List Char) : skipBlanks (skipBlanks cs) = skipBlanks cs := by
  induction cs with
  | nil => rfl
  | cons c cs ih =>
      cases h : isBlank c with
      | false => rw [skipBlanks_cons h, skipBlanks_cons h]
      | true =>
          have skip : skipBlanks (c :: cs) = skipBlanks cs := by simp [skipBlanks, h]
          rw [skip, ih]

theorem blank_lineBreak (l : Layout) (depth : Nat) :
    ∀ c ∈ (l.lineBreak depth).toList, isBlank c = true := by
  have indent (n : Nat) : ∀ c ∈ ("".pushn ' ' n).toList, isBlank c = true := by
    rw [String.pushn_eq_repeat_push]
    induction n with
    | zero => simp [Nat.repeat]
    | succ n ih =>
        intro c hc
        rw [Nat.repeat, String.toList_push, List.mem_append, List.mem_singleton] at hc
        rcases hc with hc | rfl
        · exact ih c hc
        · rfl
  cases l with
  | compact => simp [Layout.lineBreak]
  | indented width =>
      intro c hc
      rw [Layout.lineBreak, String.toList_append, List.mem_append] at hc
      rcases hc with hc | hc
      · obtain rfl : c = '\n' := by simpa using hc
        rfl
      · exact indent _ c hc

theorem skip_lineBreak (l : Layout) (depth : Nat) (cs : List Char) :
    skipBlanks ((l.lineBreak depth).toList ++ cs) = skipBlanks cs :=
  skipBlanks_append (blank_lineBreak l depth) cs

theorem value_skipBlanks (fuel room : Nat) (cs : List Char) :
    value fuel room (skipBlanks cs) = value fuel room cs := by
  cases fuel with
  | zero => rw [value, value]
  | succ fuel => rw [value, value, skipBlanks_skipBlanks]

theorem items_skipBlanks (fuel room : Nat) (acc : List Json) (cs : List Char) :
    items fuel room acc (skipBlanks cs) = items fuel room acc cs := by
  cases fuel with
  | zero => rw [items, items]
  | succ fuel => rw [items, items, value_skipBlanks]

theorem fields_skipBlanks (fuel room : Nat) (acc : List (String × Json)) (cs : List Char) :
    fields fuel room acc (skipBlanks cs) = fields fuel room acc cs := by
  cases fuel with
  | zero => rw [fields, fields]
  | succ fuel => rw [fields, fields, skipBlanks_skipBlanks]

theorem apart_lineBreak (l : Layout) (depth : Nat) (h : Apart cs) :
    Apart ((l.lineBreak depth).toList ++ cs) := by
  cases l with
  | compact => simpa [Layout.lineBreak] using h
  | indented width =>
      rw [Layout.lineBreak, String.toList_append]
      exact apart_cons.mpr (by decide)

/-! ### Texts -/

theorem hexDigit?_digitChar : ∀ d < 16, hexDigit? d.digitChar = some d := by decide

/-- The characters with an escape of their own. -/
def escapes : List Char := ['"', '\\', '\n', '\r', '\t', '\x08', '\x0c']

theorem escapeChar_of_other {c : Char} (h : c ∉ escapes) :
    escapeChar c = if c.toNat < 32 then
        "\\u00" ++ String.ofList [Nat.digitChar (c.toNat / 16), Nat.digitChar (c.toNat % 16)]
      else c.toString := by
  simp only [escapes, List.mem_cons, List.not_mem_nil, or_false, not_or] at h
  obtain ⟨quote, backslash, line, return_, tab, back, form⟩ := h
  rw [escapeChar] <;> assumption

/-- An escaped character is read as that character. -/
theorem stringBody_escapeChar (fuel : Nat) (acc : List Char) (c : Char) (cs : List Char) :
    stringBody (fuel + 1) acc ((escapeChar c).toList ++ cs) = stringBody fuel (c :: acc) cs := by
  by_cases special : c ∈ escapes
  · simp only [escapes, List.mem_cons, List.not_mem_nil, or_false] at special
    rcases special with rfl | rfl | rfl | rfl | rfl | rfl | rfl <;> rfl
  rw [escapeChar_of_other special]
  split
  · rename_i control
    have zero : hexDigit? '0' = some 0 := rfl
    have high := hexDigit?_digitChar (c.toNat / 16) (by omega)
    have low := hexDigit?_digitChar (c.toNat % 16) (by omega)
    have whole : c.toNat / 16 * 16 + c.toNat % 16 = c.toNat := Nat.div_add_mod' c.toNat 16
    have unit : unicodeEscape ('0' :: '0' :: (c.toNat / 16).digitChar ::
        (c.toNat % 16).digitChar :: cs) = some (c, cs) := by
      have plain : ¬ (0xD800 ≤ c.toNat ∧ c.toNat ≤ 0xDBFF) := by omega
      have plain' : ¬ (0xDC00 ≤ c.toNat ∧ c.toNat ≤ 0xDFFF) := by omega
      simp [unicodeEscape, hex4?, zero, high, low, whole, plain, plain', Char.ofNat_toNat]
    simp [stringBody, unit]
  · rename_i printed
    have quote : c ≠ '"' := by
      rintro rfl
      exact special (by decide)
    have backslash : c ≠ '\\' := by
      rintro rfl
      exact special (by decide)
    rw [Char.toString_eq_singleton, String.toList_singleton, List.singleton_append]
    simp [stringBody, backslash, printed]

theorem toList_quoted (s : String) :
    (quoted s).toList = '"' :: s.toList.flatMap (fun c => (escapeChar c).toList) ++ ['"'] := by
  have fold (cs : List Char) (acc : String) :
      (cs.foldl (fun acc c => acc ++ escapeChar c) acc).toList =
        acc.toList ++ cs.flatMap fun c => (escapeChar c).toList := by
    induction cs generalizing acc with
    | nil => simp
    | cons c cs ih => rw [List.foldl_cons, ih, String.toList_append, List.flatMap_cons,
        List.append_assoc]
  rw [quoted, String.toList_append, String.toList_append, fold]
  rfl

theorem stringBody_flatMap {acc : List Char} (enough : cs.length < fuel) :
    stringBody fuel acc (cs.flatMap (fun c => (escapeChar c).toList) ++ '"' :: rest) =
      some (String.ofList (acc.reverse ++ cs), rest) := by
  induction cs generalizing fuel acc with
  | nil =>
      obtain ⟨fuel, rfl⟩ := Nat.exists_eq_add_of_lt enough
      simp [stringBody]
  | cons c cs ih =>
      obtain ⟨fuel, rfl⟩ := Nat.exists_eq_add_of_lt (Nat.zero_lt_of_lt enough)
      rw [List.length_cons] at enough
      rw [Nat.zero_add, List.flatMap_cons, List.append_assoc, stringBody_escapeChar,
        ih (by omega), List.reverse_cons, List.append_assoc, List.singleton_append]

theorem length_le_flatMap (cs : List Char) :
    cs.length ≤ (cs.flatMap fun c => (escapeChar c).toList).length := by
  have pos (c : Char) : 1 ≤ (escapeChar c).toList.length := by
    by_cases special : c ∈ escapes
    · simp only [escapes, List.mem_cons, List.not_mem_nil, or_false] at special
      rcases special with rfl | rfl | rfl | rfl | rfl | rfl | rfl <;> decide
    · rw [escapeChar_of_other special]
      split <;> simp [Char.toString_eq_singleton]
  induction cs with
  | nil => exact Nat.le_refl 0
  | cons c cs ih =>
      have first := pos c
      rw [List.flatMap_cons, List.length_append, List.length_cons]
      omega

/-- A quoted text is read as that text. -/
theorem stringBody_quoted (s : String) (rest : List Char) :
    ∃ body, (quoted s).toList ++ rest = '"' :: body ∧
      stringBody (body.length + 1) [] body = some (s, rest) := by
  refine ⟨s.toList.flatMap (fun c => (escapeChar c).toList) ++ '"' :: rest, ?_, ?_⟩
  · rw [toList_quoted]
    simp
  · have enough := length_le_flatMap s.toList
    rw [stringBody_flatMap (by rw [List.length_append]; omega), List.reverse_nil, List.nil_append,
      String.ofList_toList]

/-! ### Scalars -/

/-- A text that is read as a value wherever it stands, up to the blanks after it. -/
def Reads (room : Nat) (text : String) (x : Json) : Prop :=
  ∀ ⦃fuel rest⦄, 2 * text.toList.length ≤ fuel → Apart rest →
    ∃ r, value fuel room (text.toList ++ rest) = some (x, r) ∧ skipBlanks r = skipBlanks rest

/-- To read a value takes some fuel, and there is some for a text that is not empty. -/
theorem reads_of_succ {text : String} (some_ : text ≠ "")
    (h : ∀ ⦃fuel rest⦄, 2 * text.toList.length ≤ fuel + 1 → Apart rest →
      ∃ r, value (fuel + 1) room (text.toList ++ rest) = some (x, r) ∧
        skipBlanks r = skipBlanks rest) : Reads room text x := by
  intro fuel rest enough apart
  have pos : 0 < text.toList.length := List.length_pos_iff.mpr fun he =>
    some_ (String.toList_inj.mp (by simpa using he))
  obtain ⟨fuel, rfl⟩ := Nat.exists_eq_add_of_lt (show 0 < fuel by omega)
  rw [Nat.zero_add] at enough ⊢
  exact h enough apart

theorem reads_null (room : Nat) : Reads room "null" .null := by
  refine reads_of_succ (by decide) fun fuel rest _ _ => ⟨rest, ?_, rfl⟩
  rw [value]
  rfl

theorem reads_bool (room : Nat) (b : Bool) : Reads room (if b then "true" else "false") (.bool b) := by
  cases b <;> refine reads_of_succ (by decide) fun fuel rest _ _ => ⟨rest, ?_, rfl⟩ <;> rw [value] <;>
    rfl

theorem isBlank_of_isDigit {c : Char} (h : c.isDigit = true) : isBlank c = false := by
  rw [isBlank]
  simp only [Bool.or_eq_false_iff, beq_eq_false_iff_ne]
  refine ⟨⟨⟨?_, ?_⟩, ?_⟩, ?_⟩ <;> rintro rfl <;> cases h

theorem value_digit {c : Char} (h : c.isDigit = true) (fuel room : Nat) (cs : List Char) :
    value (fuel + 1) room (c :: cs) = number false (c :: cs) := by
  rw [value, skipBlanks_cons (isBlank_of_isDigit h)]
  split
  case h_8 => rfl
  all_goals
    rename_i he
    cases he
    cases h

theorem value_minus (fuel room : Nat) (cs : List Char) :
    value (fuel + 1) room ('-' :: cs) = number true cs := by
  rw [value, skipBlanks_cons (by decide)]
  rfl

/-- Integers of 64 bits are read as they are. -/
theorem reads_int {n : Int} (range : fits 63 64 n = true) (room : Nat) :
    Reads room (toString n) (.int n) := by
  rw [fits, decide_eq_true_eq] at range
  rw [Int.toString_eq_repr]
  cases n with
  | ofNat n =>
      have small : n < Nat.pow 2 64 := Int.ofNat_lt.mp range.2
      rw [show (Int.ofNat n).repr = n.repr from rfl]
      obtain ⟨c, ds, hd⟩ := List.exists_cons_of_ne_nil (Nat.toDigits_ne_nil (n := n) (b := 10))
      refine reads_of_succ ?_ fun fuel rest _ apart => ⟨rest, ?_, rfl⟩
      · exact fun he => absurd (congrArg String.toList he) (by simp [Nat.toList_repr, hd])
      · have first : c.isDigit = true := isDigit_toDigits (n := n) (by rw [hd]; exact List.mem_cons_self)
        rw [Nat.toList_repr, hd, List.cons_append, value_digit first, ← List.cons_append, ← hd,
          number_toDigits apart false small]
        rfl
  | negSucc n =>
      have small : n + 1 ≤ Nat.pow 2 63 := by
        have h := range.1
        omega
      have below : n + 1 < Nat.pow 2 64 := Nat.lt_of_le_of_lt small (by decide)
      rw [show (Int.negSucc n).repr = "-" ++ (n + 1).repr from rfl]
      refine reads_of_succ ?_ fun fuel rest _ apart => ⟨rest, ?_, rfl⟩
      · exact fun he => absurd (congrArg String.toList he) (by simp)
      · rw [String.toList_append, Nat.toList_repr]
        change value (fuel + 1) room ('-' :: (Nat.toDigits 10 (n + 1) ++ rest)) = _
        rw [value_minus, number_toDigits apart true below, wholeNumber, if_pos rfl,
          if_pos ⟨Nat.succ_ne_zero n, small⟩]
        rfl

theorem reads_str (room : Nat) (s : String) : Reads room (quoted s) (.str s) := by
  refine reads_of_succ ?_ fun fuel rest _ _ => ⟨rest, ?_, rfl⟩
  · exact fun he => absurd (congrArg String.toList he) (by simp [toList_quoted])
  · obtain ⟨body, text, read⟩ := stringBody_quoted s rest
    rw [text, value, skipBlanks_cons (by decide)]
    change (stringBody (body.length + 1) [] body).map _ = _
    rw [read]
    rfl

/-! ### Doubles -/

theorem digit_of_number {negative : Bool} {p : Json × List Char} (h : number negative cs = some p) :
    ∃ c t, cs = c :: t ∧ c.isDigit = true := by
  cases cs with
  | nil => cases h
  | cons c t =>
      refine ⟨c, t, rfl, ?_⟩
      by_cases zero : c = '0'
      · subst zero
        rfl
      · simp only [number] at h
        split at h
        · assumption
        · cases h

theorem skipBlanks_append_cons {c : Char} {t : List Char} (h : skipBlanks cs = c :: t)
    (rest : List Char) : skipBlanks (cs ++ rest) = c :: (t ++ rest) := by
  rw [skipBlanks, List.dropWhile_append, ← skipBlanks, h]
  rfl

/-- A double is read from a number, after a minus or not. -/
theorem number_of_value {y : Binary64} (h : value fuel room cs = some (.float y, r)) :
    (∃ t, skipBlanks cs = '-' :: t ∧ number true t = some (.float y, r)) ∨
      number false (skipBlanks cs) = some (.float y, r) := by
  cases fuel with
  | zero =>
      rw [value] at h
      cases h
  | succ fuel =>
      rw [value] at h
      split at h
      · cases h
      · cases h
      · cases h
      · obtain ⟨p, -, he⟩ := Option.map_eq_some_iff.mp h
        cases he
      · split at h
        · cases h
        · split at h
          · cases h
          · obtain ⟨p, -, he⟩ := Option.map_eq_some_iff.mp h
            cases he
      · split at h
        · cases h
        · split at h
          · cases h
          · obtain ⟨p, -, he⟩ := Option.map_eq_some_iff.mp h
            cases he
      · rename_i t minus
        exact .inl ⟨t, minus, h⟩
      · exact .inr h

/-- A text that is read as a double by itself is read as that in any place. -/
theorem reads_float {y : Binary64} {text : String} (h : read? text = some (.float y)) (room : Nat) :
    Reads room text (.float y) := by
  unfold read? at h
  dsimp only at h
  split at h
  · rename_i z tail hv
    split at h
    · rename_i blank
      cases h
      refine reads_of_succ ?_ fun fuel rest _ apart => ⟨tail ++ rest, ?_, ?_⟩
      · rintro rfl
        rcases number_of_value hv with ⟨t, he, -⟩ | hn
        · cases he
        · cases hn
      · rw [← value_skipBlanks]
        rcases number_of_value hv with ⟨t, minus, hn⟩ | hn
        · rw [skipBlanks_append_cons minus, value_minus]
          exact apart.number hn
        · obtain ⟨c, t, he, digit⟩ := digit_of_number hn
          rw [skipBlanks_append_cons he, value_digit digit, ← List.cons_append, ← he]
          exact apart.number hn
      · rw [skipBlanks, List.dropWhile_append, ← skipBlanks, blank]
        rfl
    · cases h
  · cases h

/-! ### Containers -/

/-- What closes a list begins no items. -/
theorem open_of_items {acc : List Json} {p : List Json × List Char}
    (h : items fuel room acc cs = some p) (t : List Char) : skipBlanks cs ≠ ']' :: t := by
  intro close
  rw [← items_skipBlanks, close] at h
  cases fuel with
  | zero =>
      rw [items] at h
      cases h
  | succ fuel =>
      rw [items] at h
      cases fuel with
      | zero =>
          rw [value] at h
          cases h
      | succ fuel =>
          rw [value, skipBlanks_cons (by decide)] at h
          cases h

theorem open_of_fields {acc : List (String × Json)} {p : List (String × Json) × List Char}
    (h : fields fuel room acc cs = some p) (t : List Char) : skipBlanks cs ≠ '\x7d' :: t := by
  intro close
  cases fuel with
  | zero =>
      rw [fields] at h
      cases h
  | succ fuel =>
      rw [fields, close] at h
      cases h

theorem value_list (deep : 1 < room) (some_ : ∀ t, skipBlanks cs ≠ ']' :: t) :
    value (fuel + 1) room ('[' :: cs) =
      (items fuel (room - 1) [] cs).map fun (xs, r) => (.arr xs, r) := by
  rw [value, skipBlanks_cons (by decide), ← items_skipBlanks]
  simp only [if_neg (Nat.not_le.mpr deep)]

theorem value_map (deep : 1 < room) (some_ : ∀ t, skipBlanks cs ≠ '\x7d' :: t) :
    value (fuel + 1) room ('\x7b' :: cs) =
      (fields fuel (room - 1) [] cs).map fun (xs, r) => (.obj (Table.ofFields xs), r) := by
  rw [value, skipBlanks_cons (by decide), ← fields_skipBlanks]
  simp only [if_neg (Nat.not_le.mpr deep)]

/-- A list is read item by item, up to the last. -/
theorem items_more {text : String} {acc : List Json} (h : Reads room text x)
    (enough : 2 * text.toList.length ≤ fuel) (apart : Apart rest)
    (more : skipBlanks rest = ',' :: cs) :
    items (fuel + 1) room acc (text.toList ++ rest) = items fuel room (x :: acc) cs := by
  obtain ⟨r, read, skip⟩ := h enough apart
  simp only [items, read, skip, more]

theorem items_last {text : String} {acc : List Json} (h : Reads room text x)
    (enough : 2 * text.toList.length ≤ fuel) (apart : Apart rest)
    (last : skipBlanks rest = ']' :: cs) :
    items (fuel + 1) room acc (text.toList ++ rest) = some ((x :: acc).reverse, cs) := by
  obtain ⟨r, read, skip⟩ := h enough apart
  simp only [items, read, skip, last]

/-- A field is read as its key and its value. -/
theorem reads_field (l : Layout) {text : String} (key : String) (h : Reads room text x)
    (enough : 2 * text.toList.length ≤ fuel) (apart : Apart rest) :
    ∃ body r tail, (quoted key ++ l.colon ++ text).toList ++ rest = '"' :: body ∧
      stringBody (body.length + 1) [] body = some (key, ':' :: r) ∧
        value fuel room r = some (x, tail) ∧ skipBlanks tail = skipBlanks rest := by
  obtain ⟨body, begins, string⟩ := stringBody_quoted key (l.colon.toList ++ (text.toList ++ rest))
  obtain ⟨blanks, colon, blank⟩ : ∃ blanks, l.colon.toList = ':' :: blanks ∧
      ∀ c ∈ blanks, isBlank c = true := by
    cases l with
    | compact => exact ⟨[], rfl, by simp⟩
    | indented width => exact ⟨[' '], by simp [Layout.colon], by simp [isBlank]⟩
  obtain ⟨tail, read, skip⟩ := h enough apart
  refine ⟨body, blanks ++ (text.toList ++ rest), tail, ?_, ?_, ?_, skip⟩
  · rw [String.toList_append, String.toList_append, List.append_assoc, List.append_assoc, begins]
  · rw [string, colon, List.cons_append]
  · rw [← value_skipBlanks, skipBlanks_append blank, value_skipBlanks, read]

/-- A map is read field by field, up to the last. -/
theorem fields_more {text key : String} {acc : List (String × Json)} (h : Reads room text x)
    (enough : 2 * text.toList.length ≤ fuel) (apart : Apart rest)
    (more : skipBlanks rest = ',' :: cs) :
    fields (fuel + 1) room acc ((quoted key ++ l.colon ++ text).toList ++ rest) =
      fields fuel room ((key, x) :: acc) cs := by
  obtain ⟨body, r, tail, begins, string, read, skip⟩ := reads_field l key h enough apart
  have quote := skipBlanks_cons (show isBlank '"' = false by decide) body
  have colon := skipBlanks_cons (show isBlank ':' = false by decide) r
  simp only [begins, fields, quote, string, colon, read, skip, more]

theorem fields_last {text key : String} {acc : List (String × Json)} (h : Reads room text x)
    (enough : 2 * text.toList.length ≤ fuel) (apart : Apart rest)
    (last : skipBlanks rest = '\x7d' :: cs) :
    fields (fuel + 1) room acc ((quoted key ++ l.colon ++ text).toList ++ rest) =
      some (((key, x) :: acc).reverse, cs) := by
  obtain ⟨body, r, tail, begins, string, read, skip⟩ := reads_field l key h enough apart
  have quote := skipBlanks_cons (show isBlank '"' = false by decide) body
  have colon := skipBlanks_cons (show isBlank ':' = false by decide) r
  simp only [begins, fields, quote, string, colon, read, skip, last]

theorem items_render {xs : List Json} (acc : List Json)
    (h : ∀ y ∈ x :: xs, Reads room (renderAt l depth y) y)
    (enough : 2 * (renderAt l depth x ++ renderItems l depth xs).toList.length + 1 ≤ fuel)
    (outer : Nat) (rest : List Char) :
    items fuel room acc ((renderAt l depth x ++ renderItems l depth xs).toList ++
      ((l.lineBreak outer).toList ++ ']' :: rest)) = some (acc.reverse ++ x :: xs, rest) := by
  induction xs generalizing x acc fuel with
  | nil =>
      obtain ⟨fuel, rfl⟩ := Nat.exists_eq_add_of_lt (Nat.zero_lt_of_lt enough)
      rw [renderItems, String.append_empty] at enough ⊢
      rw [Nat.zero_add, items_last (h x List.mem_cons_self) (by omega)
        (apart_lineBreak l outer (apart_cons.mpr (by decide)))
        ((skip_lineBreak l outer _).trans (skipBlanks_cons (by decide) _))]
      simp
  | cons y ys ih =>
      obtain ⟨fuel, rfl⟩ := Nat.exists_eq_add_of_lt (Nat.zero_lt_of_lt enough)
      have text : (renderAt l depth x ++ renderItems l depth (y :: ys)).toList =
          (renderAt l depth x).toList ++ ',' :: ((l.lineBreak depth).toList ++
            (renderAt l depth y ++ renderItems l depth ys).toList) := by
        simp [renderItems, String.toList_append]
      rw [text] at enough ⊢
      simp only [List.length_append, List.length_cons] at enough
      rw [List.append_assoc, List.cons_append, List.append_assoc, Nat.zero_add,
        items_more (h x List.mem_cons_self) (by omega) (apart_cons.mpr (by decide))
          (skipBlanks_cons (by decide) _), ← items_skipBlanks, skip_lineBreak, items_skipBlanks,
        ih _ (fun z hz => h z (List.mem_cons_of_mem _ hz)) (by omega)]
      simp

theorem fields_render {k : String} {xs : List (String × Json)} (acc : List (String × Json))
    (h : ∀ field ∈ (k, x) :: xs, Reads room (renderAt l depth field.2) field.2)
    (enough : 2 * (quoted k ++ l.colon ++ renderAt l depth x ++
      renderFields l depth xs).toList.length + 1 ≤ fuel) (outer : Nat) (rest : List Char) :
    fields fuel room acc ((quoted k ++ l.colon ++ renderAt l depth x ++
      renderFields l depth xs).toList ++ ((l.lineBreak outer).toList ++ '\x7d' :: rest)) =
        some (acc.reverse ++ (k, x) :: xs, rest) := by
  have value (k : String) (x : Json) : 2 * (renderAt l depth x).toList.length ≤
      2 * (quoted k ++ l.colon ++ renderAt l depth x).toList.length := by
    rw [String.toList_append, List.length_append]
    omega
  induction xs generalizing k x acc fuel with
  | nil =>
      obtain ⟨fuel, rfl⟩ := Nat.exists_eq_add_of_lt (Nat.zero_lt_of_lt enough)
      have first := value k x
      have read : Reads room (renderAt l depth x) x := h (k, x) List.mem_cons_self
      rw [renderFields, String.append_empty] at enough ⊢
      rw [Nat.zero_add, fields_last read (by omega)
        (apart_lineBreak l outer (apart_cons.mpr (by decide)))
        ((skip_lineBreak l outer _).trans (skipBlanks_cons (by decide) _))]
      simp
  | cons field ys ih =>
      obtain ⟨k', y⟩ := field
      obtain ⟨fuel, rfl⟩ := Nat.exists_eq_add_of_lt (Nat.zero_lt_of_lt enough)
      have first := value k x
      have read : Reads room (renderAt l depth x) x := h (k, x) List.mem_cons_self
      have text : (quoted k ++ l.colon ++ renderAt l depth x ++
          renderFields l depth ((k', y) :: ys)).toList =
            (quoted k ++ l.colon ++ renderAt l depth x).toList ++ ',' ::
              ((l.lineBreak depth).toList ++ (quoted k' ++ l.colon ++ renderAt l depth y ++
                renderFields l depth ys).toList) := by
        simp [renderFields, String.toList_append]
      rw [text] at enough ⊢
      rw [List.length_append, List.length_cons, List.length_append] at enough
      rw [List.append_assoc, List.cons_append, List.append_assoc, Nat.zero_add,
        fields_more read (by omega) (apart_cons.mpr (by decide))
          (skipBlanks_cons (by decide) _), ← fields_skipBlanks, skip_lineBreak, fields_skipBlanks,
        ih _ (fun z hz => h z (List.mem_cons_of_mem _ hz)) (by omega)]
      simp

/-- The text of a value is read as that value, at any depth of indentation. -/
theorem reads_render {levels : Nat} (h : x.Legible levels) (l : Layout) (depth : Nat) :
    Reads (levels + 1) (renderAt l depth x) x := by
  induction h generalizing depth with
  | null => exact reads_null _
  | bool => exact reads_bool _ _
  | int range => exact reads_int range _
  | float exact_ => exact reads_float exact_ _
  | str => exact reads_str _ _
  | @arr levels items h ih =>
      cases items with
      | nil =>
          refine reads_of_succ (by rw [renderAt]; decide) fun fuel rest _ _ => ⟨rest, ?_, rfl⟩
          rw [renderAt, value]
          change (if levels + 1 + 1 ≤ 1 then none else some (Json.arr [], rest)) = _
          rw [if_neg (by omega)]
      | cons y ys =>
          refine reads_of_succ (by simp [renderAt]) fun fuel rest enough _ => ⟨rest, ?_, rfl⟩
          have text : (renderAt l depth (.arr (y :: ys))).toList ++ rest =
              '[' :: ((l.lineBreak (depth + 1)).toList ++
                ((renderAt l (depth + 1) y ++ renderItems l (depth + 1) ys).toList ++
                  ((l.lineBreak depth).toList ++ ']' :: rest))) := by
            simp [renderAt, String.toList_append]
          have size := congrArg List.length text
          simp only [List.length_append, List.length_cons] at size
          have read := items_render [] (fun z hz => ih z hz (depth + 1))
            (show 2 * (renderAt l (depth + 1) y ++ renderItems l (depth + 1) ys).toList.length + 1
              ≤ fuel by omega) depth rest
          rw [text, value_list (by omega), ← items_skipBlanks, skip_lineBreak, items_skipBlanks]
          · exact congrArg (Option.map _) read
          · rw [skip_lineBreak]
            exact open_of_items read
  | @obj levels fields distinct h ih =>
      cases fields with
      | nil =>
          refine reads_of_succ (by rw [renderAt]; decide) fun fuel rest _ _ => ⟨rest, ?_, rfl⟩
          rw [renderAt, value]
          change (if levels + 1 + 1 ≤ 1 then none else some (Json.obj [], rest)) = _
          rw [if_neg (by omega)]
      | cons field ys =>
          obtain ⟨k, y⟩ := field
          refine reads_of_succ (by simp [renderAt]) fun fuel rest enough _ => ⟨rest, ?_, rfl⟩
          have text : (renderAt l depth (.obj ((k, y) :: ys))).toList ++ rest =
              '\x7b' :: ((l.lineBreak (depth + 1)).toList ++
                ((quoted k ++ l.colon ++ renderAt l (depth + 1) y ++
                  renderFields l (depth + 1) ys).toList ++
                    ((l.lineBreak depth).toList ++ '\x7d' :: rest))) := by
            simp [renderAt, String.toList_append]
          have size := congrArg List.length text
          simp only [List.length_append, List.length_cons] at size
          have read := fields_render [] (fun z hz => ih z hz (depth + 1))
            (show 2 * (quoted k ++ l.colon ++ renderAt l (depth + 1) y ++
              renderFields l (depth + 1) ys).toList.length + 1 ≤ fuel by omega) depth rest
          rw [text, value_map (by omega), ← fields_skipBlanks, skip_lineBreak, fields_skipBlanks]
          · rw [show levels + 1 + 1 - 1 = levels + 1 from rfl, read]
            simp only [Option.map_some, List.reverse_nil, List.nil_append,
              Table.ofFields_of_distinct distinct]
          · rw [skip_lineBreak]
            exact open_of_fields read

end Json.Reader

open Json.Reader

theorem Json.Reader.apart_of_blank {cs : List Char} (blank : ∀ c ∈ cs, isBlank c = true) :
    Apart cs := by
  intro c first
  have h := blank c (List.mem_of_mem_head? first)
  simp only [isBlank, Bool.or_eq_true, beq_iff_eq] at h
  rcases h with ((rfl | rfl) | rfl) | rfl <;> decide

/-- The text of a value is read as that value, with or without blanks after it. -/
theorem Json.read?_render {x : Json} (h : x.Legible 127) (l : Layout) {blanks : String}
    (blank : ∀ c ∈ blanks.toList, isBlank c = true) : read? (x.render l ++ blanks) = some x := by
  have none_left : skipBlanks blanks.toList = [] := by
    have h := skipBlanks_append blank []
    rwa [List.append_nil] at h
  have fuel : 2 * (renderAt l 0 x).toList.length ≤
      2 * ((renderAt l 0 x).toList ++ blanks.toList).length + 2 := by
    rw [List.length_append]
    omega
  obtain ⟨r, read, skip⟩ := reads_render h l 0 fuel (apart_of_blank blank)
  rw [none_left] at skip
  rw [read?, render, String.toList_append]
  simp only [read, skip, if_true]

end Lineage
