import Lineage.Proofs.Path

/-!
Joined paths. A text that is joined to a path goes on where the path ends. If it is a name and the path
is normal, the result is normal again, has the path for its parent, and is spelled by the segments of
the path and the name.
-/
namespace Lineage.Path

open Component (IsName)

variable {p : Path} {r s : String}

/-! ### Any text joined to any path -/

theorem segments_append_slash (s r : String) :
    segments ⟨s ++ "/" ++ r⟩ = segments ⟨s⟩ ++ segments ⟨r⟩ := by
  simp only [segments, pieces, splitAtChar_eq_splitOn, String.toList_append]
  rw [List.append_assoc, show "/".toList = ['/'] from rfl, List.singleton_append,
    List.splitOn_append_cons_self, List.map_append]

theorem body_append_slash (s r : String) : body ⟨s ++ "/" ++ r⟩ = body ⟨s⟩ ++ body ⟨r⟩ := by
  rw [body, segments_append_slash, List.filter_append, List.map_append]
  rfl

theorem segments_of_whole (whole : '/' ∉ s.toList) : segments ⟨s⟩ = [s] := by
  have alone : pieces '/' ((String.singleton '/').intercalate [s]) = [s] :=
    pieces_intercalate (List.cons_ne_nil s []) (by simpa using whole)
  rwa [String.intercalate_singleton] at alone

theorem isAbsolute_append (ne : s ≠ "") (r : String) : isAbsolute ⟨s ++ r⟩ = isAbsolute ⟨s⟩ := by
  have chars : s.toList ≠ [] := fun empty => ne (String.toList_inj.mp empty)
  obtain ⟨c, cs, spell⟩ := List.exists_cons_of_ne_nil chars
  rw [isAbsolute, isAbsolute, String.toList_append, spell]
  rfl

/-- A relative text stands for itself after the empty path, and behind a slash after any other. -/
theorem join_cases (p : Path) (relative : isAbsolute ⟨r⟩ = false) :
    (p.text = "" ∧ p.join r = ⟨r⟩) ∨
      ∃ u, p.join r = ⟨u ++ "/" ++ r⟩ ∧ (p.text = u ∧ u ≠ "" ∨ p.text = u ++ "/") := by
  rw [join, relative, if_neg Bool.false_ne_true]
  by_cases empty : p.text = ""
  · exact .inl ⟨empty, by rw [if_pos (.inl empty), empty, String.empty_append]⟩
  refine .inr ?_
  by_cases slash : p.text.toList.getLast? = some '/'
  · obtain ⟨outer, ends⟩ := List.getLast?_eq_some_iff.mp slash
    have ends : p.text = String.ofList outer ++ "/" := String.toList_inj.mp (by simpa using ends)
    exact ⟨String.ofList outer, by rw [if_pos (.inr slash), ends], .inr ends⟩
  · exact ⟨p.text, if_neg (not_or.mpr ⟨empty, slash⟩), .inl ⟨rfl, empty⟩⟩

theorem body_join (relative : isAbsolute ⟨r⟩ = false) : (p.join r).body = p.body ++ body ⟨r⟩ := by
  have spell : p.body = body ⟨p.text⟩ := rfl
  have nothing : body ⟨""⟩ = [] := rfl
  rcases p.join_cases relative with ⟨empty, joined⟩ | ⟨u, joined, ⟨text, -⟩ | text⟩
  · rw [joined, spell, empty, nothing, List.nil_append]
  · rw [joined, spell, text, body_append_slash]
  · have trailing := body_append_slash u ""
    rw [String.append_empty, nothing, List.append_nil] at trailing
    rw [joined, spell, text, body_append_slash, trailing]

theorem isAbsolute_join (relative : isAbsolute ⟨r⟩ = false) :
    (p.join r).isAbsolute = p.isAbsolute := by
  have spell : p.isAbsolute = isAbsolute ⟨p.text⟩ := rfl
  rcases p.join_cases relative with ⟨empty, joined⟩ | ⟨u, joined, ⟨text, ne⟩ | text⟩
  · rw [joined, relative, spell, empty]
    rfl
  · rw [joined, spell, text, String.append_assoc, isAbsolute_append ne]
  · have ne : u ++ "/" ≠ "" := by simp
    rw [joined, spell, text, isAbsolute_append ne]

/-! ### Normal paths -/

/-- The components of a normal path after the root, if it starts there. -/
def stem (p : Path) : List Component :=
  List.replicate (p.trail.climb % 2) .up ++ p.trail.below.reverse.map .name

theorem spelled_stem (p : Path) : Spelled p.stem :=
  spelled_normal _ fun s hs => isName_of_mem_below p s (List.mem_reverse.mp hs)

theorem components_of_normal (normal : p.normalize = p) :
    p.components = (if p.isAbsolute then [.root] else []) ++ p.stem := by
  have h := components_normalize p
  rwa [normal, normalStack_reverse] at h

theorem ofComponents_spelled {cs : List Component} (h : Spelled cs) (absolute : Bool) :
    ofComponents ((if absolute then [.root] else []) ++ cs) =
      ⟨(if absolute then "/" else "") ++ "/".intercalate (cs.map Component.text)⟩ := by
  cases absolute with
  | true => rfl
  | false =>
      cases cs with
      | nil => rfl
      | cons c rest =>
          cases c with
          | root => exact absurd (h.back .root (by simp)) (ofSegment_ne_root _)
          | here | up | name _ => simp [ofComponents]

theorem text_of_normal (normal : p.normalize = p) :
    p.text = (if p.isAbsolute then "/" else "") ++ "/".intercalate (p.stem.map Component.text) := by
  have spell := ofComponents_spelled (spelled_stem p) p.isAbsolute
  rw [stem, ← normalStack_reverse, ← normalize_eq, normal] at spell
  exact congrArg text spell

theorem spelled_snoc {cs : List Component} (h : Spelled cs) (hs : IsName s) :
    Spelled (cs ++ [.name s]) := by
  have cases {P : Component → Prop} (hcs : ∀ c ∈ cs, P c) (hname : P (.name s)) :
      ∀ c ∈ cs ++ [.name s], P c := by
    intro c hc
    rcases List.mem_append.mp hc with hc | hc
    · exact hcs c hc
    · rw [List.mem_singleton.mp hc]
      exact hname
  exact ⟨cases h.nontrivial hs.nontrivial, cases h.whole hs.whole, cases h.back (if_neg hs.down)⟩

/-! ### Spelling -/

theorem intercalate_snoc {items : List String} (ne : items ≠ []) (t : String) :
    "/".intercalate (items ++ [t]) = "/".intercalate items ++ "/" ++ t := by
  rw [String.intercalate_append_of_ne_nil ne (List.cons_ne_nil _ _), String.intercalate_singleton]

/-- The text of components below a start ends in that of the last one. -/
theorem intercalate_ends {cs : List Component} (h : Spelled cs) (ne : cs ≠ []) (init : String) :
    ∃ before last, init ++ "/".intercalate (cs.map Component.text) = before ++ last ∧
      last ≠ "" ∧ '/' ∉ last.toList := by
  obtain ⟨outer, c, rfl⟩ := List.eq_nil_or_concat cs |>.resolve_left ne
  have hc : c ∈ outer.concat c := by simp
  have some : c.text ≠ "" := by
    intro he
    have nontrivial := h.nontrivial c hc
    rw [he] at nontrivial
    cases nontrivial
  by_cases first : outer = []
  · exact ⟨init, c.text, by simp [first], some, h.whole c hc⟩
  · refine ⟨init ++ "/".intercalate (outer.map Component.text) ++ "/", c.text, ?_, some,
      h.whole c hc⟩
    rw [List.concat_eq_append, List.map_append, List.map_singleton,
      intercalate_snoc (by simpa using first)]
    simp only [String.append_assoc]

/-- A text that ends in one without a slash is not empty, and does not end in a slash. -/
theorem not_open (init : String) (some : s ≠ "") (whole : '/' ∉ s.toList) :
    ¬ (init ++ s = "" ∨ (init ++ s).toList.getLast? = Option.some '/') := by
  rintro (empty | slash)
  · exact some (String.append_eq_empty_iff.mp empty).2
  · have chars : s.toList ≠ [] := fun empty => some (String.toList_inj.mp (by simpa using empty))
    rw [String.toList_append, List.getLast?_append, List.getLast?_eq_some_getLast chars,
      Option.some_or] at slash
    exact whole (Option.some.inj slash ▸ List.getLast_mem chars)

theorem isAbsolute_of_whole (whole : '/' ∉ s.toList) : isAbsolute ⟨s⟩ = false := by
  rw [isAbsolute, beq_eq_false_iff_ne]
  exact fun he => whole (List.mem_of_head? he)

theorem join_of_normal (normal : p.normalize = p) (hs : IsName s) :
    p.join s = ofComponents (p.components ++ [.name s]) := by
  have text := text_of_normal normal
  rw [components_of_normal normal, List.append_assoc,
    ofComponents_spelled (spelled_snoc (spelled_stem p) hs), join, isAbsolute_of_whole hs.whole,
    if_neg Bool.false_ne_true, List.map_append, List.map_singleton]
  by_cases empty : p.stem = []
  · rw [empty] at text ⊢
    cases ha : p.isAbsolute <;> simp [text, ha, Component.text]
  · obtain ⟨before, last, ends, some, whole⟩ :=
      intercalate_ends (spelled_stem p) empty (if p.isAbsolute then "/" else "")
    rw [← text] at ends
    have open_ : ¬ (p.text = "" ∨ p.text.toList.getLast? = Option.some '/') :=
      ends ▸ not_open before some whole
    rw [if_neg open_, intercalate_snoc (by simpa using empty), text]
    simp only [String.append_assoc]
    rfl

/-! ### The joined path -/

theorem components_join (normal : p.normalize = p) (hs : IsName s) :
    (p.join s).components = p.components ++ [.name s] := by
  have spelled := components_ofComponents (spelled_snoc (spelled_stem p) hs)
  rw [join_of_normal normal hs, components_of_normal normal]
  cases p.isAbsolute with
  | true => exact spelled.1
  | false => exact spelled.2

theorem normalize_join (normal : p.normalize = p) (hs : IsName s) :
    (p.join s).normalize = p.join s := by
  have fold : p.components.foldl foldComponent [] = p.components.reverse := by
    have h := components_normalize p
    rw [normal] at h
    rw [h, foldl_normalStack, List.reverse_reverse]
  have name (out : List Component) : foldComponent out (.name s) = .name s :: out := by
    cases out <;> rfl
  rw [normalize, components_join normal hs, List.foldl_append, fold, List.foldl_cons, name,
    List.foldl_nil, List.reverse_cons, List.reverse_reverse, ← join_of_normal normal hs]

/-- Two texts joined one after the other are joined at once with a slash between them. -/
theorem join_join (p : Path) (hs : IsName s) (relative : isAbsolute ⟨r⟩ = false) :
    (p.join s).join r = p.join (s ++ "/" ++ r) := by
  have some : s ≠ "" := by
    rintro rfl
    cases hs.nontrivial
  have ends (init : String) := not_open init some hs.whole
  have both : isAbsolute ⟨s ++ "/" ++ r⟩ = false := by
    rw [String.append_assoc, isAbsolute_append some, isAbsolute_of_whole hs.whole]
  rw [join, join, join, relative, both, isAbsolute_of_whole hs.whole]
  simp only [Bool.false_eq_true, if_false]
  by_cases open_ : p.text = "" ∨ p.text.toList.getLast? = Option.some '/'
  · rw [if_pos open_, if_pos open_, if_neg (ends p.text)]
    simp only [String.append_assoc]
  · rw [if_neg open_, if_neg open_, if_neg (ends (p.text ++ "/"))]
    simp only [String.append_assoc]

theorem join_ne (normal : p.normalize = p) (hs : IsName s) : p.join s ≠ p := by
  intro he
  have length := congrArg List.length (components_join normal hs)
  rw [he, List.length_append, List.length_singleton] at length
  omega

theorem isAbsolute_iff_root (p : Path) : p.isAbsolute = true ↔ .root ∈ p.components := by
  have body : Component.root ∉ p.body := fun h => body_ne_root p _ h rfl
  rcases components_cases p with ⟨ha, h⟩ | ⟨ha, h | h⟩ <;> simp [ha, h, body]

/-- The segments of a normal path that lead to the names joined to it. -/
def trunk (p : Path) : List String :=
  (if p.isAbsolute then [""] else []) ++ p.stem.map Component.text

theorem segments_root (absolute : Bool) (t : String) :
    segments ⟨(if absolute then "/" else "") ++ t⟩ =
      (if absolute then [""] else []) ++ segments ⟨t⟩ := by
  cases absolute with
  | true => exact segments_slash t
  | false => simp

theorem segments_of_normal (normal : p.normalize = p) :
    p.segments = p.trunk ∨ p.segments = p.trunk ++ [""] := by
  have h : p.segments = segments ⟨p.text⟩ := rfl
  rw [text_of_normal normal, segments_root] at h
  rw [h, trunk]
  by_cases empty : p.stem = []
  · exact .inr (by simp [empty, segments, pieces, splitAtChar])
  · exact .inl (by rw [segments_intercalate (spelled_stem p) empty])

theorem segments_join (normal : p.normalize = p) (hs : IsName s) :
    (p.join s).segments = p.trunk ++ [s] := by
  have spelled := spelled_snoc (spelled_stem p) hs
  rw [join_of_normal normal hs, components_of_normal normal, List.append_assoc,
    ofComponents_spelled spelled, segments_root, segments_intercalate spelled (by simp), trunk,
    List.map_append, List.append_assoc]
  rfl

theorem dropTrivialEnd_snoc (segs : List String) (hs : trivialSegment s = false) :
    dropTrivialEnd (segs ++ [s]) = segs ++ [s] := by
  simp [dropTrivialEnd, hs]

theorem dropTrivialEnd_spelled {cs : List Component} (h : Spelled cs) :
    dropTrivialEnd (cs.map Component.text) = cs.map Component.text := by
  rcases List.eq_nil_or_concat cs with rfl | ⟨outer, c, rfl⟩
  · rfl
  · rw [List.concat_eq_append, List.map_append, List.map_singleton]
    exact dropTrivialEnd_snoc _ (h.nontrivial c (by simp))

theorem parent?_join (normal : p.normalize = p) (hs : IsName s) : (p.join s).parent? = some p := by
  have kept := dropTrivialEnd_snoc (p.stem.map Component.text) hs.nontrivial
  have inner := dropTrivialEnd_spelled (spelled_stem p)
  obtain ⟨first, rest, cons⟩ := List.exists_cons_of_ne_nil
    (show p.stem.map Component.text ++ [s] ≠ [] by simp)
  have text := text_of_normal normal
  simp only [parent?, isAbsolute_join (isAbsolute_of_whole hs.whole), segments_join normal hs, trunk]
  cases ha : p.isAbsolute with
  | true =>
      rw [ha, if_pos rfl] at text
      simp only [if_true, List.cons_append, List.tail_cons, List.nil_append, kept]
      rw [cons]
      dsimp only
      rw [← cons, List.dropLast_concat, inner, ← text]
  | false =>
      have nontrivial : first ≠ "." := by
        have mem : first ∈ (p.stem ++ [Component.name s]).map Component.text := by
          rw [List.map_append, List.map_singleton]
          exact cons ▸ List.mem_cons_self
        obtain ⟨c, hc, rfl⟩ := List.mem_map.mp mem
        intro he
        have h := (spelled_snoc (spelled_stem p) hs).nontrivial c hc
        rw [he] at h
        cases h
      rw [ha, if_neg Bool.false_ne_true, String.empty_append] at text
      simp only [Bool.false_eq_true, if_false, List.nil_append, kept]
      rw [cons, if_neg (by simpa using nontrivial)]
      dsimp only
      rw [← cons, List.dropLast_concat, inner, ← text]

end Lineage.Path
