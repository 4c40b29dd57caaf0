import Lineage.Path
import Lineage.Proofs.Text

/-!
Normal paths. A path read component by component climbs some way above its start and goes down some
names from there. Normalizing keeps the names and what remains of the climb when steps up are taken
away in pairs, and spells that out; a spelled path is read back as it was meant.
-/
namespace Lineage

/-- A name that a component can have. -/
structure Component.IsName (s : String) : Prop where
  nontrivial : trivialSegment s = false
  down : s ≠ ".."
  whole : '/' ∉ s.toList

/-- Where components lead from a start: so often above it, and then down some names, the innermost
of which comes first. -/
@[ext]
structure Trail where
  climb : Nat := 0
  below : List String := []
deriving DecidableEq, Repr

namespace Trail

/-- A step up takes away the name before it, and climbs if there is none. -/
def step (t : Trail) : Component → Trail
  | .up =>
    match t.below with
    | [] => { t with climb := t.climb + 1 }
    | _ :: outer => { t with below := outer }
  | .name s => { t with below := s :: t.below }
  | .here | .root => t

end Trail

namespace Path

def trail (p : Path) : Trail := p.components.foldl Trail.step {}

/-- The directory that a path denotes by its letters alone: at the root there is nowhere to climb. -/
def directory (p : Path) : Bool × Trail :=
  (p.isAbsolute, if p.isAbsolute then { p.trail with climb := 0 } else p.trail)

/-- The components that a normal path has, last ones first. -/
def normalStack (absolute : Bool) (t : Trail) : List Component :=
  t.below.map .name ++ (List.replicate (t.climb % 2) .up ++ if absolute then [.root] else [])

/-! ### Folding -/

theorem foldComponent_up (absolute : Bool) (t : Trail) :
    foldComponent (normalStack absolute t) .up = normalStack absolute (t.step .up) := by
  obtain ⟨climb, below⟩ := t
  cases below with
  | cons s outer =>
      have fold (out : List Component) : foldComponent (.name s :: out) .up = out := by
        cases out <;> rfl
      exact fold _
  | nil =>
      rcases Nat.mod_two_eq_zero_or_one climb with h | h
      · have odd : (climb + 1) % 2 = 1 := by omega
        cases absolute <;> simp [normalStack, Trail.step, foldComponent, h, odd]
      · have even : (climb + 1) % 2 = 0 := by omega
        cases absolute <;> simp [normalStack, Trail.step, foldComponent, h, even]

theorem foldComponent_step (absolute : Bool) (t : Trail) {c : Component} (h : c ≠ .root) :
    foldComponent (normalStack absolute t) c = normalStack absolute (t.step c) := by
  cases c with
  | root => exact absurd rfl h
  | here => simp [foldComponent, Trail.step]
  | up => exact foldComponent_up absolute t
  | name s => rfl

theorem foldl_foldComponent (absolute : Bool) (t : Trail) {cs : List Component}
    (h : ∀ c ∈ cs, c ≠ .root) :
    cs.foldl foldComponent (normalStack absolute t) = normalStack absolute (cs.foldl Trail.step t) := by
  induction cs generalizing t with
  | nil => rfl
  | cons c cs ih =>
      obtain ⟨hc, hcs⟩ := List.forall_mem_cons.mp h
      rw [List.foldl_cons, foldComponent_step absolute t hc, ih _ hcs, List.foldl_cons]

/-! ### Components -/

/-- The components of a path after the root, if it starts there. -/
def body (p : Path) : List Component :=
  (p.segments.filter fun s => !trivialSegment s).map Component.ofSegment

theorem components_cases (p : Path) :
    (p.isAbsolute = true ∧ p.components = .root :: p.body) ∨
      (p.isAbsolute = false ∧ (p.components = .here :: p.body ∨ p.components = p.body)) := by
  rw [components]
  cases p.isAbsolute with
  | true => exact .inl ⟨rfl, rfl⟩
  | false =>
      refine .inr ⟨rfl, ?_⟩
      by_cases h : p.segments.head? = some "."
      · exact .inl (by simp [h, body])
      · exact .inr (by simp [h, body])

theorem ofSegment_ne_root (s : String) : Component.ofSegment s ≠ .root := by
  rw [Component.ofSegment]
  split <;> exact Component.noConfusion

theorem body_ne_root (p : Path) : ∀ c ∈ p.body, c ≠ .root := by
  intro c hc
  obtain ⟨s, -, rfl⟩ := List.mem_map.mp hc
  exact ofSegment_ne_root s

theorem trail_eq (p : Path) : p.trail = p.body.foldl Trail.step {} := by
  rcases p.components_cases with ⟨-, h⟩ | ⟨-, h | h⟩ <;> rw [trail, h] <;> rfl

/-- A normal path has the names of the path, and a step up before them if it climbs an odd number of
times. -/
theorem normalize_eq (p : Path) :
    p.normalize = ofComponents (normalStack p.isAbsolute p.trail).reverse := by
  have fold (absolute : Bool) := foldl_foldComponent absolute {} p.body_ne_root
  rw [← trail_eq] at fold
  rw [normalize]
  congr 2
  rcases p.components_cases with ⟨ha, h⟩ | ⟨ha, h | h⟩ <;> rw [h, ha]
  · exact fold true
  · exact fold false
  · exact fold false

/-! ### Spelling -/

theorem isName_of_mem_segments {p : Path} {s : String} (hs : s ∈ p.segments)
    (nontrivial : trivialSegment s = false) (down : s ≠ "..") : Component.IsName s :=
  ⟨nontrivial, down, not_mem_of_mem_pieces hs⟩

theorem isName_of_mem_below (p : Path) : ∀ s ∈ p.trail.below, Component.IsName s := by
  have names : ∀ s, Component.name s ∈ p.body → Component.IsName s := by
    intro s hs
    obtain ⟨segment, hsegment, he⟩ := List.mem_map.mp hs
    obtain ⟨hmem, hnontrivial⟩ := List.mem_filter.mp hsegment
    rw [Component.ofSegment] at he
    split at he
    · cases he
    · rename_i hdown
      cases he
      exact isName_of_mem_segments hmem (by simpa using hnontrivial) hdown
  have kept (cs : List Component) (t : Trail) (hcs : ∀ s, Component.name s ∈ cs → Component.IsName s)
      (ht : ∀ s ∈ t.below, Component.IsName s) :
      ∀ s ∈ (cs.foldl Trail.step t).below, Component.IsName s := by
    induction cs generalizing t with
    | nil => exact ht
    | cons c cs ih =>
        refine ih _ (fun s hs => hcs s (List.mem_cons_of_mem _ hs)) fun s hs => ?_
        cases c with
        | root | here => exact ht s hs
        | name n =>
            rcases List.mem_cons.mp hs with rfl | hs
            · exact hcs s List.mem_cons_self
            · exact ht s hs
        | up =>
            obtain ⟨climb, below⟩ := t
            cases below with
            | nil => cases hs
            | cons n outer => exact ht s (List.mem_cons_of_mem _ hs)
  rw [trail_eq]
  exact kept _ _ names (by simp)

/-- Components below a start, as a normal path has them: each is spelled by a segment of its own. -/
structure Spelled (cs : List Component) : Prop where
  nontrivial : ∀ c ∈ cs, trivialSegment c.text = false
  whole : ∀ c ∈ cs, '/' ∉ c.text.toList
  back : ∀ c ∈ cs, Component.ofSegment c.text = c

theorem spelled_normal (climb : Nat) {names : List String} (h : ∀ s ∈ names, Component.IsName s) :
    Spelled (List.replicate climb .up ++ names.map .name) := by
  have cases {P : Component → Prop} (up : P .up) (name : ∀ s, Component.IsName s → P (.name s)) :
      ∀ c ∈ List.replicate climb .up ++ names.map .name, P c := by
    intro c hc
    rcases List.mem_append.mp hc with hc | hc
    · rw [List.eq_of_mem_replicate hc]
      exact up
    · obtain ⟨s, hs, rfl⟩ := List.mem_map.mp hc
      exact name s (h s hs)
  refine ⟨cases (by decide) fun s hs => hs.nontrivial, cases (by decide) fun s hs => hs.whole, ?_⟩
  exact cases (by decide) fun s hs => if_neg hs.down

theorem segments_slash (s : String) : segments ⟨"/" ++ s⟩ = "" :: segments ⟨s⟩ := by
  simp [segments, pieces, splitAtChar]

theorem segments_of_isAbsolute {p : Path} (h : p.isAbsolute = true) :
    p.segments.head? = some "" := by
  rw [isAbsolute, beq_iff_eq] at h
  rw [segments, pieces]
  cases ht : p.text.toList with
  | nil => simp [ht] at h
  | cons c cs =>
      obtain rfl : c = '/' := by simpa [ht] using h
      simp [splitAtChar]

theorem segments_intercalate {cs : List Component} (h : Spelled cs) (ne : cs ≠ []) :
    segments ⟨"/".intercalate (cs.map Component.text)⟩ = cs.map Component.text := by
  refine pieces_intercalate (by simpa using ne) fun item hi => ?_
  obtain ⟨c, hc, rfl⟩ := List.mem_map.mp hi
  exact h.whole c hc

theorem body_intercalate {cs : List Component} (h : Spelled cs) :
    body ⟨"/".intercalate (cs.map Component.text)⟩ = cs := by
  by_cases ne : cs = []
  · subst ne
    rfl
  · have keep : ∀ s ∈ cs.map Component.text, (!trivialSegment s) = true := by
      intro s hs
      obtain ⟨c, hc, rfl⟩ := List.mem_map.mp hs
      simp [h.nontrivial c hc]
    rw [body, segments_intercalate h ne, List.filter_eq_self.mpr keep, List.map_map]
    exact (List.map_congr_left h.back).trans (List.map_id cs)

theorem head_intercalate {cs : List Component} (h : Spelled cs) {s : String}
    (hs : trivialSegment s = true) (ne : cs ≠ []) :
    (segments ⟨"/".intercalate (cs.map Component.text)⟩).head? ≠ some s := by
  rw [segments_intercalate h ne, List.head?_map]
  intro he
  obtain ⟨c, hc, rfl⟩ := Option.map_eq_some_iff.mp he
  rw [h.nontrivial c (List.mem_of_mem_head? hc)] at hs
  cases hs

theorem relative_intercalate {cs : List Component} (h : Spelled cs) :
    isAbsolute ⟨"/".intercalate (cs.map Component.text)⟩ = false := by
  by_cases ne : cs = []
  · subst ne
    rfl
  · apply Bool.eq_false_iff.mpr
    intro ha
    exact head_intercalate h (by decide) ne (segments_of_isAbsolute ha)

theorem components_ofComponents {cs : List Component} (h : Spelled cs) :
    (ofComponents (.root :: cs)).components = .root :: cs ∧ (ofComponents cs).components = cs := by
  constructor
  · have ha : isAbsolute ⟨"/" ++ "/".intercalate (cs.map Component.text)⟩ = true := by
      simp [isAbsolute]
    have hb : body ⟨"/" ++ "/".intercalate (cs.map Component.text)⟩ = cs := by
      rw [body, segments_slash]
      exact body_intercalate h
    rw [ofComponents]
    rcases components_cases ⟨"/" ++ "/".intercalate (cs.map Component.text)⟩ with ⟨-, hc⟩ | ⟨hn, -⟩
    · rw [hc, hb]
    · rw [ha] at hn
      cases hn
  · have spell : ofComponents cs = ⟨"/".intercalate (cs.map Component.text)⟩ := by
      cases cs with
      | nil => rfl
      | cons c rest =>
          cases c with
          | root => exact absurd (h.back .root (by simp)) (ofSegment_ne_root _)
          | here | up | name _ => rfl
    rw [spell, components, relative_intercalate h, if_neg (by simp)]
    have here : (segments ⟨"/".intercalate (cs.map Component.text)⟩).head? ≠ some "." := by
      by_cases ne : cs = []
      · subst ne
        decide
      · exact head_intercalate h (by decide) ne
    rw [if_neg here]
    exact body_intercalate h

theorem normalStack_reverse (absolute : Bool) (t : Trail) :
    (normalStack absolute t).reverse = (if absolute then [.root] else []) ++
      (List.replicate (t.climb % 2) .up ++ t.below.reverse.map .name) := by
  cases absolute <;> simp [normalStack]

/-- A normal path is read back as the components that it was made of. -/
theorem components_normalize (p : Path) :
    p.normalize.components = (normalStack p.isAbsolute p.trail).reverse := by
  have spelled := spelled_normal (p.trail.climb % 2)
    (show ∀ s ∈ p.trail.below.reverse, Component.IsName s from
      fun s hs => isName_of_mem_below p s (List.mem_reverse.mp hs))
  rw [normalize_eq, normalStack_reverse]
  cases p.isAbsolute with
  | true => exact (components_ofComponents spelled).1
  | false => exact (components_ofComponents spelled).2

/-! ### Normal forms -/

theorem foldl_step_up (n climb : Nat) :
    (List.replicate n Component.up).foldl Trail.step ⟨climb, []⟩ = ⟨climb + n, []⟩ := by
  induction n generalizing climb with
  | zero => rfl
  | succ n ih =>
      rw [List.replicate_succ, List.foldl_cons]
      exact (ih (climb + 1)).trans (by rw [Nat.add_right_comm, Nat.add_assoc])

theorem foldl_step_names (names : List String) (climb : Nat) :
    (names.reverse.map Component.name).foldl Trail.step ⟨climb, []⟩ = ⟨climb, names⟩ := by
  induction names with
  | nil => rfl
  | cons s names ih =>
      rw [List.reverse_cons, List.map_append, List.foldl_append, ih]
      rfl

theorem foldl_normalStack (absolute : Bool) (t : Trail) :
    (normalStack absolute t).reverse.foldl foldComponent [] = normalStack absolute t := by
  have trail : (List.replicate (t.climb % 2) Component.up
      ++ t.below.reverse.map Component.name).foldl Trail.step {} = ⟨t.climb % 2, t.below⟩ := by
    rw [List.foldl_append, foldl_step_up, Nat.zero_add, foldl_step_names]
  have same : normalStack absolute ⟨t.climb % 2, t.below⟩ = normalStack absolute t := by
    rw [normalStack, normalStack, Nat.mod_mod]
  have start : (if absolute then [Component.root] else []).foldl foldComponent []
      = normalStack absolute {} := by
    cases absolute <;> rfl
  rw [normalStack_reverse, List.foldl_append, start, foldl_foldComponent, trail, same]
  intro c hc he
  subst he
  simp at hc

/-- Normalizing a normal path changes nothing. -/
theorem normalize_normalize (p : Path) : p.normalize.normalize = p.normalize := by
  rw [normalize, components_normalize, foldl_normalStack, ← normalize_eq]

/-- Normal paths with the same components have the same spelling. -/
theorem eq_of_components {p q : Path} (hp : p.normalize = p) (hq : q.normalize = q)
    (h : p.components = q.components) : p = q := by
  rw [← hp, ← hq, normalize, h, ← normalize]

/-- The name of a component, if it is one. -/
def nameOf? : Component → Option String
  | .name s => some s
  | _ => none

theorem filterMap_normalStack (absolute : Bool) (t : Trail) :
    (normalStack absolute t).filterMap nameOf? = t.below := by
  have name : nameOf? ∘ Component.name = some := by
    funext s
    rfl
  cases absolute <;> simp [normalStack, name, nameOf?]

theorem count_up_normalStack (absolute : Bool) (t : Trail) :
    (normalStack absolute t).count .up = t.climb % 2 := by
  have names : (t.below.map Component.name).count .up = 0 := by
    simp [List.count_eq_zero]
  cases absolute <;> simp [normalStack, names]

theorem root_mem_normalStack (absolute : Bool) (t : Trail) :
    .root ∈ normalStack absolute t ↔ absolute = true := by
  cases absolute <;> simp [normalStack]

theorem normalStack_inj {a b : Bool} {t u : Trail} :
    normalStack a t = normalStack b u ↔
      a = b ∧ t.climb % 2 = u.climb % 2 ∧ t.below = u.below := by
  constructor
  · intro h
    refine ⟨?_, ?_, ?_⟩
    · rw [Bool.eq_iff_iff, ← root_mem_normalStack a t, h, root_mem_normalStack]
    · rw [← count_up_normalStack a t, h, count_up_normalStack]
    · rw [← filterMap_normalStack a t, h, filterMap_normalStack]
  · rintro ⟨rfl, hclimb, hbelow⟩
    rw [normalStack, normalStack, hclimb, hbelow]

/-! ### Which paths have one normal form -/

/-- Two paths have one normal form if they start in one place, go down the same names, and climb
both an even or both an odd number of times. -/
theorem normalize_eq_iff (p q : Path) : p.normalize = q.normalize ↔
    p.isAbsolute = q.isAbsolute ∧ p.trail.climb % 2 = q.trail.climb % 2 ∧
      p.trail.below = q.trail.below := by
  constructor
  · intro h
    have hc := congrArg components h
    rw [components_normalize, components_normalize] at hc
    exact normalStack_inj.mp (List.reverse_inj.mp hc)
  · intro h
    rw [normalize_eq, normalize_eq, normalStack_inj.mpr h]

/-- A path that does not climb from the root, and at most once from anywhere else. -/
def Shallow (p : Path) : Prop := p.trail.climb ≤ if p.isAbsolute then 0 else 1

theorem directory_eq_iff {p q : Path} (h : p.isAbsolute = q.isAbsolute) (hp : p.Shallow)
    (hq : q.Shallow) : p.directory = q.directory ↔
      p.trail.climb % 2 = q.trail.climb % 2 ∧ p.trail.below = q.trail.below := by
  rw [Shallow] at hp hq
  rw [directory, directory, ← h]
  rw [← h] at hq
  cases ha : p.isAbsolute with
  | true =>
      rw [ha, if_pos rfl] at hp hq
      simp [Nat.le_zero.mp hp, Nat.le_zero.mp hq]
  | false =>
      rw [ha, if_neg (by simp)] at hp hq
      have hclimb : p.trail.climb % 2 = q.trail.climb % 2 ↔ p.trail.climb = q.trail.climb := by
        omega
      rw [hclimb]
      simp [Trail.ext_iff]

/-- Of paths that start in one place, those have one normal form that go down the same names and
climb both an even or both an odd number of times. As long as they climb one step at most, and none
from the root, these are the paths of one directory. -/
theorem normalize_names_directory (p q : Path) (h : p.isAbsolute = q.isAbsolute) :
    (p.normalize = q.normalize ↔
      p.trail.climb % 2 = q.trail.climb % 2 ∧ p.trail.below = q.trail.below) ∧
    (p.Shallow → q.Shallow → (p.normalize = q.normalize ↔ p.directory = q.directory)) := by
  have forms := (normalize_eq_iff p q).trans (and_iff_right h)
  exact ⟨forms, fun hp hq => forms.trans (directory_eq_iff h hp hq).symm⟩

theorem shallow_paths_agree :
    isAbsolute ⟨"a/../../b/./c"⟩ = isAbsolute ⟨"../b/d/../c/"⟩ ∧ Shallow ⟨"a/../../b/./c"⟩ ∧
      Shallow ⟨"../b/d/../c/"⟩ ∧ normalize ⟨"a/../../b/./c"⟩ = normalize ⟨"../b/d/../c/"⟩ := by
  have absolute : isAbsolute ⟨"a/../../b/./c"⟩ = isAbsolute ⟨"../b/d/../c/"⟩ := by decide
  have left : Shallow ⟨"a/../../b/./c"⟩ := by
    rw [Shallow]
    decide
  have right : Shallow ⟨"../b/d/../c/"⟩ := by
    rw [Shallow]
    decide
  have iff := (normalize_names_directory _ _ absolute).2 left right
  exact ⟨absolute, left, right, iff.mpr (by decide)⟩

/-- Two steps up from the start are folded into none, and one step up at the root is kept. -/
theorem normalize_joins_and_splits_directories :
    (normalize ⟨"../../x"⟩ = normalize ⟨"x"⟩ ∧ directory ⟨"../../x"⟩ ≠ directory ⟨"x"⟩) ∧
      normalize ⟨"/.."⟩ ≠ normalize ⟨"/"⟩ ∧ directory ⟨"/.."⟩ = directory ⟨"/"⟩ := by
  decide

end Path
end Lineage
