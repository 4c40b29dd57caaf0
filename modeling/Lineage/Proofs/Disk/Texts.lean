import Lineage.Proofs.Disk.Replace

/-!
The text of a document through writes that are refused midway. Up to where it is refused, a write has
made directories, and a file beside the document. On a disk that is a tree neither of these is where
a document was, nor do they open the way to one.
-/
namespace Lineage.Disk

open Component (IsName)

variable {d d' d'' : Disk} {dir doc : Location} {p : Path} {name : String}

/-- The text at a path, if there is a file. -/
def text? (d : Disk) (p : Path) : Option String := (d.read p).toOption

theorem text?_eq_some_iff {text : String} : d.text? p = some text ↔ d.stat p = .ok (.file text) := by
  rw [text?, read]
  cases d.stat p with
  | error e => simp [bind, Except.bind, Except.toOption]
  | ok node => cases node <;> simp [bind, Except.bind, Except.toOption]

/-- A text at a name is that of a file in the directory that the path leads to. -/
theorem text?_join_eq_some_iff (normal : p.normalize = p) (hn : IsName name) {text : String} :
    d.text? (p.join name) = some text ↔ checkText (p.join name) = .ok () ∧ ∃ dir, d.Leads p dir ∧
      checkName dir name = .ok () ∧ d.node? (dir ++ [name]) = some (.file text) := by
  rw [text?_eq_some_iff]
  constructor
  · intro found
    obtain ⟨loc, located, -⟩ := stat_eq_ok_iff.mp found
    obtain ⟨_, -, walk⟩ := bind_eq_ok.mp located
    obtain ⟨dir, leads, -, -⟩ := leads_of_walk normal hn walk
    obtain ⟨spelled, check, there⟩ := stat_join_ok normal hn leads found
    exact ⟨spelled, dir, leads, check, there⟩
  · rintro ⟨spelled, dir, leads, check, there⟩
    exact stat_join normal hn leads spelled check there

/-- Where a path leads to one directory on two disks that have the same file at a name there. -/
theorem text?_congr (normal : p.normalize = p) (hn : IsName name) (h : d.Leads p dir)
    (h' : d'.Leads p dir) (same : ∀ text, d'.node? (dir ++ [name]) = some (.file text) ↔
      d.node? (dir ++ [name]) = some (.file text)) : d'.text? (p.join name) = d.text? (p.join name) := by
  refine Option.ext fun text => ?_
  rw [text?_join_eq_some_iff normal hn, text?_join_eq_some_iff normal hn]
  refine and_congr_right fun _ => ⟨?_, ?_⟩
  · rintro ⟨l, leads, check, there⟩
    obtain rfl := leads.unique h'
    exact ⟨l, h, check, (same text).mp there⟩
  · rintro ⟨l, leads, check, there⟩
    obtain rfl := leads.unique h
    exact ⟨l, h', check, (same text).mpr there⟩

/-- Changes inside a directory of another one leave the documents of that. -/
theorem Within.text? {inner : String} (normal : p.normalize = p) (hn : IsName name)
    (h : d.Leads p dir) (w : Within (dir ++ [inner]) doc d d') :
    d'.text? (p.join name) = d.text? (p.join name) := by
  have outside : ¬ Below (dir ++ [inner]) dir := fun below => absurd below.length_lt (by simp)
  refine text?_congr normal hn h (h.within normal (w.outward outside)) fun text => ?_
  rw [w.node _ (not_below_sibling dir inner name)]

/-! ### More directories -/

/-- A disk with more directories where there was nothing. -/
structure Grown (d d' : Disk) : Prop where
  cwd : d'.cwd = d.cwd
  node : ∀ loc, d'.node? loc = d.node? loc ∨ d.node? loc = none ∧ d'.node? loc = some .dir

namespace Grown

theorem refl (d : Disk) : Grown d d := ⟨rfl, fun _ => .inl rfl⟩

theorem trans (h : Grown d d') (h' : Grown d' d'') : Grown d d'' where
  cwd := h'.cwd.trans h.cwd
  node loc := by
    rcases h.node loc with same | ⟨free, made⟩
    · rw [← same]
      exact h'.node loc
    · rcases h'.node loc with same | ⟨free', -⟩
      · exact .inr ⟨free, same.trans made⟩
      · cases made.symm.trans free'

theorem isDir (h : Grown d d') (loc : Location) (there : d.node? loc = some .dir) :
    d'.node? loc = some .dir := by
  rcases h.node loc with same | ⟨free, -⟩
  · rw [same, there]
  · cases there.symm.trans free

theorem file (h : Grown d d') (loc : Location) (text : String) :
    d'.node? loc = some (.file text) ↔ d.node? loc = some (.file text) := by
  rcases h.node loc with same | ⟨free, made⟩
  · rw [same]
  · simp [free, made]

theorem start (h : Grown d d') (p : Path) : d'.start p = d.start p := by
  rw [Disk.start, Disk.start, h.cwd]

theorem leads_on (h : Grown d d') (leads : d.Leads p dir) : d'.Leads p dir where
  walk := by
    rw [h.start]
    exact walk_of_dirs h.isDir leads.walk leads.isDir
  isDir := h.isDir dir leads.isDir
  there := leads.there

/-- The documents of a directory stay when more directories are made. -/
theorem text?_of_leads (normal : p.normalize = p) (hn : IsName name) (h : Grown d d')
    (leads : d.Leads p dir) : d'.text? (p.join name) = d.text? (p.join name) :=
  text?_congr normal hn leads (h.leads_on leads) (h.file _)

end Grown

/-- A path names a place on a disk, whether or not anything is there. -/
def Names (d : Disk) (p : Path) (loc : Location) : Prop :=
  ∃ t, d.target p = .ok t ∧ t.location = loc

/-- A disk with more directories, each of which one of some paths names. -/
structure Made (paths : List Path) (d d' : Disk) : Prop extends Grown d d' where
  named : ∀ loc, d.node? loc = none → d'.node? loc = some .dir → ∃ p ∈ paths, d'.Names p loc

theorem Grown.names {loc : Location} (h : Grown d d') (named : d.Names p loc) : d'.Names p loc := by
  obtain ⟨t, target, there⟩ := named
  exact ⟨t, target_of_dirs h.isDir (h.start p) target, there⟩

namespace Made

variable {paths more : List Path}

theorem refl (paths : List Path) (d : Disk) : Made paths d d where
  toGrown := .refl d
  named loc free made := by cases free.symm.trans made

theorem trans (h : Made paths d d') (h' : Made paths d' d'') : Made paths d d'' where
  toGrown := h.toGrown.trans h'.toGrown
  named loc free made := by
    rcases h.node loc with same | ⟨-, made'⟩
    · exact h'.named loc (same.trans free) made
    · obtain ⟨p, mem, named⟩ := h.named loc free made'
      exact ⟨p, mem, h'.names named⟩

theorem mono (sub : paths ⊆ more) (h : Made paths d d') : Made more d d' where
  toGrown := h.toGrown
  named loc free made := by
    obtain ⟨p, mem, named⟩ := h.named loc free made
    exact ⟨p, sub mem, named⟩

end Made

theorem makeDir_made (made : d.makeDir p = .ok d') : Made [p] d d' := by
  obtain ⟨t, target, made⟩ := bind_eq_ok.mp made
  split at made
  · cases made
  · rename_i plain
    obtain ⟨_, -, made⟩ := bind_eq_ok.mp made
    split at made
    · cases made
    · rename_i free
      cases made
      have node (loc : Location) : (d.put t.location .dir).node? loc =
          if loc = t.location then some .dir else d.node? loc :=
        node?_put (Target.named (Bool.eq_false_iff.mpr plain)) loc
      have grown : Grown d (d.put t.location .dir) := by
        refine ⟨put_cwd d _ _, fun loc => ?_⟩
        rw [node]
        by_cases here : loc = t.location
        · rw [if_pos here, here]
          exact .inr ⟨Option.not_isSome_iff_eq_none.mp free, rfl⟩
        · exact .inl (if_neg here)
      refine ⟨grown, fun loc none_ made => ⟨p, by simp, grown.names ⟨t, target, ?_⟩⟩⟩
      by_contra other
      rw [node, if_neg (Ne.symm other), none_] at made
      cases made

theorem climb_made (pending chain : List Path) (d : Disk) :
    Made chain d (left (climb pending chain) d) := by
  induction chain generalizing pending with
  | nil => exact .refl _ d
  | cons p outer ih =>
      rw [left, climb]
      dsimp only
      cases made : d.makeDir p with
      | ok d' => exact (makeDir_made made).mono (by simp)
      | error e =>
          cases e with
          | notFound => exact (ih (p :: pending)).mono (List.subset_cons_self p outer)
          | alreadyExists => cases d.isDir p <;> simp [Made.refl]
          | _ => simp only [reduceCtorEq, false_and, if_false, Made.refl]

/-- What is still to make is on the way up. -/
theorem climb_subset {pending chain rest : List Path} (h : climb pending chain d = .ok rest d') :
    rest ⊆ pending ++ chain := by
  induction chain generalizing pending with
  | nil =>
      cases h
      simp
  | cons p outer ih =>
      rw [climb] at h
      dsimp only at h
      split at h
      · cases h
        simp
      · exact List.Subset.trans (ih h) (by simp)
      · split at h
        · cases h
          simp
        · cases h

theorem makeEach_made (chain : List Path) (d : Disk) : Made chain d (left (makeEach chain) d) := by
  induction chain generalizing d with
  | nil => exact .refl _ d
  | cons p inner ih =>
      have below (d : Disk) := (ih d).mono (List.subset_cons_self p inner)
      rw [left, makeEach]
      dsimp only
      cases made : d.makeDir p with
      | ok d' => exact ((makeDir_made made).mono (by simp)).trans (below d')
      | error e =>
          by_cases there : e = .alreadyExists ∧ d.isDir p = true
          · simp only [if_pos there]
            exact below d
          · simp only [if_neg there, Made.refl]

/-- Whether or not they are refused, directories at a path and above it are all that is made. -/
theorem makeDirs_made (p : Path) (d : Disk) : Made p.ancestors d (left (makeDirs p) d) := by
  rw [makeDirs]
  split
  · exact .refl _ d
  · have sub : (p.ancestors.takeWhile fun q => q.text ≠ "" ∧ q.parent?.isSome) ⊆ p.ancestors :=
      (List.takeWhile_sublist _).subset
    generalize (p.ancestors.takeWhile fun q => q.text ≠ "" ∧ q.parent?.isSome) = chain at sub ⊢
    have climbed := (climb_made [] chain d).mono sub
    rw [left] at climbed
    rw [left_bind]
    split at climbed
    · rename_i found
      have among := List.Subset.trans (climb_subset found) sub
      exact climbed.trans ((makeEach_made _ _).mono among)
    · exact climbed

theorem makeDirs_grown (p : Path) (d : Disk) : Grown d (left (makeDirs p) d) :=
  (makeDirs_made p d).toGrown

/-! ### Trees -/

/-- A disk that is a tree: what has a name is in a directory, and who works there is in one. -/
structure Solid (d : Disk) : Prop where
  inner : ∀ loc name, name ≠ "" → (d.node? (loc ++ [name])).isSome = true → d.node? loc = some .dir
  cwd : d.node? d.cwd = some .dir

theorem solid_of_nodes (nodes : ∀ n ∈ d.nodes, d.node? n.1.dropLast = some .dir)
    (cwd : d.node? d.cwd = some .dir) : d.Solid where
  inner loc name ne there := by
    rw [node?, if_neg (named_snoc loc ne)] at there
    obtain ⟨node, found⟩ := Option.isSome_iff_exists.mp there
    obtain ⟨l₁, l₂, split, -⟩ := List.lookup_eq_some_iff.mp found
    have above := nodes (loc ++ [name], node) (by rw [split]; simp)
    rwa [List.dropLast_concat] at above
  cwd := cwd

/-- Names that lead down to a directory on a larger disk lead there on a tree that has it. -/
theorem Solid.walk {loc : Location} {names : List String} (solid : d.Solid)
    (named : ∀ s ∈ names, IsName s) (h : d'.walk loc names = .ok dir)
    (isDir : d.node? dir = some .dir) : d.walk loc names = .ok dir := by
  induction names using List.reverseRecOn generalizing dir with
  | nil =>
      cases h
      rfl
  | append_singleton names s ih =>
      have hs := named s (by simp)
      rw [walk_append] at h ⊢
      obtain ⟨l, walked, entered⟩ := bind_eq_ok.mp h
      rw [walk_singleton] at entered
      obtain ⟨-, ⟨trivial, -⟩ | ⟨-, up, -⟩ | ⟨-, -, check, -, rfl⟩⟩ := enter_eq_ok_iff.mp entered
      · cases hs.nontrivial.symm.trans trivial
      · exact absurd up hs.down
      · have there : (d.node? (l ++ [s])).isSome = true := by rw [isDir]; rfl
        have outer := solid.inner l s (ne_empty hs) there
        rw [ih (fun s hs => named s (by simp [hs])) walked outer]
        exact (walk_singleton d l s).trans (enter_name outer hs check there)

/-- A path that leads to a directory on a larger disk leads there on a tree that has it. -/
theorem Grown.leads (normal : p.normalize = p) (solid : d.Solid) (grown : Grown d d')
    (h : d'.Leads p dir) (isDir : d.node? dir = some .dir) : d.Leads p dir := by
  refine .of_trunk normal ?_ isDir h.there
  have walk := h.trunk normal
  have named : ∀ s ∈ p.trail.below.reverse, IsName s :=
    fun s hs => Path.isName_of_mem_below p s (List.mem_reverse.mp hs)
  have down {loc : Location} (h : d'.walk loc p.trail.below.reverse = .ok dir) :=
    solid.walk named h isDir
  have up {loc : Location} (here : d.node? loc = some .dir)
      (h : d'.walk loc (List.replicate (p.trail.climb % 2) ".." ++ p.trail.below.reverse) = .ok dir) :
      d.walk loc (List.replicate (p.trail.climb % 2) ".." ++ p.trail.below.reverse) = .ok dir := by
    rcases Nat.mod_two_eq_zero_or_one p.trail.climb with hc | hc <;> rw [hc] at h ⊢
    · exact down h
    · exact walk_up.mpr ⟨here, down (walk_up.mp h).2⟩
  rw [trunk_eq] at walk ⊢
  rw [grown.start, Disk.start] at walk
  rw [Disk.start]
  cases ha : p.isAbsolute with
  | false =>
      rw [ha] at walk
      exact up solid.cwd walk
  | true =>
      rw [ha, if_pos rfl, if_pos rfl, List.singleton_append] at walk
      rw [if_pos rfl, if_pos rfl, List.singleton_append]
      exact walk_trivial.mpr ⟨node?_root d, up (node?_root d) (walk_trivial.mp walk).2⟩

/-- Directories that are made open the way to no document. -/
theorem Grown.text? (normal : p.normalize = p) (hn : IsName name) (solid : d.Solid)
    (grown : Grown d d') : d'.text? (p.join name) = d.text? (p.join name) := by
  refine Option.ext fun text => ?_
  rw [text?_join_eq_some_iff normal hn, text?_join_eq_some_iff normal hn]
  refine and_congr_right fun _ => ⟨?_, ?_⟩
  · rintro ⟨dir, leads, check, there⟩
    rw [grown.file] at there
    have isDir := solid.inner dir name (ne_empty hn) (by rw [there]; rfl)
    exact ⟨dir, grown.leads normal solid leads isDir, check, there⟩
  · rintro ⟨dir, leads, check, there⟩
    exact ⟨dir, grown.leads_on leads, check, (grown.file _ text).mpr there⟩

/-! ### Storing -/

variable {file : String} {value : Json} {err : Error}

/-- The directories above a path, innermost first. -/
def above (q : Path) : List Path := q.parent?.elim [] Path.ancestors

theorem withAbove_made (d : Disk) (q : Path) : Made (above q) d (d.withAbove q) := by
  rw [withAbove, above]
  cases q.parent? with
  | none => exact .refl _ d
  | some outer => exact makeDirs_made outer d

/-- How far the document of a directory is stored. -/
theorem store_cases (normal : p.normalize = p) (hf : IsName file) (value : Json) (d : Disk) :
    ∃ d₁, Grown d d₁ ∧ ((∃ err, store value (p.join file) d = .error err d₁) ∨
      ∃ dir text, d₁.Leads p dir ∧ d₁.node? (dir ++ [file ++ ".tmp"]) ≠ some .dir ∧
        ((∃ err, store value (p.join file) d =
            .error err (d₁.put (dir ++ [file ++ ".tmp"]) (.file text))) ∨
          ∃ d', (d₁.put (dir ++ [file ++ ".tmp"]) (.file text)).moveFile
              (p.join (file ++ ".tmp")) (p.join file) = .ok d' ∧
            store value (p.join file) d = .ok () d')) := by
  have grown := (withAbove_made d (p.join file)).toGrown
  have steps := store_steps value (p.join file) d
  generalize d.withAbove (p.join file) = d₁ at grown steps
  rw [temporary_join p hf] at steps
  refine ⟨d₁, grown, steps.imp_right ?_⟩
  rintro ⟨d₂, written, moved⟩
  obtain ⟨dir, leads, free, rfl⟩ := write_join_ok normal (isName_temporary hf) written
  exact ⟨dir, _, leads, free, moved⟩

/-- Whether or not it is refused, to store a document makes directories and then keeps to the one that
the document is in. -/
theorem store_grown (normal : p.normalize = p) (hf : IsName file) (value : Json) (d : Disk) :
    ∃ d₁, Grown d d₁ ∧ (left (store value (p.join file)) d = d₁ ∨
      ∃ dir, d₁.Leads p dir ∧
        Within dir (dir ++ [file]) d₁ (left (store value (p.join file)) d)) := by
  have beside := isName_temporary hf
  obtain ⟨d₁, grown, ⟨err, refused⟩ | ⟨dir, text, leads, free, stored⟩⟩ :=
    store_cases normal hf value d
  · exact ⟨d₁, grown, .inl (by rw [left, refused])⟩
  · have aside : Within dir (dir ++ [file]) d₁ (d₁.put (dir ++ [file ++ ".tmp"]) (.file text)) :=
      within_put (ne_empty beside) (.inr free) fun _ _ _ => ⟨text, rfl⟩
    refine ⟨d₁, grown, .inr ⟨dir, leads, ?_⟩⟩
    rw [left]
    rcases stored with ⟨err, refused⟩ | ⟨d', moved, stored⟩
    · rw [refused]
      exact aside
    · rw [stored]
      exact aside.trans
        (moveFile_within normal beside hf (temporary_ne file) (leads.within normal aside) moved)

/-- A document that is refused has the text that it has once directories are made. -/
theorem text?_of_store_error (normal : p.normalize = p) (hf : IsName file)
    (refused : store value (p.join file) d = .error err d') :
    ∃ d₁, Grown d d₁ ∧ d'.text? (p.join file) = d₁.text? (p.join file) := by
  have beside := isName_temporary hf
  obtain ⟨d₁, grown, ⟨_, refused'⟩ | ⟨dir, text, leads, free, ⟨_, refused'⟩ | ⟨_, -, stored⟩⟩⟩ :=
    store_cases normal hf value d
  · cases refused'.symm.trans refused
    exact ⟨d', grown, rfl⟩
  · cases refused'.symm.trans refused
    have aside : Within dir dir d₁ (d₁.put (dir ++ [file ++ ".tmp"]) (.file text)) :=
      within_put (ne_empty beside) (.inr free) fun _ _ _ => ⟨text, rfl⟩
    have other : dir ++ [file] ≠ dir ++ [file ++ ".tmp"] := by
      simpa using Ne.symm (temporary_ne file)
    refine ⟨d₁, grown, text?_congr normal hf leads (leads.within normal aside) fun text => ?_⟩
    rw [node?_put (named_snoc dir (ne_empty beside)), if_neg other]
  · cases stored.symm.trans refused

end Lineage.Disk
