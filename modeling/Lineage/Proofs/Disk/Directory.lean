import Lineage.Proofs.Disk.Within

/-!
Operations on the names of a directory. Where a normal path leads to a directory, making, storing and
removing at a name joined to it stays within the directory, and the path leads there as before.
-/
namespace Lineage.Disk

open Component (IsName)

variable {d d' : Disk} {dir doc : Location} {p : Path} {name : String}

/-! ### A path to a directory goes on leading there -/

theorem walk_up {loc : Location} {segments : List String} :
    d.walk loc (".." :: segments) = .ok dir ↔
      d.node? loc = some .dir ∧ d.walk loc.dropLast segments = .ok dir := by
  have up (l : Location) : d.enter loc ".." = .ok l ↔ d.node? loc = some .dir ∧ l = loc.dropLast := by
    have trivial : trivialSegment ".." = false := by decide
    simp [enter_eq_ok_iff, trivial]
  rw [walk_cons, bind_eq_ok]
  constructor
  · rintro ⟨l, hl, walked⟩
    obtain ⟨here, rfl⟩ := (up l).mp hl
    exact ⟨here, walked⟩
  · rintro ⟨here, walked⟩
    exact ⟨_, (up _).mpr ⟨here, rfl⟩, walked⟩

theorem walk_trivial {loc : Location} {segments : List String} :
    d.walk loc ("" :: segments) = .ok dir ↔
      d.node? loc = some .dir ∧ d.walk loc segments = .ok dir := by
  have stay (l : Location) : d.enter loc "" = .ok l ↔ d.node? loc = some .dir ∧ l = loc := by
    have trivial : trivialSegment "" = true := by decide
    simp [enter_eq_ok_iff, trivial]
  rw [walk_cons, bind_eq_ok]
  constructor
  · rintro ⟨l, hl, walked⟩
    obtain ⟨here, rfl⟩ := (stay l).mp hl
    exact ⟨here, walked⟩
  · rintro ⟨here, walked⟩
    exact ⟨_, (stay _).mpr ⟨here, rfl⟩, walked⟩

theorem node?_root (d : Disk) : d.node? [] = some .dir := if_pos (.inl rfl)

/-- A walk that goes up once at most and then down. A working directory below its end is the one that
it goes up from, and stays a directory. -/
theorem walk_within {climb : Nat} {names : List String} (down : ∀ s ∈ names, s ≠ "..")
    (h : d.walk d.cwd (List.replicate (climb % 2) ".." ++ names) = .ok dir)
    (w : Within dir doc d d') :
    d'.walk d'.cwd (List.replicate (climb % 2) ".." ++ names) = .ok dir := by
  rcases Nat.mod_two_eq_zero_or_one climb with hc | hc <;> rw [hc] at h ⊢
  · obtain ⟨above, same⟩ := walk_down down h
    rcases w.cwd with cwd | ⟨rest, rest', ne, -, from_, -⟩
    · rw [cwd]
      exact same w.node
    · have := above.length_le
      have := List.length_pos_iff.mpr ne
      rw [from_, List.length_append] at *
      omega
  · obtain ⟨here, walked⟩ := walk_up.mp h
    obtain ⟨above, same⟩ := walk_down down walked
    refine walk_up.mpr ⟨w.stays here, ?_⟩
    have outer : d'.cwd.dropLast = d.cwd.dropLast := by
      rcases w.cwd with cwd | ⟨rest, rest', ne, length, from_, to_⟩
      · rw [cwd]
      · have ne' : rest' ≠ [] := by
          rintro rfl
          exact ne (List.length_eq_zero_iff.mp length.symm)
        have short := above.length_le
        rw [from_, List.dropLast_append_of_ne_nil ne, List.length_append, List.length_dropLast]
          at short
        have single : rest.dropLast = [] := List.length_eq_zero_iff.mp (by simp; omega)
        have single' : rest'.dropLast = [] := List.length_eq_zero_iff.mp (by simp [length]; omega)
        rw [from_, to_, List.dropLast_append_of_ne_nil ne, List.dropLast_append_of_ne_nil ne', single,
          single']
    rw [outer]
    exact same w.node

theorem trunk_eq (p : Path) : p.trunk = (if p.isAbsolute then [""] else []) ++
    (List.replicate (p.trail.climb % 2) ".." ++ p.trail.below.reverse) := by
  have names : Component.text ∘ Component.name = id := rfl
  rw [Path.trunk, Path.stem, List.map_append, List.map_replicate, List.map_map, names, List.map_id]
  rfl

theorem Leads.within (normal : p.normalize = p) (h : d.Leads p dir) (w : Within dir doc d d') :
    d'.Leads p dir := by
  have isDir : d'.node? dir = some .dir := (w.node dir fun below => below.2 rfl).trans h.isDir
  have down : ∀ s ∈ p.trail.below.reverse, s ≠ ".." := fun s hs =>
    (Path.isName_of_mem_below p s (List.mem_reverse.mp hs)).down
  have trunk : d'.walk (d'.start p) p.trunk = .ok dir := by
    have walk := h.trunk normal
    rw [trunk_eq] at walk ⊢
    rw [start] at walk ⊢
    cases ha : p.isAbsolute with
    | false =>
        rw [ha] at walk
        exact walk_within down walk w
    | true =>
        rw [ha, if_pos rfl, if_pos rfl, List.singleton_append] at walk
        rw [if_pos rfl, if_pos rfl, List.singleton_append]
        refine walk_trivial.mpr ⟨node?_root d', ?_⟩
        obtain ⟨-, walk⟩ := walk_trivial.mp walk
        -- There is nothing above the root.
        rcases Nat.mod_two_eq_zero_or_one p.trail.climb with hc | hc <;> rw [hc] at walk ⊢
        · exact (walk_down down walk).2 w.node
        · exact walk_up.mpr ⟨node?_root d', (walk_down down (walk_up.mp walk).2).2 w.node⟩
  exact .of_trunk normal trunk isDir h.there

/-! ### Making directories -/

theorem ancestors_eq_cons (p : Path) : ∃ outer, p.ancestors = p :: outer := by
  rw [Path.ancestors, Path.ancestorsWithin]
  cases p.parent? with
  | some q => exact ⟨_, rfl⟩
  | none => exact ⟨[], rfl⟩

/-- Where it is decided by the path itself whether it can be made, no ancestor is looked at. -/
theorem makeDirs_of_decided (decided : d.makeDir p ≠ .error .notFound) :
    makeDirs p d =
      if p.text = "" ∨ p.parent?.isNone then .ok () d
      else match d.makeDir p with
        | .ok d' => .ok () d'
        | .error e => if e = .alreadyExists ∧ d.isDir p then .ok () d else .error e d := by
  obtain ⟨outer, ancestors⟩ := ancestors_eq_cons p
  rw [makeDirs]
  by_cases none : p.text = "" ∨ p.parent?.isNone = true
  · rw [if_pos none, if_pos none]
    rfl
  · obtain ⟨some, inner⟩ := not_or.mp none
    have first : ∃ more, (p :: outer).takeWhile (fun q => q.text ≠ "" ∧ q.parent?.isSome) =
        p :: more := by
      refine ⟨_, List.takeWhile_cons_of_pos ?_⟩
      simpa [some, Option.isSome_iff_ne_none] using inner
    obtain ⟨more, first⟩ := first
    rw [if_neg none, if_neg none, ancestors, first]
    show EStateM.bind (climb [] (p :: more)) makeEach d = _
    rw [EStateM.bind, climb]
    dsimp only
    cases h : d.makeDir p with
    | ok d' => rfl
    | error e =>
        cases e with
        | notFound => exact absurd h decided
        | alreadyExists =>
            by_cases isDir : d.isDir p = true
            · simp only [isDir, and_self, if_true]
              rfl
            · simp only [isDir, Bool.false_eq_true, and_false, if_false]
        | _ => simp only [reduceCtorEq, false_and, if_false]

/-- A path that cannot be made, for another reason than that something is missing on the way. -/
theorem makeDirs_of_refused {e : DiskError} (refused : d.makeDir p = .error e) (ne : e ≠ .notFound) :
    makeDirs p d = .ok () d ∧
        (p.text = "" ∨ p.parent?.isNone = true ∨ e = .alreadyExists ∧ d.isDir p = true) ∨
      ∃ e, makeDirs p d = .error e d := by
  have decided : d.makeDir p ≠ .error .notFound := by
    intro h
    cases refused.symm.trans h
    exact ne rfl
  rw [makeDirs_of_decided decided, refused]
  by_cases none : p.text = "" ∨ p.parent?.isNone = true
  · exact .inl ⟨if_pos none, none.imp_right .inl⟩
  · rw [if_neg none]
    by_cases there : e = .alreadyExists ∧ d.isDir p = true
    · exact .inl ⟨if_pos there, .inr (.inr there)⟩
    · exact .inr ⟨e, if_neg there⟩

theorem checkText_ne_notFound (h : p.text ≠ "") : checkText p ≠ .error .notFound := by
  rw [checkText]
  split
  · simp
  · split <;> simp

theorem checkName_ne_notFound (h : isGone dir = false) : checkName dir name ≠ .error .notFound := by
  rw [checkName, h]
  split
  · contradiction
  · split <;> simp

theorem ne_empty (hn : IsName name) : name ≠ "" := by
  rintro rfl
  exact absurd hn.nontrivial (by decide)

theorem ne_here (hn : IsName name) : name ≠ "." := by
  rintro rfl
  exact absurd hn.nontrivial (by decide)

theorem join_text_ne (p : Path) (hn : IsName name) : (p.join name).text ≠ "" := by
  have ne := ne_empty hn
  rw [Path.join]
  split
  · exact ne
  · split <;> simp [String.append_eq_empty_iff, ne]

theorem not_special (hn : IsName name) (dir : Location) (slash : Bool) :
    Target.special ⟨dir, name, slash⟩ = false := by
  simp [Target.special, hn.nontrivial, hn.down]

theorem makeDir_join (normal : p.normalize = p) (hn : IsName name) (h : d.Leads p dir) :
    d.makeDir (p.join name) = checkText (p.join name) >>= fun _ => checkName dir name >>= fun _ =>
      if (d.node? (dir ++ [name])).isSome then .error .alreadyExists
      else .ok (d.put (dir ++ [name]) .dir) := by
  rw [makeDir, target_join normal hn h]
  cases checkText (p.join name) with
  | error e => rfl
  | ok u =>
      simp only [bind, Except.bind, not_special hn, Bool.false_eq_true, if_false, Target.checkName,
        Target.location]
      cases checkName dir name <;> rfl

theorem bind_eq_error {ε α β : Type} {x : Except ε α} {f : α → Except ε β} {e : ε} :
    (x >>= f) = .error e ↔ x = .error e ∨ ∃ a, x = .ok a ∧ f a = .error e := by
  cases x with
  | error e' =>
      constructor
      · intro h
        cases h
        exact .inl rfl
      · rintro (h | ⟨a, h, -⟩)
        · cases h
          rfl
        · cases h
  | ok a => exact ⟨fun h => .inr ⟨a, rfl, h⟩, fun h => h.elim (fun h => nomatch h)
      fun ⟨_, ha, h⟩ => by cases ha; exact h⟩

theorem locate_join_ok (normal : p.normalize = p) (hn : IsName name) (h : d.Leads p dir)
    {loc : Location} (located : d.locate (p.join name) = .ok loc) :
    checkText (p.join name) = .ok () ∧ checkName dir name = .ok () ∧ loc = dir ++ [name] := by
  rw [locate_join normal hn h] at located
  obtain ⟨u, text, entered⟩ := bind_eq_ok.mp located
  obtain ⟨-, ⟨trivial, -⟩ | ⟨-, up, -⟩ | ⟨-, -, check, -, rfl⟩⟩ := enter_eq_ok_iff.mp entered
  · rw [hn.nontrivial] at trivial
    cases trivial
  · exact absurd up hn.down
  · exact ⟨text, check, rfl⟩

theorem stat_join_ok (normal : p.normalize = p) (hn : IsName name) (h : d.Leads p dir)
    {node : FileNode} (found : d.stat (p.join name) = .ok node) :
    checkText (p.join name) = .ok () ∧ checkName dir name = .ok () ∧
      d.node? (dir ++ [name]) = some node := by
  obtain ⟨loc, located, there⟩ := stat_eq_ok_iff.mp found
  obtain ⟨text, check, rfl⟩ := locate_join_ok normal hn h located
  exact ⟨text, check, there⟩

/-- A name in a directory is refused, or is a directory already, or is made one. -/
theorem makeDirs_join (normal : p.normalize = p) (hn : IsName name) (h : d.Leads p dir) :
    (∃ e, makeDirs (p.join name) d = .error e d) ∨
      checkName dir name = .ok () ∧
        (d.node? (dir ++ [name]) = some .dir ∧ makeDirs (p.join name) d = .ok () d ∨
          d.node? (dir ++ [name]) = none ∧
            makeDirs (p.join name) d = .ok () (d.put (dir ++ [name]) .dir)) := by
  have spelled := join_text_ne p hn
  have parent := Path.parent?_join normal hn
  have made := makeDir_join normal hn h
  cases hm : d.makeDir (p.join name) with
  | ok d' =>
      have decided : d.makeDir (p.join name) ≠ .error .notFound := by simp [hm]
      rw [hm] at made
      obtain ⟨-, -, made⟩ := bind_eq_ok.mp made.symm
      obtain ⟨_, check, made⟩ := bind_eq_ok.mp made
      split at made
      · cases made
      · rename_i free
        cases made
        refine .inr ⟨check, .inr ⟨by simpa using free, ?_⟩⟩
        rw [makeDirs_of_decided decided, if_neg (by simp [spelled, parent]), hm]
  | error e =>
      have ne : e ≠ .notFound := by
        rintro rfl
        rw [hm] at made
        rcases bind_eq_error.mp made.symm with text | ⟨-, -, made⟩
        · exact checkText_ne_notFound spelled text
        · rcases bind_eq_error.mp made with check | ⟨-, -, made⟩
          · exact checkName_ne_notFound h.there check
          · split at made <;> cases made
      rcases makeDirs_of_refused hm ne with ⟨same, text | none | ⟨-, isDir⟩⟩ | refused
      · exact absurd text spelled
      · rw [parent] at none
        cases none
      · rw [Disk.isDir] at isDir
        split at isDir
        · rename_i found
          obtain ⟨-, check, there⟩ := stat_join_ok normal hn h found
          exact .inr ⟨check, .inl ⟨there, same⟩⟩
        · cases isDir
      · exact .inl refused

/-! ### A directory that is there already -/

theorem walk_blank {loc : Location} {segments : List String} (blank : ∀ s ∈ segments, s = "")
    (h : d.walk loc segments = .ok dir) : loc = dir := by
  induction segments with
  | nil =>
      cases h
      rfl
  | cons s rest ih =>
      obtain ⟨rfl, hrest⟩ := List.forall_mem_cons.mp blank
      exact ih hrest (walk_trivial.mp h).2

theorem split_blank (segments : List String) : ∃ blank, (∀ s ∈ blank, s = "") ∧
    segments = (segments.reverse.dropWhile (· == "")).reverse ++ blank := by
  refine ⟨(segments.reverse.takeWhile (· == "")).reverse, fun s hs => ?_, ?_⟩
  · have := List.all_takeWhile (p := (· == "")) (l := segments.reverse)
    have h := List.all_eq_true.mp this s (List.mem_reverse.mp hs)
    simpa using h
  · rw [← List.reverse_append, List.takeWhile_append_dropWhile, List.reverse_reverse]

/-- The last segment on the way to a directory is taken in a directory: it is no name, or one that
is there. -/
theorem walk_last {loc : Location} {segments : List String} (h : d.walk loc segments = .ok dir)
    (isDir : d.node? dir = some .dir) (slash : Bool) :
    ∃ l, d.walk loc (segments.dropLast ++ [""]) = .ok l ∧
      (Target.special ⟨l, segments.getLast?.getD "", slash⟩ = true ∨
        Target.checkName ⟨l, segments.getLast?.getD "", slash⟩ = .ok () ∧
          (d.node? (Target.location ⟨l, segments.getLast?.getD "", slash⟩)).isSome = true) := by
  rcases List.eq_nil_or_concat segments with rfl | ⟨outer, last, rfl⟩
  · cases h
    exact ⟨dir, (walk_singleton d dir "").trans (enter_trivial isDir (by decide)), .inl rfl⟩
  · rw [List.concat_eq_append, walk_append] at h
    obtain ⟨l, walked, entered⟩ := bind_eq_ok.mp h
    rw [walk_singleton] at entered
    obtain ⟨here, cases⟩ := enter_eq_ok_iff.mp entered
    refine ⟨l, ?_, ?_⟩
    · rw [List.concat_eq_append, List.dropLast_concat, walk_append, walked]
      exact (walk_singleton d l "").trans (enter_trivial here (by decide))
    · rw [List.concat_eq_append, List.getLast?_concat, Option.getD_some]
      rcases cases with ⟨trivial, -⟩ | ⟨-, rfl, -⟩ | ⟨-, -, check, there, -⟩
      · exact .inl (by rw [Target.special, trivial, Bool.true_or])
      · exact .inl rfl
      · exact .inr ⟨check, there⟩

theorem Leads.target (h : d.Leads p dir) : ∃ t : Target,
    d.target p = (checkText p >>= fun _ => .ok t) ∧
      (t.special = true ∨ t.checkName = .ok () ∧ (d.node? t.location).isSome = true) := by
  obtain ⟨blank, hblank, split⟩ := split_blank p.segments
  have walk := h.walk
  rw [split, walk_append] at walk
  obtain ⟨loc, named, rest⟩ := bind_eq_ok.mp walk
  obtain rfl := walk_blank hblank rest
  obtain ⟨l, inner, last⟩ := walk_last named h.isDir
    (decide ((p.segments.reverse.dropWhile (· == "")).reverse.length < p.segments.length))
  refine ⟨_, ?_, last⟩
  rw [Disk.target]
  simp only [inner]
  rfl

/-- A directory is not made again. -/
theorem makeDir_there (h : d.Leads p dir) (spelled : p.text ≠ "") :
    ∃ e, d.makeDir p = .error e ∧ e ≠ .notFound := by
  obtain ⟨t, target, last⟩ := h.target
  rw [makeDir, target]
  cases ht : checkText p with
  | error e =>
      refine ⟨e, rfl, ?_⟩
      rintro rfl
      exact checkText_ne_notFound spelled ht
  | ok u =>
      refine ⟨.alreadyExists, ?_, by decide⟩
      simp only [bind, Except.bind]
      rcases last with special | ⟨check, there⟩
      · rw [if_pos special]
      · simp [check, there]

/-- Making a directory that is there changes nothing. -/
theorem makeDirs_there (h : d.Leads p dir) :
    makeDirs p d = .ok () d ∨ ∃ e, makeDirs p d = .error e d := by
  by_cases spelled : p.text = ""
  · rw [makeDirs, if_pos (.inl spelled)]
    exact .inl rfl
  · obtain ⟨e, refused, ne⟩ := makeDir_there h spelled
    exact (makeDirs_of_refused refused ne).imp_left And.left

/-! ### Removing directories -/

/-- A name in a directory is refused, or is a directory that is removed with all that is in it. -/
theorem removeDirs_join (normal : p.normalize = p) (hn : IsName name) (h : d.Leads p dir) :
    (∃ e, removeDirs (p.join name) d = .error e d) ∨
      d.node? (dir ++ [name]) = some .dir ∧
        removeDirs (p.join name) d =
          .ok () ((d.clear (dir ++ [name])).remove (dir ++ [name])) := by
  rw [removeDirs]
  cases hl : d.locate (p.join name) with
  | error e => exact .inl ⟨e, rfl⟩
  | ok loc =>
      obtain ⟨text, check, rfl⟩ := locate_join_ok normal hn h hl
      dsimp only
      cases hnode : d.node? (dir ++ [name]) with
      | none => exact .inl ⟨.notFound, rfl⟩
      | some node =>
          cases node with
          | file text => exact .inl ⟨.notDirectory, rfl⟩
          | dir =>
              refine .inr ⟨rfl, ?_⟩
              have outside : ¬ Below (dir ++ [name]) dir := fun below =>
                absurd below.length_lt (by simp)
              have cleared := h.within normal (within_clear outside)
              rw [target_join normal hn cleared, text]
              simp only [bind, Except.bind]
              rw [if_neg (ne_here hn), if_neg hn.down, if_neg (ne_empty hn)]
              rfl

end Lineage.Disk
