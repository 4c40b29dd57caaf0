import Lineage.Proofs.Disk.Texts

/-!
Documents are replaced as a whole or not at all. Whatever is in the way of a write, above its path,
at it or beside it, directories stay and files elsewhere keep their texts. The document itself only
gives way to the one that takes its place.
-/
namespace Lineage

namespace Path

variable {p q : Path}

theorem isAbsolute_of_parent? (h : p.parent? = some q) (absolute : p.isAbsolute = true) :
    q.isAbsolute = true := by
  rw [parent?, if_pos absolute] at h
  split at h
  · cases h
  · cases h
    simp [isAbsolute, String.toList_append]

theorem isAbsolute_of_mem_ancestors (absolute : p.isAbsolute = true) (mem : q ∈ p.ancestors) :
    q.isAbsolute = true := by
  rw [ancestors] at mem
  generalize p.segments.length + 1 = fuel at mem
  induction fuel generalizing p with
  | zero => rwa [List.mem_singleton.mp mem]
  | succ fuel ih =>
      rw [ancestorsWithin] at mem
      split at mem
      · rename_i outer parent
        rcases List.mem_cons.mp mem with rfl | mem
        · exact absolute
        · exact ih (isAbsolute_of_parent? parent absolute) mem
      · rwa [List.mem_singleton.mp mem]

end Path

namespace Disk

variable {d d' d'' : Disk} {q : Path} {t : Target} {loc : Location} {init : List String}
  {s : String}

/-! ### Beside a document -/

theorem segments_temporary (h : q.segments = init ++ [s]) :
    (temporary q).segments = init ++ [s ++ ".tmp"] := by
  have text : q.text = "/".intercalate (init ++ [s]) := by
    rw [← h]
    exact (intercalate_pieces '/' q.text).symm
  have longer : q.text ++ ".tmp" = "/".intercalate (init ++ [s ++ ".tmp"]) := by
    rw [text]
    by_cases ne : init = []
    · simp [ne]
    · rw [Path.intercalate_snoc ne, Path.intercalate_snoc ne, String.append_assoc]
  have whole : ∀ item ∈ q.segments, '/' ∉ item.toList := fun _ hi => not_mem_of_mem_pieces hi
  rw [h] at whole
  rw [temporary, Path.segments, longer]
  refine pieces_intercalate (by simp) fun item hi => ?_
  rcases List.mem_append.mp hi with hi | hi
  · exact whole item (by simp [hi])
  · rw [List.mem_singleton.mp hi, String.toList_append]
    simpa using whole s (by simp)

theorem target_temporary (some_ : q.text ≠ "") (split : q.segments = init ++ [s])
    (h : d.target (temporary q) = .ok t) : t.location = t.dir ++ [s ++ ".tmp"] ∧
      d.walk (d.start q) init = .ok t.dir ∧ d.node? t.dir = some .dir := by
  rw [target_of_segments (segments_temporary split) (by simp), start_temporary some_] at h
  obtain ⟨_, -, h⟩ := bind_eq_ok.mp h
  obtain ⟨l, walked, he⟩ := bind_eq_ok.mp h
  cases he
  exact ⟨rfl, walk_slash walked⟩

/-- What is entered by the last segment of a path is not what is beside it. -/
theorem enter_ne_temporary {l : Location} (entered : d.enter l s = .ok loc) :
    loc ≠ l ++ [s ++ ".tmp"] := by
  intro he
  have length := congrArg List.length he
  rw [List.length_append, List.length_singleton] at length
  obtain ⟨-, ⟨-, rfl⟩ | ⟨-, -, rfl⟩ | ⟨-, -, -, -, rfl⟩⟩ := enter_eq_ok_iff.mp entered
  · omega
  · rw [List.length_dropLast] at length
    omega
  · exact temporary_ne s (by simpa using he.symm)

/-! ### What a write changes -/

/-- A write to a path leaves directories, and files that are at none of some places. The directories
that it makes are above the path. -/
structure Spares (q : Path) (places : Location → Prop) (d d' : Disk) : Prop where
  start : d'.start q = d.start q
  file : ∀ loc, ¬ places loc →
    ∀ text, d'.node? loc = some (.file text) ↔ d.node? loc = some (.file text)
  dir : ∀ loc, d.node? loc = some .dir → d'.node? loc = some .dir
  made : ∀ loc, d'.node? loc = some .dir →
    d.node? loc = some .dir ∨ d.node? loc = none ∧ ∃ outer ∈ above q, d'.Names outer loc

theorem start_above {p : Path} (h : d'.start q = d.start q) (mem : p ∈ above q) :
    d'.start p = d.start p := by
  rw [start, start] at h ⊢
  by_cases absolute : q.isAbsolute = true
  · have outward : p.isAbsolute = true := by
      rw [above] at mem
      cases parent : q.parent? with
      | none => simp [parent] at mem
      | some outer =>
          rw [parent] at mem
          exact Path.isAbsolute_of_mem_ancestors (Path.isAbsolute_of_parent? parent absolute) mem
    rw [if_pos outward, if_pos outward]
  · rw [if_neg absolute, if_neg absolute] at h
    rw [h]

variable {places : Location → Prop}

theorem Made.spares (h : Made (above q) d d') (places : Location → Prop) :
    Spares q places d d' where
  start := h.start q
  file loc _ := h.file loc
  dir := h.isDir
  made loc there := by
    rcases h.node loc with same | ⟨free, made⟩
    · exact .inl (same ▸ there)
    · exact .inr ⟨free, h.named loc free made⟩

/-- What then changes from one file to another, to or from nothing, at those places only. -/
theorem Spares.trans_files (h : Spares q places d d') (start : d''.start q = d'.start q)
    (node : ∀ loc, d''.node? loc = d'.node? loc ∨
      places loc ∧ d'.node? loc ≠ some .dir ∧ d''.node? loc ≠ some .dir) :
    Spares q places d d'' := by
  have dir (loc : Location) : d''.node? loc = some .dir ↔ d'.node? loc = some .dir := by
    rcases node loc with same | ⟨-, before, after⟩
    · rw [same]
    · exact ⟨fun he => absurd he after, fun he => absurd he before⟩
  refine ⟨start.trans h.start, fun loc away text => ?_,
    fun loc there => (dir loc).mpr (h.dir loc there), fun loc there => ?_⟩
  · rcases node loc with same | ⟨place, -⟩
    · rw [same, h.file loc away]
    · exact absurd place away
  · refine (h.made loc ((dir loc).mp there)).imp_right ?_
    rintro ⟨free, outer, mem, t, target, ht⟩
    exact ⟨free, outer, mem, t,
      target_of_dirs (fun l => (dir l).mpr) (start_above start mem) target, ht⟩

/-! ### The document -/

/-- The last step on the way to a place. -/
theorem last_enter (located : d.locate q = .ok loc) : checkText q = .ok () ∧
    ∃ init s l, q.segments = init ++ [s] ∧ d.walk (d.start q) init = .ok l ∧
      d.enter l s = .ok loc := by
  obtain ⟨_, spelled, walk⟩ := bind_eq_ok.mp located
  obtain ⟨init, s, split⟩ := q.segments.eq_nil_or_concat.resolve_left (pieces_ne_nil '/' q.text)
  rw [List.concat_eq_append] at split
  rw [split, walk_append] at walk
  obtain ⟨l, walked, entered⟩ := bind_eq_ok.mp walk
  exact ⟨spelled, init, s, l, split, walked, (walk_singleton d l s).symm.trans entered⟩

theorem not_names_temporary {l : Location} (spelled : checkText q = .ok ())
    (split : q.segments = init ++ [s]) (walked : d'.walk (d'.start q) init = .ok l)
    (entered : d.enter l s = .ok loc) : ¬ d'.Names (temporary q) loc := by
  rintro ⟨t, target, rfl⟩
  obtain ⟨beside, walked', -⟩ := target_temporary (text_ne_of_check spelled) split target
  obtain rfl : t.dir = l := Except.ok.inj (walked'.symm.trans walked)
  exact enter_ne_temporary entered beside

/-- A document has its text still if only what is beside it has changed. -/
theorem Spares.text? (h : Spares q (d'.Names (temporary q)) d d') {text : String}
    (found : d.text? q = some text) : d'.text? q = some text := by
  rw [text?_eq_some_iff, stat_eq_ok_iff] at found ⊢
  obtain ⟨loc, located, there⟩ := found
  obtain ⟨spelled, init, s, l, split, walked, entered⟩ := last_enter located
  have isDir := (enter_eq_ok_iff.mp entered).1
  replace walked : d'.walk (d'.start q) init = .ok l := by
    rw [h.start]
    exact walk_of_dirs h.dir walked isDir
  replace there : d'.node? loc = some (.file text) :=
    (h.file loc (not_names_temporary spelled split walked entered) text).mpr there
  refine ⟨loc, ?_, there⟩
  rw [locate, spelled, split, walk_append, walked]
  exact (walk_singleton d' l s).trans (enter_on entered (h.dir l isDir) (by rw [there]; rfl))

/-- Nor is there another text now, or one where there was none. -/
theorem Spares.file_of_locate (h : Spares q (d'.Names (temporary q)) d d')
    (located : d'.locate q = .ok loc) (text : String) :
    d'.node? loc = some (.file text) ↔ d.node? loc = some (.file text) := by
  obtain ⟨spelled, init, s, l, split, walked, entered⟩ := last_enter located
  exact h.file loc (not_names_temporary spelled split walked entered) text

/-! ### Storing -/

variable {value : Json}

theorem spares_of_refused {err : Error} (refused : store value q d = .error err d') :
    Spares q (d'.Names (temporary q)) d d' := by
  have made := withAbove_made d q
  obtain ⟨_, refused'⟩ | ⟨d₁, written, ⟨_, refused'⟩ | ⟨_, -, stored⟩⟩ := store_steps value q d
  · cases refused'.symm.trans refused
    exact made.spares _
  · cases refused'.symm.trans refused
    obtain ⟨t, target, plain, free, rfl⟩ := write_eq_ok written
    have named := Target.named plain.special
    refine (made.spares _).trans_files (start_put ..) fun loc => ?_
    rw [node?_put named]
    by_cases here : loc = t.location
    · rw [if_pos here, here]
      exact .inr ⟨⟨t, target_put named free target, rfl⟩, free, by simp⟩
    · exact .inl (if_neg here)
  · cases stored.symm.trans refused

theorem spares_of_store (h : store value q d = .ok () d') :
    Spares q (fun loc => d'.Names q loc ∨ d'.Names (temporary q) loc) d d' := by
  obtain ⟨s, t, placed⟩ := placed_of_store h
  refine ((withAbove_made d q).spares _).trans_files placed.start fun loc => ?_
  rw [placed.node]
  by_cases here : loc = t.location
  · rw [if_pos here]
    exact .inr ⟨.inl ⟨t, placed.target.1, here.symm⟩, placed.free loc (.inl here), by simp⟩
  · rw [if_neg here]
    by_cases aside : loc = s.location
    · rw [if_pos aside]
      exact .inr ⟨.inr ⟨s, placed.beside.1, aside.symm⟩, placed.free loc (.inr aside), by simp⟩
    · exact .inl (if_neg aside)

theorem not_exists_temporary (h : store value q d = .ok () d') :
    d'.exists? (temporary q) = false := by
  obtain ⟨s, t, placed⟩ := placed_of_store h
  obtain ⟨target, plain⟩ := placed.target
  obtain ⟨init, split, spelled, walked, -⟩ := segments_of_target target plain.slash
  obtain ⟨beside, walked', -⟩ :=
    target_temporary (text_ne_of_check spelled) split placed.beside.1
  have other : s.location ≠ t.location := by
    rw [beside, Target.location, Except.ok.inj (walked'.symm.trans walked)]
    simp
  have gone (node : FileNode) : d'.stat (temporary q) ≠ .ok node := by
    rw [Ne, stat_iff_of_target placed.beside.1 placed.beside.2, placed.node, if_neg other, if_pos rfl]
    simp
  rw [exists?]
  split
  · rename_i node found
    exact absurd found (gone node)
  · rfl

/-- A document is written as a whole or not at all. Where it is refused it has the text that it had,
and otherwise the new one. Besides it, only the file beside it changes, and directories above it are
made. -/
theorem store_all_or_nothing (value : Json) (q : Path) (d : Disk) :
    (∃ err d', store value q d = .error err d' ∧ Spares q (d'.Names (temporary q)) d d' ∧
      (∀ text, d.text? q = some text → d'.text? q = some text) ∧
      ∀ loc, d'.locate q = .ok loc →
        ∀ text, d'.node? loc = some (.file text) ↔ d.node? loc = some (.file text)) ∨
    ∃ d', store value q d = .ok () d' ∧
      d'.text? q = some ((DocumentFormat.ofPath q).write value) ∧
      d'.exists? (temporary q) = false ∧
      Spares q (fun loc => d'.Names q loc ∨ d'.Names (temporary q) loc) d d' := by
  cases h : store value q d with
  | error err d' =>
      have spares := spares_of_refused h
      exact .inl ⟨err, d', rfl, spares, fun _ => spares.text?, fun _ => spares.file_of_locate⟩
  | ok u d' =>
      exact .inr ⟨d', rfl, text?_eq_some_iff.mpr (stat_of_store h), not_exists_temporary h,
        spares_of_store h⟩

end Disk
end Lineage
