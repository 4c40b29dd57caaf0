import Lineage.Proofs.Disk.Document
import Lineage.Proofs.Json.RoundTrip

/-!
Documents by any path. Where a document was stored it is found again by the same path, however that
is spelled: the directories that the path leads through stay, and so does the working directory.
-/
namespace Lineage

namespace Path

open Component (IsName)

variable {p q : Path} {s : String} {init : List String}

/-- Whatever path it is joined to, a name is the last segment. -/
theorem segments_join_name (p : Path) (hs : IsName s) :
    ∃ init, (p.join s).segments = init ++ [s] := by
  have alone := segments_of_whole hs.whole
  rcases p.join_cases (isAbsolute_of_whole hs.whole) with ⟨-, joined⟩ | ⟨u, joined, -⟩
  · exact ⟨[], by rw [joined, alone, List.nil_append]⟩
  · exact ⟨segments ⟨u⟩, by rw [joined, segments_append_slash, alone]⟩

theorem fileName?_of_segments (h : q.segments = init ++ [s]) (hs : IsName s) :
    q.fileName? = some s := by
  have last : q.body.getLast? = some (.name s) := by
    rw [body, h, List.filter_append, List.map_append, List.getLast?_append]
    simp [hs.nontrivial, Component.ofSegment, hs.down]
  have components : q.components.getLast? = some (.name s) := by
    rcases components_cases q with ⟨-, h⟩ | ⟨-, h | h⟩ <;> rw [h]
    all_goals first
      | exact last
      | rw [List.getLast?_cons, last, Option.getD_some]
  rw [fileName?, components]

theorem fileName?_join (p : Path) (hs : IsName s) : (p.join s).fileName? = some s := by
  obtain ⟨init, h⟩ := segments_join_name p hs
  exact fileName?_of_segments h hs

end Path

namespace DocumentFormat

theorem ofPath_join (p : Path) {file : String} (plain : Component.IsName file) :
    ofPath (p.join file) = ofPath ⟨file⟩ := by
  have alone : (Path.mk file).fileName? = some file := by
    have h := Path.fileName?_join ⟨""⟩ plain
    rwa [Path.join, Path.isAbsolute_of_whole plain.whole, if_neg Bool.false_ne_true,
      if_pos (.inl rfl), String.empty_append] at h
  simp only [ofPath, Path.extension?, Path.fileName?_join p plain, alone]

/-- A document in JSON is read back. -/
theorem read_write {doc : Json} (h : doc.Legible 127) :
    json.read (json.write doc) = .ok doc := by
  rw [read, write, Json.read?_render h _ (by simp [isBlank])]
  rfl

end DocumentFormat

namespace Disk

variable {d d' : Disk} {loc dir : Location} {segs : List String} {q : Path} {t : Target}

/-- A file with the text of a document in JSON is loaded as that document. -/
theorem load_written {doc found : Json} {nested : List String}
    (stat : d.stat q = .ok (.file (DocumentFormat.json.write doc)))
    (json : DocumentFormat.ofPath q = .json) (legible : doc.Legible 127)
    (at_ : doc.readAt nested = .ok found) : d.load q nested = .ok (found, true) := by
  refine load_of_stat stat ?_ at_
  rw [json]
  exact DocumentFormat.read_write legible

/-! ### Walks through directories that stay -/

theorem isDir_of_walk (h : d.walk loc segs = .ok dir) (isDir : d.node? dir = some .dir) :
    d.node? loc = some .dir := by
  cases segs with
  | nil =>
      cases h
      exact isDir
  | cons s rest =>
      obtain ⟨next, entered, -⟩ := bind_eq_ok.mp h
      exact (enter_eq_ok_iff.mp entered).1

/-- A walk to a directory passes through directories only, and is the same where they all stay. -/
theorem walk_of_dirs (stay : ∀ l, d.node? l = some .dir → d'.node? l = some .dir)
    (h : d.walk loc segs = .ok dir) (isDir : d.node? dir = some .dir) :
    d'.walk loc segs = .ok dir := by
  induction segs generalizing loc with
  | nil => exact h
  | cons s rest ih =>
      rw [walk_cons] at h ⊢
      obtain ⟨next, entered, walked⟩ := bind_eq_ok.mp h
      have here := stay loc (enter_eq_ok_iff.mp entered).1
      have there := stay next (isDir_of_walk walked isDir)
      exact bind_eq_ok.mpr ⟨next, enter_on entered here (by rw [there]; rfl), ih walked⟩

/-- A walk that leaves a location, or what is below that, finds a directory there. -/
theorem isDir_of_left {outer : Location} (h : d.walk loc segs = .ok dir)
    (from_ : outer <+: loc) (away : ¬ outer <+: dir) : d.node? outer = some .dir := by
  induction segs generalizing loc with
  | nil =>
      cases h
      exact absurd from_ away
  | cons s rest ih =>
      rw [walk_cons] at h
      obtain ⟨next, entered, walked⟩ := bind_eq_ok.mp h
      obtain ⟨here, cases⟩ := enter_eq_ok_iff.mp entered
      by_cases inside : outer <+: next
      · exact ih walked inside
      · rcases cases with ⟨-, rfl⟩ | ⟨-, -, rfl⟩ | ⟨-, -, -, -, rfl⟩
        · exact absurd from_ inside
        · obtain ⟨rest', rfl⟩ := from_
          rcases List.eq_nil_or_concat rest' with rfl | ⟨init, last, rfl⟩
          · rwa [List.append_nil] at here
          · refine absurd ?_ inside
            rw [List.concat_eq_append, ← List.append_assoc, List.dropLast_concat]
            exact List.prefix_append _ _
        · exact absurd (from_.trans (List.prefix_append _ _)) inside

/-- A final slash is passed at a directory. -/
theorem walk_slash {init : List String} (h : d.walk loc (init ++ [""]) = .ok dir) :
    d.walk loc init = .ok dir ∧ d.node? dir = some .dir := by
  rw [walk_append] at h
  obtain ⟨l, walked, last⟩ := bind_eq_ok.mp h
  rw [walk_singleton] at last
  obtain ⟨isDir, ⟨-, rfl⟩ | ⟨trivial, -⟩ | ⟨trivial, -⟩⟩ := enter_eq_ok_iff.mp last
  · exact ⟨walked, isDir⟩
  · cases trivial
  · cases trivial

/-! ### Targets -/

theorem target_eq_ok (h : d.target q = .ok t) : checkText q = .ok () ∧
    ∃ init, d.walk (d.start q) (init ++ [""]) = .ok t.dir := by
  obtain ⟨_, text, h⟩ := bind_eq_ok.mp h
  obtain ⟨l, walked, he⟩ := bind_eq_ok.mp h
  cases he
  exact ⟨text, _, walked⟩

/-- The place that a path names is the same while directories stay. -/
theorem target_of_dirs (stay : ∀ l, d.node? l = some .dir → d'.node? l = some .dir)
    (start : d'.start q = d.start q) (h : d.target q = .ok t) : d'.target q = .ok t := by
  obtain ⟨_, text, h⟩ := bind_eq_ok.mp h
  obtain ⟨l, walked, he⟩ := bind_eq_ok.mp h
  refine bind_eq_ok.mpr ⟨_, text, bind_eq_ok.mpr ⟨l, ?_, he⟩⟩
  rw [start]
  exact walk_of_dirs stay walked (walk_slash walked).2

theorem start_put (d : Disk) (loc : Location) (node : FileNode) (q : Path) :
    (d.put loc node).start q = d.start q := by
  rw [start, start, put_cwd]

theorem target_put {text : String} (named : Named loc) (free : d.node? loc ≠ some .dir)
    (h : d.target q = .ok t) : (d.put loc (.file text)).target q = .ok t := by
  refine target_of_dirs (fun l hl => ?_) (start_put ..) h
  rw [node?_put named, if_neg, hl]
  rintro rfl
  exact free hl

theorem Target.named (h : t.special = false) : Named t.location := by
  refine named_snoc t.dir ?_
  rintro empty
  rw [Target.special, empty] at h
  cases h

/-- A place at which there can be a file. -/
structure Target.Plain (t : Target) : Prop where
  slash : t.slash = false
  special : t.special = false
  name : t.checkName = .ok ()

/-- Without a final slash, a path names its last segment in what the others lead to. -/
theorem segments_of_target (h : d.target q = .ok t) (slash : t.slash = false) :
    ∃ init, q.segments = init ++ [t.last] ∧ checkText q = .ok () ∧
      d.walk (d.start q) init = .ok t.dir ∧ d.node? t.dir = some .dir := by
  obtain ⟨_, text, h⟩ := bind_eq_ok.mp h
  obtain ⟨l, walked, he⟩ := bind_eq_ok.mp h
  cases he
  -- Without a final slash no segment was dropped to find the last name.
  have all : (q.segments.reverse.dropWhile (· == "")).reverse = q.segments := by
    have suffix_ := List.dropWhile_suffix (l := q.segments.reverse) (· == "")
    have length := decide_eq_false_iff_not.mp slash
    rw [List.length_reverse] at length
    rw [suffix_.eq_of_length_le (by rw [List.length_reverse]; omega), List.reverse_reverse]
  obtain ⟨init, last, split⟩ :=
    q.segments.eq_nil_or_concat.resolve_left (pieces_ne_nil '/' q.text)
  rw [List.concat_eq_append] at split
  rw [split] at all
  simp only [split, all, List.dropLast_concat, List.getLast?_concat, Option.getD_some] at walked ⊢
  exact ⟨init, rfl, text, walk_slash walked⟩

/-- What a path leads to is what is at the place that it names. -/
theorem stat_iff_of_target (h : d.target q = .ok t) (plain : t.Plain) {node : FileNode} :
    d.stat q = .ok node ↔ d.node? t.location = some node := by
  obtain ⟨init, split, text, inner, isDir⟩ := segments_of_target h plain.slash
  obtain ⟨nontrivial, down⟩ := Bool.or_eq_false_iff.mp plain.special
  have check := plain.name
  rw [Target.checkName] at check
  have located : d.locate q =
      if (d.node? t.location).isSome then .ok t.location else .error .notFound := by
    rw [locate, split, walk_append, text, inner]
    refine (walk_singleton d t.dir t.last).trans ?_
    rw [enter, isDir, nontrivial, if_neg (beq_eq_false_iff_ne.mp down), check]
    rfl
  rw [stat_eq_ok_iff, located]
  cases there : d.node? t.location with
  | none => simp
  | some found => simp [there]

/-- The way to a file does not start at the file or below it, so it stays when the file goes. -/
theorem start_remove {text : String} (h : d.target q = .ok t)
    (there : d.node? t.location = some (.file text)) :
    (d.remove t.location).start q = d.start q := by
  obtain ⟨-, init, walk⟩ := target_eq_ok h
  rw [start] at walk
  rw [start, start]
  split at walk
  · rename_i absolute
    rw [if_pos absolute, if_pos absolute]
  · rename_i relative
    rw [if_neg relative, if_neg relative]
    rcases remove_cwd d t.dir t.last with ⟨rest, cwd, -⟩ | ⟨-, same⟩
    · have inside : t.location <+: d.cwd := ⟨rest, by rw [cwd, Target.location]; simp⟩
      have away : ¬ t.location <+: t.dir := fun p => by
        have length := p.length_le
        rw [Target.location, List.length_append, List.length_singleton] at length
        omega
      cases there.symm.trans (isDir_of_left walk inside away)
    · exact same

/-! ### Storing and finding -/

theorem text_ne_of_check (spelled : checkText q = .ok ()) : q.text ≠ "" := by
  intro empty
  rw [checkText, empty] at spelled
  cases spelled

theorem start_temporary (some_ : q.text ≠ "") (d : Disk) : d.start (temporary q) = d.start q := by
  have head : (temporary q).isAbsolute = q.isAbsolute := by
    have chars : q.text.toList ≠ [] := fun he => some_ (String.toList_inj.mp (by simpa using he))
    obtain ⟨c, cs, split⟩ := List.exists_cons_of_ne_nil chars
    rw [Path.isAbsolute, Path.isAbsolute, temporary, String.toList_append, split]
    rfl
  rw [start, start, head]

theorem write_eq_ok {text : String} (h : d.write q text = .ok d') :
    ∃ t, d.target q = .ok t ∧ t.Plain ∧ d.node? t.location ≠ some .dir ∧
      d' = d.put t.location (.file text) := by
  rw [write] at h
  obtain ⟨t, target, h⟩ := bind_eq_ok.mp h
  split at h
  · cases h
  · rename_i plain
    obtain ⟨special, slash⟩ := Bool.or_eq_false_iff.mp (Bool.eq_false_iff.mpr plain)
    obtain ⟨_, name, h⟩ := bind_eq_ok.mp h
    refine ⟨t, target, ⟨slash, special, name⟩, ?_⟩
    split at h
    · cases h
    · rename_i free
      exact ⟨fun he => free he, (Except.ok.inj h).symm⟩

theorem moveFile_eq_ok {p : Path} (h : d.moveFile p q = .ok d') :
    ∃ s t text, (d.target p = .ok s ∧ d.node? s.location = some (.file text)) ∧
      (d.target q = .ok t ∧ t.Plain ∧ d.node? t.location ≠ some .dir) ∧
        d' = (d.remove s.location).put t.location (.file text) := by
  rw [moveFile] at h
  obtain ⟨s, source, h⟩ := bind_eq_ok.mp h
  obtain ⟨t, target, h⟩ := bind_eq_ok.mp h
  split at h
  · cases h
  · rename_i plain
    obtain ⟨-, special⟩ := Bool.or_eq_false_iff.mp (Bool.eq_false_iff.mpr plain)
    obtain ⟨_, -, h⟩ := bind_eq_ok.mp h
    split at h
    · cases h
    · cases h
    · rename_i text there
      obtain ⟨_, name, h⟩ := bind_eq_ok.mp h
      split at h
      · cases h
      · rename_i open_
        obtain ⟨-, slash⟩ := Bool.or_eq_false_iff.mp (Bool.eq_false_iff.mpr open_)
        refine ⟨s, t, text, ⟨source, there⟩, ?_⟩
        split at h
        · cases h
        · rename_i free
          exact ⟨⟨target, ⟨slash, special, name⟩, fun he => free he⟩, (Except.ok.inj h).symm⟩

/-- A text has come to the place that a path names, by way of the one beside that. -/
structure Placed (q : Path) (text : String) (s t : Target) (d d' : Disk) : Prop where
  start : d'.start q = d.start q
  beside : d'.target (temporary q) = .ok s ∧ s.Plain
  target : d'.target q = .ok t ∧ t.Plain
  free : ∀ l, l = t.location ∨ l = s.location → d.node? l ≠ some .dir
  node : ∀ l, d'.node? l =
    if l = t.location then some (.file text) else if l = s.location then none else d.node? l

theorem placed_of_moved {d₁ : Disk} {text : String} (written : d.write (temporary q) text = .ok d₁)
    (moved : d₁.moveFile (temporary q) q = .ok d') : ∃ s t, Placed q text s t d d' := by
  obtain ⟨s, source, plain₀, free₀, rfl⟩ := write_eq_ok written
  obtain ⟨s', t, text', ⟨source', there⟩, ⟨target, plain, free⟩, rfl⟩ := moveFile_eq_ok moved
  have named₀ := Target.named plain₀.special
  have named := Target.named plain.special
  have put (l : Location) : (d.put s.location (.file text)).node? l =
      if l = s.location then some (.file text) else d.node? l := node?_put named₀ l
  -- The temporary file is moved from where it was written.
  obtain rfl : s = s' := Except.ok.inj ((target_put named₀ free₀ source).symm.trans source')
  have some_ := text_ne_of_check (target_eq_ok target).1
  have start : ((d.put s.location (.file text)).remove s.location).start q = d.start q := by
    have kept := start_remove source' there
    rwa [start_temporary some_, start_temporary some_, start_put] at kept
  rw [put, if_pos rfl] at there
  cases there
  have free (l : Location) (hl : l = t.location ∨ l = s.location) : d.node? l ≠ some .dir := by
    by_cases here : l = s.location
    · exact here ▸ free₀
    · rw [← hl.resolve_right here, put, if_neg here] at free
      exact free
  have stay (l : Location) (hl : d.node? l = some .dir) :
      (((d.put s.location (.file text)).remove s.location).put t.location
        (.file text)).node? l = some .dir := by
    have other := mt (free l) (not_not.mpr hl)
    rw [node?_moved named₀ named, if_neg fun he => other (.inl he),
      if_neg fun he => other (.inr he), hl]
  refine ⟨s, t, (start_put ..).trans start, ⟨target_of_dirs stay ?_ source, plain₀⟩,
    ⟨target_of_dirs (d := d.put s.location (.file text)) (fun l hl => ?_) ?_ target, plain⟩, free,
    node?_moved named₀ named⟩
  · rw [start_put, start_temporary some_, start_temporary some_, start]
  · rw [put] at hl
    split at hl
    · cases hl
    · exact stay l hl
  · rw [start_put, start_put, start]

theorem placed_of_store {value : Json} (h : store value q d = .ok () d') :
    ∃ s t, Placed q ((DocumentFormat.ofPath q).write value) s t (d.withAbove q) d' := by
  obtain ⟨d₁, written, moved⟩ := store_eq_ok h
  exact placed_of_moved written moved

/-- What is stored at a path is the file that the path leads to. -/
theorem stat_of_store {value : Json} (h : store value q d = .ok () d') :
    d'.stat q = .ok (.file ((DocumentFormat.ofPath q).write value)) := by
  obtain ⟨s, t, placed⟩ := placed_of_store h
  rw [stat_iff_of_target placed.target.1 placed.target.2, placed.node, if_pos rfl]

/-- What is stored at a path is loaded from there, if its text is read back. -/
theorem load_of_store {value found : Json} {nested : List String} (h : store value q d = .ok () d')
    (reads : (DocumentFormat.ofPath q).read ((DocumentFormat.ofPath q).write value) = .ok value)
    (at_ : value.readAt nested = .ok found) : d'.load q nested = .ok (found, true) :=
  load_of_stat (stat_of_store h) reads at_

end Disk
end Lineage
