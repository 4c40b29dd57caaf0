import Lineage.Disk.Document
import Lineage.Proofs.Join

/-!
Where paths lead on a disk. A single change of a disk shows at its location or below it only; and a
normal path leads on to its directory whatever changes below that.
-/
namespace Lineage.Disk

open Component (IsName)
open Path (trunk)

variable {d d' : Disk} {dir loc : Location}

/-- Strictly below a location. -/
def Below (dir loc : Location) : Prop := dir <+: loc ∧ dir ≠ loc

theorem Below.length_lt (h : Below dir loc) : dir.length < loc.length := by
  refine Nat.lt_of_le_of_ne h.1.length_le fun he => h.2 (h.1.eq_of_length he)

theorem below_snoc (dir : Location) (s : String) : Below dir (dir ++ [s]) :=
  ⟨List.prefix_append _ _, by simp⟩

theorem Below.of_snoc {s : String} (h : Below (dir ++ [s]) loc) : Below dir loc := by
  have lt := h.length_lt
  refine ⟨(List.prefix_append _ _).trans h.1, ?_⟩
  rintro rfl
  rw [List.length_append] at lt
  omega

/-- A location below the root with a name, which a disk has a node at or none. -/
def Named (loc : Location) : Prop := ¬ (loc = [] ∨ isGone loc = true)

theorem named_snoc (dir : Location) {s : String} (h : s ≠ "") : Named (dir ++ [s]) := by
  simp [Named, isGone, h]

/-! ### Single changes -/

theorem lookup_cons_if (k l : Location) (v : FileNode) (nodes : List (Location × FileNode)) :
    ((k, v) :: nodes).lookup l = if l = k then some v else nodes.lookup l := by
  by_cases h : l = k
  · simp [h]
  · simp [List.lookup_cons, beq_eq_false_iff_ne.mpr h, h]

theorem lookup_replace (nodes : List (Location × FileNode)) (loc l : Location) (node : FileNode) :
    (nodes.map fun e => if e.1 = loc then (loc, node) else e).lookup l =
      if l = loc then (nodes.lookup l).map fun _ => node else nodes.lookup l := by
  induction nodes with
  | nil => simp
  | cons field nodes ih =>
      obtain ⟨k, v⟩ := field
      rw [List.map_cons]
      by_cases hk : k = loc
      · rw [if_pos hk, lookup_cons_if, lookup_cons_if, ih, hk]
        by_cases hl : l = loc <;> simp [hl]
      · rw [if_neg hk, lookup_cons_if, lookup_cons_if, ih]
        by_cases hl : l = k
        · simp [hl, hk]
        · simp [hl]

theorem lookup_filter (nodes : List (Location × FileNode)) (p : Location → Bool) (l : Location) :
    (nodes.filter fun e => p e.1).lookup l = if p l then nodes.lookup l else none := by
  induction nodes with
  | nil => simp
  | cons field nodes ih =>
      obtain ⟨k, v⟩ := field
      rw [lookup_cons_if, List.filter_cons]
      by_cases hl : l = k
      · subst hl
        cases hp : p l <;> simp [hp, ih]
      · cases p k <;> simp [lookup_cons_if, ih, hl]

theorem lookup_put (d : Disk) (loc l : Location) (node : FileNode) :
    (d.put loc node).nodes.lookup l = if l = loc then some node else d.nodes.lookup l := by
  rw [put]
  split
  · rename_i known
    obtain ⟨old, hold⟩ := Option.isSome_iff_exists.mp known
    rw [lookup_replace]
    by_cases h : l = loc
    · rw [if_pos h, if_pos h, h, hold, Option.map_some]
    · rw [if_neg h, if_neg h]
  · rename_i unknown
    rw [List.lookup_append, lookup_cons_if, List.lookup_nil]
    by_cases h : l = loc
    · rw [if_pos h, if_pos h, h, Option.not_isSome_iff_eq_none.mp unknown, Option.none_or]
    · rw [if_neg h, if_neg h, Option.or_none]

theorem node?_put {node : FileNode} (named : Named loc) (l : Location) :
    (d.put loc node).node? l = if l = loc then some node else d.node? l := by
  rw [node?, node?, lookup_put]
  by_cases h : l = loc
  · rw [if_pos h, if_pos h, if_neg (h ▸ named)]
  · rw [if_neg h, if_neg h]

theorem node?_remove {l : Location} (ne : l ≠ loc) : (d.remove loc).node? l = d.node? l := by
  have kept : (d.nodes.filter fun e => e.1 ≠ loc).lookup l = d.nodes.lookup l := by
    rw [lookup_filter d.nodes fun k => k ≠ loc]
    simp [ne]
  rw [node?, node?, remove, kept]

theorem node?_remove_self (named : Named loc) : (d.remove loc).node? loc = none := by
  have gone : (d.nodes.filter fun e => e.1 ≠ loc).lookup loc = none := by
    rw [lookup_filter d.nodes fun k => k ≠ loc]
    simp
  rw [node?, remove, if_neg named, gone]

/-- A file that is put somewhere and then moved on. -/
theorem node?_moved {from_ to_ : Location} {text : String} (named₀ : Named from_)
    (named : Named to_) (l : Location) :
    (((d.put from_ (.file text)).remove from_).put to_ (.file text)).node? l =
      if l = to_ then some (.file text) else if l = from_ then none else d.node? l := by
  rw [node?_put named]
  by_cases aside : l = from_
  · rw [aside, node?_remove_self named₀, if_pos rfl]
  · rw [node?_remove aside, node?_put named₀, if_neg aside, if_neg aside]

theorem node?_clear {l : Location} (h : ¬ Below loc l) : (d.clear loc).node? l = d.node? l := by
  have kept : (d.nodes.filter fun e => !(loc.isPrefixOf e.1 && loc != e.1)).lookup l =
      d.nodes.lookup l := by
    rw [lookup_filter d.nodes fun k => !(loc.isPrefixOf k && loc != k)]
    refine if_pos ?_
    rw [Below, not_and, Decidable.not_not] at h
    by_cases he : loc = l
    · simp [he]
    · have away : ¬ loc <+: l := fun hp => he (h hp)
      simp [Bool.eq_false_iff.mpr (mt List.isPrefixOf_iff_prefix.mp away)]
  rw [node?, node?, clear, kept]

/-! ### Walks -/

theorem walk_cons (d : Disk) (loc : Location) (segment : String) (segments : List String) :
    d.walk loc (segment :: segments) = d.enter loc segment >>= fun l => d.walk l segments := rfl

theorem walk_append (d : Disk) (loc : Location) (segments more : List String) :
    d.walk loc (segments ++ more) = d.walk loc segments >>= fun l => d.walk l more :=
  List.foldlM_append

theorem walk_singleton (d : Disk) (loc : Location) (segment : String) :
    d.walk loc [segment] = d.enter loc segment := by
  rw [walk_cons]
  cases d.enter loc segment <;> rfl

theorem bind_eq_ok {ε α β : Type} {x : Except ε α} {f : α → Except ε β} {b : β} :
    (x >>= f) = .ok b ↔ ∃ a, x = .ok a ∧ f a = .ok b := by
  cases x with
  | error e =>
      constructor
      · intro h
        cases h
      · rintro ⟨a, h, -⟩
        cases h
  | ok a => exact ⟨fun h => ⟨a, rfl, h⟩, fun ⟨_, ha, h⟩ => by cases ha; exact h⟩

/-- Only a directory is left, for itself, the one around it, or a node of a name in it. -/
theorem enter_eq_ok_iff {segment : String} {l : Location} : d.enter loc segment = .ok l ↔
    d.node? loc = some .dir ∧
      (trivialSegment segment = true ∧ l = loc ∨
        trivialSegment segment = false ∧ segment = ".." ∧ l = loc.dropLast ∨
        trivialSegment segment = false ∧ segment ≠ ".." ∧ checkName loc segment = .ok () ∧
          (d.node? (loc ++ [segment])).isSome = true ∧ l = loc ++ [segment]) := by
  rw [enter]
  cases d.node? loc with
  | none => simp
  | some node =>
      cases node with
      | file text => simp
      | dir =>
          cases trivialSegment segment with
          | true => simpa using eq_comm
          | false =>
              by_cases up : segment = ".."
              · simpa [up] using eq_comm
              · cases hc : checkName loc segment with
                | error e => simp [up, bind, Except.bind]
                | ok u =>
                    by_cases there : (d.node? (loc ++ [segment])).isSome = true
                    · simpa [up, bind, Except.bind, there] using eq_comm
                    · simp [up, bind, Except.bind, there]

theorem enter_trivial (h : d.node? loc = some .dir) {segment : String}
    (trivial : trivialSegment segment = true) : d.enter loc segment = .ok loc :=
  enter_eq_ok_iff.mpr ⟨h, .inl ⟨trivial, rfl⟩⟩

theorem enter_name {name : String} (h : d.node? loc = some .dir) (hn : IsName name)
    (check : checkName loc name = .ok ()) (there : (d.node? (loc ++ [name])).isSome = true) :
    d.enter loc name = .ok (loc ++ [name]) :=
  enter_eq_ok_iff.mpr ⟨h, .inr (.inr ⟨hn.nontrivial, hn.down, check, there, rfl⟩)⟩

/-- A step is possible where it was, from a directory to something that is there. -/
theorem enter_on {segment : String} {l : Location} (h : d.enter loc segment = .ok l)
    (here : d'.node? loc = some .dir) (there : (d'.node? l).isSome = true) :
    d'.enter loc segment = .ok l := by
  obtain ⟨-, cases⟩ := enter_eq_ok_iff.mp h
  refine enter_eq_ok_iff.mpr ⟨here, cases.imp_right (Or.imp_right ?_)⟩
  rintro ⟨nontrivial, down, check, -, rfl⟩
  exact ⟨nontrivial, down, check, there, rfl⟩

theorem stat_eq_ok_iff {p : Path} {node : FileNode} :
    d.stat p = .ok node ↔ ∃ l, d.locate p = .ok l ∧ d.node? l = some node := by
  rw [stat, bind_eq_ok]
  refine exists_congr fun l => and_congr_right fun _ => ?_
  cases d.node? l <;> simp

/-- A walk that never goes up stays above its end, so what is below that makes no difference. -/
theorem walk_down {segments : List String} (down : ∀ s ∈ segments, s ≠ "..")
    (h : d.walk loc segments = .ok dir) :
    loc <+: dir ∧ ((∀ l, ¬ Below dir l → d'.node? l = d.node? l) →
      d'.walk loc segments = .ok dir) := by
  induction segments generalizing loc with
  | nil =>
      cases h
      exact ⟨List.prefix_rfl, fun _ => rfl⟩
  | cons s rest ih =>
      obtain ⟨hs, hrest⟩ := List.forall_mem_cons.mp down
      rw [walk_cons] at h ⊢
      obtain ⟨next, entered, walked⟩ := bind_eq_ok.mp h
      obtain ⟨above, same⟩ := ih hrest walked
      obtain ⟨here, cases⟩ := enter_eq_ok_iff.mp entered
      have inside : loc <+: next := by
        rcases cases with ⟨-, rfl⟩ | ⟨-, up, -⟩ | ⟨-, -, -, -, rfl⟩
        · exact List.prefix_rfl
        · exact absurd up hs
        · exact List.prefix_append _ _
      refine ⟨inside.trans above, fun agree => bind_eq_ok.mpr ⟨next, ?_, same agree⟩⟩
      have outside {l : Location} (hl : l <+: dir) : ¬ Below dir l :=
        fun below => absurd below.length_lt (Nat.not_lt.mpr hl.length_le)
      refine enter_eq_ok_iff.mpr ⟨(agree loc (outside (inside.trans above))).trans here, ?_⟩
      rcases cases with h | h | ⟨nontrivial, up, check, there, rfl⟩
      · exact .inl h
      · exact .inr (.inl h)
      · exact .inr (.inr ⟨nontrivial, up, check, by rwa [agree _ (outside above)], rfl⟩)

/-! ### Directories at normal paths -/

/-- A path leads to a directory that is there. -/
structure Leads (d : Disk) (p : Path) (dir : Location) : Prop where
  walk : d.walk (d.start p) p.segments = .ok dir
  isDir : d.node? dir = some .dir
  there : isGone dir = false

variable {p : Path} {name : String}

theorem Leads.unique {dir' : Location} (h : d.Leads p dir) (h' : d.Leads p dir') : dir = dir' :=
  Except.ok.inj (h.walk.symm.trans h'.walk)

theorem Leads.trunk (normal : p.normalize = p) (h : d.Leads p dir) :
    d.walk (d.start p) p.trunk = .ok dir := by
  have walk := h.walk
  rcases Path.segments_of_normal normal with hs | hs <;> rw [hs] at walk
  · exact walk
  · rw [walk_append] at walk
    obtain ⟨l, hl, last⟩ := bind_eq_ok.mp walk
    rw [walk_singleton] at last
    obtain ⟨-, ⟨-, rfl⟩ | ⟨trivial, -⟩ | ⟨trivial, -⟩⟩ := enter_eq_ok_iff.mp last
    · exact hl
    · cases trivial
    · cases trivial

theorem start_join (hn : IsName name) (d : Disk) :
    d.start (p.join name) = d.start p := by
  rw [start, start, Path.isAbsolute_join (Path.isAbsolute_of_whole hn.whole)]

theorem locate_join (normal : p.normalize = p) (hn : IsName name) (h : d.Leads p dir) :
    d.locate (p.join name) = checkText (p.join name) >>= fun _ => d.enter dir name := by
  rw [locate, start_join hn, Path.segments_join normal hn, walk_append, h.trunk normal]
  congr 1
  funext _
  exact walk_singleton d dir name

/-- The place of a path whose last segment is a name is that name in what the others lead to. -/
theorem target_of_segments {init : List String} (h : p.segments = init ++ [name]) (ne : name ≠ "")
    (d : Disk) : d.target p = checkText p >>= fun _ =>
      d.walk (d.start p) (init ++ [""]) >>= fun l => .ok ⟨l, name, false⟩ := by
  have named : ((init ++ [name]).reverse.dropWhile (· == "")).reverse = init ++ [name] := by
    simp [ne]
  rw [target, h]
  simp only [named, List.dropLast_concat]
  simp [bind, Except.bind, pure, Except.pure]

theorem target_join_eq (normal : p.normalize = p) (hn : IsName name) (d : Disk) :
    d.target (p.join name) = checkText (p.join name) >>= fun _ =>
      d.walk (d.start p) (p.trunk ++ [""]) >>= fun l => .ok ⟨l, name, false⟩ := by
  have ne : name ≠ "" := by
    rintro rfl
    exact absurd hn.nontrivial (by decide)
  rw [target_of_segments (Path.segments_join normal hn) ne, start_join hn]

theorem target_join (normal : p.normalize = p) (hn : IsName name) (h : d.Leads p dir) :
    d.target (p.join name) = checkText (p.join name) >>= fun _ => .ok ⟨dir, name, false⟩ := by
  have inner : d.walk (d.start p) (p.trunk ++ [""]) = .ok dir := by
    rw [walk_append, h.trunk normal]
    exact (walk_singleton d dir "").trans (enter_trivial h.isDir (by decide))
  rw [target_join_eq normal hn, inner]
  rfl

theorem Leads.of_trunk (normal : p.normalize = p) (walk : d.walk (d.start p) p.trunk = .ok dir)
    (isDir : d.node? dir = some .dir) (there : isGone dir = false) : d.Leads p dir where
  walk := by
    rcases Path.segments_of_normal normal with hs | hs <;> rw [hs]
    · exact walk
    · rw [walk_append, walk]
      exact (walk_singleton d dir "").trans (enter_trivial isDir (by decide))
  isDir := isDir
  there := there

/-- A path leads to a directory that can hold a name. -/
theorem leads_of_trunk (normal : p.normalize = p) (walk : d.walk (d.start p) p.trunk = .ok dir)
    (isDir : d.node? dir = some .dir) (check : checkName dir name = .ok ()) : d.Leads p dir := by
  refine .of_trunk normal walk isDir ?_
  rw [checkName] at check
  split at check
  · cases check
  · rename_i there
    exact Bool.eq_false_iff.mpr there

/-- A name can only be made, written or moved where the path leads to a directory. -/
theorem leads_of_target (normal : p.normalize = p) (hn : IsName name) {t : Target}
    (h : d.target (p.join name) = .ok t) (check : t.checkName = .ok ()) :
    d.Leads p t.dir ∧ checkText (p.join name) = .ok () ∧ t = ⟨t.dir, name, false⟩ := by
  rw [target_join_eq normal hn] at h
  obtain ⟨_, text, h⟩ := bind_eq_ok.mp h
  obtain ⟨l, walked, rfl⟩ : ∃ l, d.walk (d.start p) (p.trunk ++ [""]) = .ok l ∧
      ⟨l, name, false⟩ = t := by
    obtain ⟨l, walked, he⟩ := bind_eq_ok.mp h
    exact ⟨l, walked, Except.ok.inj he⟩
  have inner := walked
  rw [walk_append] at inner
  obtain ⟨l', trunk, last⟩ := bind_eq_ok.mp inner
  rw [walk_singleton] at last
  obtain ⟨isDir, ⟨-, rfl⟩ | ⟨trivial, -⟩ | ⟨trivial, -⟩⟩ := enter_eq_ok_iff.mp last
  · exact ⟨leads_of_trunk normal trunk isDir check, text, rfl⟩
  · cases trivial
  · cases trivial

/-- A name is made in a directory. -/
theorem Leads.join (normal : p.normalize = p) (hn : IsName name) (h : d.Leads p dir)
    (check : checkName dir name = .ok ()) (made : d.node? (dir ++ [name]) = some .dir) :
    d.Leads (p.join name) (dir ++ [name]) where
  walk := by
    rw [start_join hn, Path.segments_join normal hn, walk_append, h.trunk normal]
    exact (walk_singleton d dir name).trans (enter_name h.isDir hn check (by rw [made]; rfl))
  isDir := made
  there := by
    have ne : name ≠ "" := by
      rintro rfl
      exact absurd hn.nontrivial (by decide)
    simp [isGone, ne]

/-- A walk to a name passes through the directory that the path leads to. -/
theorem leads_of_walk (normal : p.normalize = p) (hn : IsName name) {inner : Location}
    (walk : d.walk (d.start (p.join name)) (p.join name).segments = .ok inner) :
    ∃ dir, d.Leads p dir ∧ checkName dir name = .ok () ∧ inner = dir ++ [name] := by
  rw [start_join hn, Path.segments_join normal hn, walk_append] at walk
  obtain ⟨dir, trunk, entered⟩ := bind_eq_ok.mp walk
  rw [walk_singleton] at entered
  obtain ⟨isDir, ⟨trivial, -⟩ | ⟨-, up, -⟩ | ⟨-, -, check, -, rfl⟩⟩ := enter_eq_ok_iff.mp entered
  · cases hn.nontrivial.symm.trans trivial
  · exact absurd up hn.down
  · exact ⟨dir, leads_of_trunk normal trunk isDir check, check, rfl⟩

/-- What is at a name is in the directory that the path leads to. -/
theorem Leads.of_join (normal : p.normalize = p) (hn : IsName name) {inner : Location}
    (h : d.Leads (p.join name) inner) :
    ∃ dir, d.Leads p dir ∧ checkName dir name = .ok () ∧ inner = dir ++ [name] :=
  leads_of_walk normal hn h.walk

end Lineage.Disk
