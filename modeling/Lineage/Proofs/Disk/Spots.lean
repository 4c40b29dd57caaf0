import Mathlib.Data.List.ProdSigma
import Mathlib.Data.List.Perm.Subperm
import Mathlib.Data.Set.Finite.Basic
import Lineage.Proofs.Disk.Walk

/-!
How many directories can have a document. A disk has finitely many nodes, and a node lies at the
documents of four normal paths at most: from the root or from the working directory, a step up from
there or not.
-/
namespace Lineage.Disk

open Component (IsName)

variable {d : Disk} {p q : Path} {file : String}

/-- Where a segment leads from a location, if it leads anywhere. -/
def ahead (loc : Location) (segment : String) : Location :=
  if trivialSegment segment then loc else if segment = ".." then loc.dropLast else loc ++ [segment]

theorem walk_eq_ahead {loc dir : Location} {segments : List String}
    (h : d.walk loc segments = .ok dir) : dir = segments.foldl ahead loc := by
  induction segments generalizing loc with
  | nil =>
      cases h
      rfl
  | cons s rest ih =>
      rw [walk_cons] at h
      obtain ⟨next, entered, walked⟩ := bind_eq_ok.mp h
      obtain ⟨-, cases⟩ := enter_eq_ok_iff.mp entered
      have here : next = ahead loc s := by
        rcases cases with ⟨trivial, rfl⟩ | ⟨nontrivial, up, rfl⟩ | ⟨nontrivial, name, -, -, rfl⟩
        · rw [ahead, if_pos trivial]
        · rw [ahead, if_neg (by simp [nontrivial]), if_pos up]
        · rw [ahead, if_neg (by simp [nontrivial]), if_neg name]
      rw [ih walked, here, List.foldl_cons]

theorem ahead_name {s : String} (h : IsName s) (loc : Location) : ahead loc s = loc ++ [s] := by
  rw [ahead, if_neg (by simp [h.nontrivial]), if_neg h.down]

theorem foldl_ahead_names {names : List String} (h : ∀ s ∈ names, IsName s) (loc : Location) :
    names.foldl ahead loc = loc ++ names := by
  induction names generalizing loc with
  | nil => exact (List.append_nil loc).symm
  | cons s names ih =>
      obtain ⟨hs, hnames⟩ := List.forall_mem_cons.mp h
      rw [List.foldl_cons, ahead_name hs, ih hnames, List.append_assoc]
      rfl

/-- From where a normal path goes down: the root or the working directory, or what is around it. -/
def base (d : Disk) (absolute up : Bool) : Location :=
  let start := if absolute then [] else d.cwd
  if up then start.dropLast else start

/-- What tells apart the normal paths that lead to one location. -/
def spot (d : Disk) (file : String) (p : Path) : Bool × Bool × Location :=
  let up := decide (p.trail.climb % 2 = 1)
  (p.isAbsolute, up, d.base p.isAbsolute up ++ p.trail.below.reverse ++ [file])

theorem foldl_trunk (d : Disk) (p : Path) : p.trunk.foldl ahead (d.start p) =
    d.base p.isAbsolute (decide (p.trail.climb % 2 = 1)) ++ p.trail.below.reverse := by
  have names : ∀ s ∈ p.trail.below.reverse, IsName s :=
    fun s hs => Path.isName_of_mem_below p s (List.mem_reverse.mp hs)
  have texts : (p.trail.below.reverse.map Component.name).map Component.text =
      p.trail.below.reverse := by
    rw [List.map_map]
    exact List.map_id _
  have start : (if p.isAbsolute then [""] else []).foldl ahead (d.start p) =
      if p.isAbsolute then [] else d.cwd := by
    rw [Disk.start]
    cases p.isAbsolute <;> rfl
  rw [Path.trunk, Path.stem, List.map_append, texts, List.foldl_append, List.foldl_append, start,
    foldl_ahead_names names, base]
  congr 1
  rcases Nat.mod_two_eq_zero_or_one p.trail.climb with h | h <;> rw [h] <;> rfl

theorem locate_join_eq (normal : p.normalize = p) (hn : IsName file) {loc : Location}
    (h : d.locate (p.join file) = .ok loc) : loc = (d.spot file p).2.2 := by
  rw [locate, start_join hn, Path.segments_join normal hn] at h
  obtain ⟨-, -, walked⟩ := bind_eq_ok.mp h
  rw [walk_eq_ahead walked, List.foldl_append, foldl_trunk]
  exact ahead_name hn _

/-- A document in a directory takes up a node of the disk. -/
theorem mem_nodes_of_exists (normal : p.normalize = p) (hn : IsName file)
    (h : d.exists? (p.join file) = true) : (d.spot file p).2.2 ∈ d.nodes.map Prod.fst := by
  rw [exists?] at h
  cases hs : d.stat (p.join file) with
  | error e => rw [hs] at h; cases h
  | ok node =>
      obtain ⟨loc, located, there⟩ := bind_eq_ok.mp hs
      rw [← locate_join_eq normal hn located]
      have named : Named loc := by
        rw [locate_join_eq normal hn located]
        refine named_snoc _ ?_
        rintro rfl
        exact absurd hn.nontrivial (by decide)
      rw [node?, if_neg named] at there
      cases hl : d.nodes.lookup loc with
      | none => rw [hl] at there; cases there
      | some found =>
          obtain ⟨l₁, l₂, hnodes, -⟩ := List.lookup_eq_some_iff.mp hl
          simp [hnodes]

theorem spot_injective (hp : p.normalize = p) (hq : q.normalize = q)
    (h : d.spot file p = d.spot file q) : p = q := by
  obtain ⟨absolute, rest⟩ := Prod.mk.inj h
  obtain ⟨up, loc⟩ := Prod.mk.inj rest
  have parity : p.trail.climb % 2 = q.trail.climb % 2 := by
    have up := decide_eq_decide.mp up
    omega
  have below : p.trail.below = q.trail.below := by
    rw [absolute, up] at loc
    exact List.reverse_inj.mp (List.append_cancel_left (List.append_cancel_right loc))
  rw [← hp, ← hq]
  exact (Path.normalize_eq_iff p q).mpr ⟨absolute, parity, below⟩

/-- The spots where there is a node. -/
def spots (d : Disk) : List (Bool × Bool × Location) :=
  [true, false] ×ˢ [true, false] ×ˢ d.nodes.map Prod.fst

theorem length_spots (d : Disk) : d.spots.length = 4 * d.nodes.length := by
  simp only [spots, List.length_product, List.length_map, List.length_cons, List.length_nil]
  omega

theorem spot_mem_spots (normal : p.normalize = p) (hn : IsName file)
    (h : d.exists? (p.join file) = true) : d.spot file p ∈ d.spots := by
  have bool (b : Bool) : b ∈ [true, false] := by cases b <;> decide
  refine List.mem_product.mpr ⟨bool _, List.mem_product.mpr ⟨bool _, ?_⟩⟩
  exact mem_nodes_of_exists normal hn h

/-- A place that has a document under a name. -/
def Documented (d : Disk) (file : String) (p : Path) : Prop :=
  p.normalize = p ∧ d.exists? (p.join file) = true

/-- There are four times as many places with documents as there are nodes, at most. -/
theorem length_le_of_documented (hn : IsName file) {ps : List Path} (distinct : ps.Nodup)
    (h : ∀ p ∈ ps, d.Documented file p) : ps.length ≤ 4 * d.nodes.length := by
  have nodup : (ps.map (d.spot file)).Nodup :=
    distinct.map_on fun p hp q hq same => spot_injective (h p hp).1 (h q hq).1 same
  have sub : ps.map (d.spot file) ⊆ d.spots := by
    intro spot hspot
    obtain ⟨p, hp, rfl⟩ := List.mem_map.mp hspot
    exact spot_mem_spots (h p hp).1 hn (h p hp).2
  have le := (nodup.subperm sub).length_le
  rwa [List.length_map, length_spots] at le

/-- The places with documents can be listed. -/
theorem documented_cover (hn : IsName file) (d : Disk) :
    ∃ cover : List Path, ∀ p, d.Documented file p → p ∈ cover := by
  have finite : {p | d.Documented file p}.Finite := by
    refine Set.Finite.of_finite_image (f := d.spot file) ?_ ?_
    · refine d.spots.finite_toSet.subset ?_
      rintro - ⟨p, hp, rfl⟩
      exact spot_mem_spots hp.1 hn hp.2
    · exact fun p hp q hq same => spot_injective hp.1 hq.1 same
  obtain ⟨cover, hcover⟩ := finite.exists_finset
  exact ⟨cover.toList, fun p hp => Finset.mem_toList.mpr ((hcover p).mpr hp)⟩

end Lineage.Disk
