import Lineage.Proofs.Join

/-!
Normal paths as keys of places. A normal path is its own normal form, is spelled without points and
without a step up below a name, and starts where the path starts. Where a path leads from there on
depends only on its names and on the parity of its climb, which normalizing keeps; so what is joined to
a path has the normal form that it has when it is joined to the normal path.
-/
namespace Lineage

namespace Trail

/-- Trails that no normal form tells apart. -/
def Alike (t u : Trail) : Prop := t.climb % 2 = u.climb % 2 ∧ t.below = u.below

variable {t u : Trail}

theorem Alike.step (h : t.Alike u) (c : Component) : (t.step c).Alike (u.step c) := by
  obtain ⟨climb, below⟩ := t
  obtain ⟨climb', below'⟩ := u
  obtain ⟨hc, rfl⟩ : climb % 2 = climb' % 2 ∧ below = below' := h
  cases c with
  | root | here | name s => exact ⟨hc, rfl⟩
  | up =>
      cases below with
      | nil =>
          have more : (climb + 1) % 2 = (climb' + 1) % 2 := by omega
          exact ⟨more, rfl⟩
      | cons s outer => exact ⟨hc, rfl⟩

theorem Alike.foldl (h : t.Alike u) (cs : List Component) :
    (cs.foldl Trail.step t).Alike (cs.foldl Trail.step u) := by
  induction cs generalizing t u with
  | nil => exact h
  | cons c cs ih => exact ih (h.step c)

end Trail

namespace Path

/-! ### What a normal path is -/

theorem here_not_mem_normalize (p : Path) : .here ∉ p.normalize.components := by
  rw [components_normalize, normalStack_reverse]
  cases p.isAbsolute <;> simp

theorem point_not_mem_normalize (p : Path) : "." ∉ p.normalize.segments := by
  have trunk : "." ∉ p.normalize.trunk := by
    intro mem
    rcases List.mem_append.mp mem with mem | mem
    · cases ha : p.normalize.isAbsolute <;> simp [ha] at mem
    · obtain ⟨c, hc, text⟩ := List.mem_map.mp mem
      have nontrivial := (spelled_stem p.normalize).nontrivial c hc
      rw [text] at nontrivial
      cases nontrivial
  rcases segments_of_normal (normalize_normalize p) with spell | spell <;> simp [spell, trunk]

/-- From the outside in, a normal path has no step up after a name. -/
theorem pairwise_normalize (p : Path) : p.normalize.components.Pairwise fun outer inner =>
    ∀ s, outer = .name s → inner ≠ .up := by
  have climb : ∀ c ∈ (if p.isAbsolute then [Component.root] else []) ++
      List.replicate (p.trail.climb % 2) .up, ∀ s, c ≠ .name s := by
    rintro c hc s rfl
    cases ha : p.isAbsolute <;> simp [ha] at hc
  have names : ∀ c ∈ p.trail.below.reverse.map Component.name, c ≠ .up := by simp
  rw [components_normalize, normalStack_reverse, ← List.append_assoc, List.pairwise_append]
  exact ⟨List.pairwise_of_forall_mem_list fun c hc _ _ s named => absurd named (climb c hc s),
    List.pairwise_of_forall_mem_list fun _ _ c hc _ _ => names c hc, fun _ _ c hc _ _ => names c hc⟩

/-! ### What it keeps of the path -/

theorem isAbsolute_normalize (p : Path) : p.normalize.isAbsolute = p.isAbsolute := by
  rw [Bool.eq_iff_iff, isAbsolute_iff_root, components_normalize, List.mem_reverse,
    root_mem_normalStack]

theorem trail_normalize (p : Path) : p.normalize.trail = ⟨p.trail.climb % 2, p.trail.below⟩ := by
  have start (absolute : Bool) :
      (if absolute then [Component.root] else []).foldl Trail.step {} = {} := by
    cases absolute <;> rfl
  rw [trail, components_normalize, normalStack_reverse, List.foldl_append, start, List.foldl_append,
    foldl_step_up, Nat.zero_add, foldl_step_names]

theorem alike_normalize (p : Path) : p.normalize.trail.Alike p.trail := by
  rw [trail_normalize]
  exact ⟨Nat.mod_mod _ _, rfl⟩

theorem normalize_join_normalize (p : Path) (r : String) :
    (p.normalize.join r).normalize = (p.join r).normalize := by
  cases absolute : isAbsolute ⟨r⟩ with
  | true => rw [join, join, absolute, if_pos rfl, if_pos rfl]
  | false =>
      refine (normalize_eq_iff _ _).mpr ⟨?_, ?_⟩
      · rw [isAbsolute_join absolute, isAbsolute_join absolute, isAbsolute_normalize]
      · rw [trail_eq, trail_eq, body_join absolute, body_join absolute, List.foldl_append,
          List.foldl_append, ← trail_eq, ← trail_eq]
        exact (alike_normalize p).foldl _

/-- A normal path is its own normal form, is spelled without points and has no step up after a name.
It starts where the path starts and goes down the same names, and any text joined to it has the normal
form that it has joined to the path. -/
theorem normalize_canonical (p : Path) (r : String) :
    p.normalize.normalize = p.normalize ∧
    (.here ∉ p.normalize.components ∧ "." ∉ p.normalize.segments) ∧
    (p.normalize.components.Pairwise fun outer inner => ∀ s, outer = .name s → inner ≠ .up) ∧
    (p.normalize.isAbsolute = p.isAbsolute ∧ p.normalize.trail.below = p.trail.below) ∧
    (p.join r).normalize = (p.normalize.join r).normalize :=
  ⟨normalize_normalize p, ⟨here_not_mem_normalize p, point_not_mem_normalize p⟩,
    pairwise_normalize p, ⟨isAbsolute_normalize p, (alike_normalize p).2⟩,
    (normalize_join_normalize p r).symm⟩

example : normalize (join ⟨"a/./b/../c/"⟩ "../../../d/.") = ⟨"../d"⟩ := by decide

end Path
end Lineage
