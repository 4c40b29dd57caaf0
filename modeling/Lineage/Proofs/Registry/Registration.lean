import Lineage.Proofs.Registry.Identity
import Lineage.Proofs.Registry.Stability

/-!
What a registration is good for. A registered entry is the one found by its name, and by its path if
that is spelled without parts to fold; it stays so until another one is registered in its place. An
entry is registered under its path as it is spelled, but looked up under the normal form of it, so
with parts to fold its registration is not seen by path.
-/
namespace Lineage

open World Action

/-- Slashes and inner points apart, a path is spelled as its normal form is. -/
def Path.Unfolded (p : Path) : Prop := p.normalize.components = p.components

theorem Path.normalize_congr {p q : Path} (h : p.components = q.components) :
    p.normalize = q.normalize := by
  rw [normalize, normalize, h]

namespace Registry

/-- What comes after a world while nobody is registered but `others`: uses of the registry in any
order, new entries, and registrations of these. -/
inductive Onward (r : Registry) (others : Entry → Prop) (w₀ : World) : World → Prop
  | refl : Onward r others w₀ w₀
  | use {w w'} (before : Onward r others w₀ w) (h : Use r w w') : Onward r others w₀ w'
  | create {w} (before : Onward r others w₀ w) (path : Path) (name : String) (cells : Cells)
      (own : ∀ params, cells.own = some params → Table.Distinct params)
      (parent : ∀ p, cells.parent = some (some p) → w.Holds p) :
      Onward r others w₀ (after (Registry.create path name cells) w)
  | register {w e} (before : Onward r others w₀ w) (held : w.Holds e) (other : others e) :
      Onward r others w₀ (after (Registry.register e) w)

variable {r : Registry} {e : Entry} {w w₀ : World} {others : Entry → Prop}

theorem Onward.sound (h : Onward r others w₀ w) (sound : w₀.Sound) : w.Sound := by
  induction h with
  | refl => exact sound
  | use _ h ih => exact (h.follows frame_remembers ih fun e _ => bears_remembers e).2
  | create _ _ _ _ own parent ih => exact ih.append own parent
  | register _ held _ ih => exact (register_along _ _ ih held).2.1

theorem Onward.steady (h : Onward r others w₀ w) (sound : w₀.Sound) : w₀.Steady w := by
  induction h with
  | refl => exact frame_steady.refl w₀
  | use before h ih =>
      exact frame_steady.trans ih
        (h.follows frame_steady (before.sound sound) fun e _ => bears_steady e).1
  | create before path name cells own parent ih =>
      have move : Move r _ _ := .create path name cells own parent
      exact frame_steady.trans ih (move.steady (before.sound sound))
  | register before held _ ih =>
      have move : Move r _ _ := .register _ held
      exact frame_steady.trans ih (move.steady (before.sound sound))

theorem byPath_register (e : Entry) (w : World) :
    (after (register e) w).byPath = Table.insert w.byPath e.path.components e := rfl

theorem byName_register (e : Entry) (w : World) :
    (after (register e) w).byName = Table.insert w.byName e.name e := rfl

/-- An entry keeps its row in a table while whoever is registered has another row or is itself. -/
theorem Onward.keeps {κ : Type} [DecidableEq κ] {table : World → Table κ Entry} {key : Entry → κ}
    {row : κ} (remembered : ∀ {u u'}, u.Remembers u' → Table.get? (table u) row = some e →
      Table.get? (table u') row = some e)
    (created : ∀ path name cells u, table (after (Registry.create path name cells) u) = table u)
    (registered : ∀ x u,
      table (after (Registry.register x) u) = Table.insert (table u) (key x) x)
    (h : Onward r (fun x => x = e ∨ key x ≠ row) w₀ w) (sound : w₀.Sound)
    (known : Table.get? (table w₀) row = some e) : Table.get? (table w) row = some e := by
  induction h with
  | refl => exact known
  | use before h ih =>
      exact remembered
        (h.follows frame_remembers (before.sound sound) fun e _ => bears_remembers e).1 ih
  | create _ _ _ _ _ _ ih => rwa [created]
  | register _ _ other ih =>
      rw [registered, Table.get?_insert]
      split
      · rename_i same
        rw [other.resolve_right fun ne => ne same]
      · exact ih

theorem Onward.mono {others' : Entry → Prop} (h : Onward r others w₀ w)
    (sub : ∀ x, others x → others' x) : Onward r others' w₀ w := by
  induction h with
  | refl => exact .refl
  | use _ h ih => exact ih.use h
  | create _ path name cells own parent ih => exact ih.create path name cells own parent
  | register _ held other ih => exact ih.register held (sub _ other)

/-- A registration under a place other than the normal one of a path makes no difference to it. -/
theorem byPath_after_register {p : Path} (other : e.path.components ≠ p.normalize.components)
    (w : World) : value (byPath p) (after (register e) w) = value (byPath p) w := by
  have same : Table.get? (after (register e) w).byPath p.normalize.components =
      Table.get? w.byPath p.normalize.components := by
    rw [byPath_register, Table.get?_insert, if_neg other]
  cases found : Table.get? w.byPath p.normalize.components with
  | some x => rw [value, value, byPath_of_known found, byPath_of_known (same.trans found)]
  | none =>
      rw [value, value, byPath_of_unknown found, byPath_of_unknown (same.trans found)]
      rfl

/-- Registered in any state of a registry, an entry is the one that is known by its name, and stays
so until another one of the name is registered. If its path has no parts to fold, it is also the one
at its path, and stays so until another one with that normal path is registered. With parts to fold,
what is at its path is what was there before. -/
theorem registered_is_found (session : Session r w) (held : w.Holds e) :
    (∀ w', Onward r (fun x => x = e ∨ x.name ≠ e.name) (after (register e) w) w' →
      cached e.name w' = .ok (some e) w') ∧
    (e.path.Unfolded →
      ∀ w', Onward r (fun x => x = e ∨ x.path.normalize ≠ e.path.normalize)
          (after (register e) w) w' → byPath e.path w' = .ok e w') ∧
    (¬ e.path.Unfolded → value (byPath e.path) (after (register e) w) = value (byPath e.path) w) := by
  have sound : (after (register e) w).Sound := (register_along e w session.sound held).2.1
  refine ⟨fun w' onward => ?_, fun unfolded w' onward => ?_, fun folded => ?_⟩
  · have known : Table.get? (after (register e) w).byName e.name = some e :=
      Table.get?_insert_self _ _ _
    have kept := onward.keeps (fun recalls => recalls.name _ _) (fun _ _ _ _ => rfl)
      byName_register sound known
    rw [cached_apply, kept]
  · have known : Table.get? (after (register e) w).byPath e.path.components = some e :=
      Table.get?_insert_self _ _ _
    have apart := onward.mono fun x other =>
      other.imp_right fun ne same => ne (Path.normalize_congr same)
    have kept := apart.keeps (fun recalls => recalls.path _ _) (fun _ _ _ _ => rfl)
      byPath_register sound known
    exact byPath_of_known (unfolded ▸ kept)
  · exact byPath_after_register (Ne.symm folded) w

namespace Sample

/-- The world of the sample after its lower entry was registered, another path was looked up and its
upper entry was registered. -/
def lowerThenUpper : World :=
  after (register upper) (after (registry.answer (.byPath ⟨"upper/x"⟩))
    (after (register lower) world))

theorem lower_registered : Session registry world ∧ world.Holds lower ∧ lower.path.Unfolded ∧
    cached "lower" lowerThenUpper = .ok (some lower) lowerThenUpper ∧
    byPath ⟨"lower"⟩ lowerThenUpper = .ok lower lowerThenUpper := by
  have unfolded : lower.path.Unfolded := by
    rw [Path.Unfolded]
    decide
  have onward {others : Entry → Prop} (other : others upper) :
      Onward registry others (after (register lower) world) lowerThenUpper := by
    refine .register (.use .refl (.request (.byPath ⟨"upper/x"⟩))) ?_ other
    rw [World.Holds]
    decide
  obtain ⟨byName, byPath, -⟩ := registered_is_found session holds_lower
  exact ⟨session, holds_lower, unfolded, byName _ (onward (.inr (by decide))),
    byPath unfolded _ (onward (.inr (by decide)))⟩

def pointed : Entry := ⟨0, ⟨"./x"⟩, "x"⟩

/-- Registered under a path that begins with a point, an entry is not the one at that path. -/
theorem pointed_not_found : ∃ w other, Session registry w ∧ w.Holds pointed ∧
    value (byPath pointed.path) (after (register pointed) w) = .ok other ∧ other ≠ pointed := by
  have empty : Session registry { disk := ⟨[], []⟩ } :=
    .start (show ofConfig { collections := [] } ⟨"."⟩ [] [.ofList "entry" "" [echo "show"]]
      { disk := ⟨[], []⟩ } = .ok registry _ from rfl)
  refine ⟨_, ⟨1, ⟨"x"⟩, "x"⟩, empty.move (.create ⟨"./x"⟩ "x" {} (by simp) (by simp)), ?_, rfl, ?_⟩
  · rw [World.Holds]
    decide
  · decide

end Sample

end Registry
end Lineage
