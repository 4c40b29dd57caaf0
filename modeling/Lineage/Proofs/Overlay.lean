import Lineage.Pipeline.Step
import Lineage.Proofs.Table

/-!
Laying tables upon each other as an operation of its own. The empty table is its unit, the grouping
of several layers does not matter, and a layer that is there already adds nothing. Keys stand in the
order in which the layers brought them. A map that is written at the empty key path is laid on the tree.
-/
namespace Lineage

namespace Table

variable {κ α : Type} [DecidableEq κ] {t middle upper : Table κ α}

theorem overlay_assoc (lower : Table κ α) (h : Distinct middle) (upper : Table κ α) :
    overlay (overlay lower middle) upper = overlay lower (overlay middle upper) := by
  induction upper generalizing middle with
  | nil => rfl
  | cons field upper ih =>
      obtain ⟨k, v⟩ := field
      rw [overlay_cons, overlay_cons, ← overlay_insert lower h, ih (h.insert k v)]

theorem overlay_of_found (found : ∀ field ∈ upper, get? t field.1 = some field.2) :
    overlay t upper = t := by
  induction upper with
  | nil => rfl
  | cons field upper ih =>
      obtain ⟨here, later⟩ := List.forall_mem_cons.mp found
      obtain ⟨k, v⟩ := field
      rw [overlay_cons, insert_of_get? here, ih later]

theorem overlay_self (h : Distinct t) : overlay t t = t :=
  overlay_of_found fun _ mem => (get?_eq_some_iff h).mpr mem

/-- The keys of `t` in order, and then those of `upper` that it lacks, in order. -/
theorem keys_overlay_of_distinct (h : Distinct t) (hu : Distinct upper) :
    keys (overlay t upper) = keys t ++ (keys upper).filter fun key => key ∉ keys t := by
  have new : (keys upper).removeAll (keys t) = (keys upper).filter fun key => key ∉ keys t := by
    simp [List.removeAll]
  rw [keys_overlay h, List.eraseDups_append, new, eraseDups_of_nodup h,
    eraseDups_of_nodup (List.Nodup.filter _ hu)]

end Table

namespace Params

open Table

/-- Tables with distinct keys are a monoid under overlaying, with keys in their order, and a table
laid on again adds nothing. Of two tables the upper one decides under its keys, and the keys of the
lower one come first. At the empty key path a tree takes maps alone, and has them laid on. -/
theorem overlay_monoid {a b : Params} (ha : Distinct a) (hb : Distinct b) (c : Params) :
    (Distinct (overlay a b) ∧ overlay (overlay a b) c = overlay a (overlay b c) ∧
      overlay [] a = a ∧ overlay a [] = a) ∧
    (overlay a a = a ∧ overlay (overlay a b) b = overlay a b) ∧
    (keys (overlay a b) = keys a ++ ((keys b).filter fun key => key ∉ keys a) ∧
      ∀ key, get? (overlay a b) key = (get? b key).or (get? a key)) ∧
    a.writeAt? [] (.obj b) = some (overlay a b) ∧
    ∀ value, (∀ fields, value ≠ .obj fields) →
      a.writeAt? [] value = none ∧ Step.assign a [] value = a := by
  refine ⟨⟨ha.overlay b, overlay_assoc a hb c, ofFields_of_distinct ha, rfl⟩, ⟨overlay_self ha, ?_⟩,
    ⟨keys_overlay_of_distinct ha hb, get?_overlay a hb⟩, rfl, fun value nomap => ?_⟩
  · rw [overlay_assoc a hb b, overlay_self hb]
  · have refused : a.writeAt? [] value = none := by
      cases value with
      | obj fields => exact absurd rfl (nomap fields)
      | null | bool _ | int _ | float _ | str _ | arr _ => rfl
    exact ⟨refused, by rw [Step.assign, refused, Option.getD_none]⟩

namespace Sample

def inherited : Params := [("size", .int 1), ("color", .str "red")]

def own : Params := [("color", .str "blue"), ("kind", .null)]

def given : Params := [("kind", .bool true), ("size", .int 2)]

theorem layers_regrouped : Distinct inherited ∧ Distinct own ∧
    overlay (overlay inherited own) given = overlay inherited (overlay own given) ∧
    keys (overlay inherited own) = ["size", "color"] ++ ["kind"] ∧
    get? (overlay inherited own) "color" = some (.str "blue") ∧
    (∀ fields, Json.null ≠ .obj fields) ∧ Step.assign inherited [] .null = inherited := by
  have distinct : Distinct inherited ∧ Distinct own := by
    rw [Distinct, Distinct]
    decide
  have nomap : ∀ fields, Json.null ≠ .obj fields := by
    intro fields same
    cases same
  obtain ⟨⟨-, regrouped, -, -⟩, -, ⟨ordered, found⟩, -, refused⟩ :=
    overlay_monoid distinct.1 distinct.2 given
  exact ⟨distinct.1, distinct.2, regrouped, ordered, found "color", nomap, (refused _ nomap).2⟩

end Sample

end Params
end Lineage
