import Lineage.Json.Tree
import Lineage.Proofs.Table

/-!
Writing into nested maps leaves alone what is read beside the place that is written, as long as the
way to it is through maps. Where the reader passes a list, the writer puts a map in place of it.
-/
namespace Lineage.Json

open Params

/-- Of two key paths none leads on to the other. -/
def Aside (place keys : List String) : Prop := ¬ place <+: keys ∧ ¬ keys <+: place

/-- Two key paths are together in maps only: no list stands where both still lead. -/
def PartInMaps (doc : Json) (place keys : List String) : Prop :=
  ∀ common, common <+: place → common <+: keys → ∀ items, doc.readAt common ≠ .ok (.arr items)

variable {tree : Params} {key : String} {rest keys : List String} {doc value held : Json}

theorem Aside.tail (h : Aside (key :: rest) (key :: keys)) : Aside rest keys :=
  ⟨fun p => h.1 (List.cons_prefix_cons.mpr ⟨rfl, p⟩), fun p => h.2 (List.cons_prefix_cons.mpr ⟨rfl, p⟩)⟩

@[simp] theorem readAt_nil (doc : Json) : doc.readAt [] = .ok doc := by cases doc <;> rfl

theorem readAt_obj_cons (fields : Params) (key : String) (keys : List String) :
    (Json.obj fields).readAt (key :: keys) = ((Table.get? fields key).getD (.obj [])).readAt keys :=
  rfl

/-- The map that the writer goes on in is what the reader finds, where the place is read. -/
theorem child_eq_found {next : String} (reads : (Json.obj tree).readAt (key :: next :: rest) = .ok held)
    (map : ∀ items, (Json.obj tree).readAt [key] ≠ .ok (.arr items)) :
    Json.obj (child tree key) = (Table.get? tree key).getD (.obj []) := by
  rw [readAt_obj_cons] at reads
  rw [child]
  cases found : Table.get? tree key with
  | none => rfl
  | some x =>
      rw [found] at reads
      cases x with
      | obj fields => rfl
      | arr items =>
          refine absurd ?_ (map items)
          rw [readAt_obj_cons, found, Option.getD_some, readAt_nil]
      | null | bool _ | int _ | float _ | str _ => cases reads

theorem readAt_writeBelow_aside (reads : (Json.obj tree).readAt (key :: rest) = .ok held)
    (aside : Aside (key :: rest) keys) (part : (Json.obj tree).PartInMaps (key :: rest) keys) :
    (Json.obj (tree.writeBelow key rest value)).readAt keys = (Json.obj tree).readAt keys := by
  induction rest generalizing tree key keys with
  | nil =>
      cases keys with
      | nil => exact absurd List.nil_prefix aside.2
      | cons k keys =>
          have ne : key ≠ k := by
            rintro rfl
            exact aside.1 (List.cons_prefix_cons.mpr ⟨rfl, List.nil_prefix⟩)
          rw [writeBelow, readAt_obj_cons, readAt_obj_cons, Table.get?_insert, if_neg ne]
  | cons next rest ih =>
      cases keys with
      | nil => exact absurd List.nil_prefix aside.2
      | cons k keys =>
          rw [writeBelow, readAt_obj_cons, readAt_obj_cons, Table.get?_insert]
          split
          · rename_i same
            subst same
            have below {common : List String} (hp : common <+: next :: rest) (hk : common <+: keys) :
                ∀ items, (Json.obj tree).readAt (key :: common) ≠ .ok (.arr items) :=
              part _ (List.cons_prefix_cons.mpr ⟨rfl, hp⟩) (List.cons_prefix_cons.mpr ⟨rfl, hk⟩)
            have same := child_eq_found reads (below List.nil_prefix List.nil_prefix)
            rw [readAt_obj_cons, ← same] at reads
            rw [Option.getD_some, ← same]
            refine ih reads aside.tail fun common hp hk => ?_
            rw [same, ← readAt_obj_cons]
            exact below hp hk
          · rfl

end Lineage.Json
