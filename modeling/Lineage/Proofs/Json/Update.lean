import Lineage.Proofs.Json.Tree

/-!
Writing at a key path as an update of nested maps. What is written is read back, a later write hides
an earlier one, a write of what is there changes nothing, and no path beside notices. Every map on the
way keeps its keys in their order and gets at most one more, at its end.
-/
namespace Lineage

namespace Json

open Params

/-- What a key path leads to through maps alone. A key that a map lacks leads nowhere. -/
def through? : Json → List String → Option Json
  | value, [] => some value
  | obj fields, key :: rest => (Table.get? fields key).bind fun value => value.through? rest
  | _, _ :: _ => none

/-- The keys of the map that a key path leads to, in order; none where there is no map. -/
def keysAt (doc : Json) (above : List String) : List String :=
  ((doc.through? above).bind obj?).elim [] Table.keys

variable {tree : Params} {key next : String} {rest keys above : List String} {value other : Json}

/-! ### Maps and the maps in them -/

@[simp] theorem through?_nil (doc : Json) : doc.through? [] = some doc := by cases doc <;> rfl

theorem through?_obj_cons (fields : Params) (key : String) (keys : List String) :
    (obj fields).through? (key :: keys) = (Table.get? fields key).bind (·.through? keys) := rfl

theorem keysAt_nil (fields : Params) : (obj fields).keysAt [] = Table.keys fields := rfl

theorem child_insert (tree : Params) (key : String) (fields : Params) :
    child (Table.insert tree key (.obj fields)) key = fields := by
  rw [child, Table.get?_insert_self]

/-- The writer goes on in the map under a key, and in an empty one where a path leads nowhere. -/
theorem through?_child (tree : Params) (key next : String) (keys : List String) :
    (obj (child tree key)).through? (next :: keys) = (obj tree).through? (key :: next :: keys) := by
  rw [through?_obj_cons tree, child]
  cases Table.get? tree key with
  | none => rfl
  | some held => cases held <;> rfl

theorem keysAt_child (tree : Params) (key : String) (above : List String) :
    (obj (child tree key)).keysAt above = (obj tree).keysAt (key :: above) := by
  cases above with
  | nil =>
      rw [keysAt_nil, keysAt, through?_obj_cons, child]
      cases Table.get? tree key with
      | none => rfl
      | some held => cases held <;> rfl
  | cons next above => rw [keysAt, keysAt, through?_child]

/-- A path that goes on below a key goes on in a map. -/
theorem get?_of_through? (leads : (obj tree).through? (key :: next :: rest) = some value) :
    Table.get? tree key = some (.obj (child tree key)) := by
  rw [through?_obj_cons] at leads
  rw [child]
  cases found : Table.get? tree key with
  | none =>
      rw [found] at leads
      cases leads
  | some held =>
      rw [found] at leads
      cases held with
      | obj fields => rfl
      | null | bool _ | int _ | float _ | str _ | arr _ => cases leads

/-! ### Writing below a key -/

theorem readAt_writeBelow (tree : Params) (key : String) (rest : List String) (value : Json) :
    (obj (tree.writeBelow key rest value)).readAt (key :: rest) = .ok value := by
  induction rest generalizing tree key with
  | nil => rw [writeBelow, readAt_obj_cons, Table.get?_insert_self, Option.getD_some, readAt_nil]
  | cons next rest ih =>
      rw [writeBelow, readAt_obj_cons, Table.get?_insert_self, Option.getD_some, ih]

theorem writeBelow_writeBelow (tree : Params) (key : String) (rest : List String)
    (value other : Json) :
    (tree.writeBelow key rest value).writeBelow key rest other = tree.writeBelow key rest other := by
  induction rest generalizing tree key with
  | nil => exact Table.insert_insert_self tree key value other
  | cons next rest ih =>
      rw [writeBelow, writeBelow, child_insert, ih, Table.insert_insert_self, writeBelow]

theorem writeBelow_of_through? (leads : (obj tree).through? (key :: rest) = some value) :
    tree.writeBelow key rest value = tree := by
  induction rest generalizing tree key with
  | nil =>
      rw [through?_obj_cons] at leads
      obtain ⟨held, found, same⟩ := Option.bind_eq_some_iff.mp leads
      rw [through?_nil] at same
      rw [writeBelow, ← Option.some.inj same, Table.insert_of_get? found]
  | cons next rest ih =>
      have found := get?_of_through? leads
      rw [← through?_child] at leads
      rw [writeBelow, ih leads, Table.insert_of_get? found]

theorem through?_writeBelow_aside (aside : Aside (key :: rest) keys) :
    (obj (tree.writeBelow key rest value)).through? keys = (obj tree).through? keys := by
  induction rest generalizing tree key keys with
  | nil =>
      cases keys with
      | nil => exact absurd List.nil_prefix aside.2
      | cons k keys =>
          have ne : key ≠ k := by
            rintro rfl
            exact aside.1 (List.cons_prefix_cons.mpr ⟨rfl, List.nil_prefix⟩)
          rw [writeBelow, through?_obj_cons, through?_obj_cons, Table.get?_insert, if_neg ne]
  | cons next rest ih =>
      cases keys with
      | nil => exact absurd List.nil_prefix aside.2
      | cons k keys =>
          rw [writeBelow, through?_obj_cons, Table.get?_insert]
          split
          · rename_i same
            subst same
            cases keys with
            | nil => exact absurd List.nil_prefix aside.tail.2
            | cons k keys => rw [Option.bind_some, ih aside.tail, through?_child]
          · rfl

/-- A map on the way gets the key that the path goes on with, at its end, if it does not have it. -/
theorem keysAt_writeBelow (on : above ++ [next] <+: key :: rest) :
    (obj (tree.writeBelow key rest value)).keysAt above =
      if next ∈ (obj tree).keysAt above then (obj tree).keysAt above
      else (obj tree).keysAt above ++ [next] := by
  induction above generalizing tree key rest with
  | nil =>
      obtain rfl : next = key := (List.cons_prefix_cons.mp on).1
      rw [keysAt_nil, keysAt_nil]
      cases rest <;> rw [writeBelow, Table.keys_insert]
  | cons k above ih =>
      rw [List.cons_append, List.cons_prefix_cons] at on
      obtain ⟨rfl, on⟩ := on
      cases rest with
      | nil => simp at on
      | cons step rest =>
          rw [writeBelow, ← keysAt_child, child_insert, ih on, keysAt_child]

/-! ### Writing at a key path -/

/-- A write at a key path that is not empty is taken. The value is what is read there afterwards, and
no trace of it is left by another write there; if it was there, through maps, the tree is as it was.
What other paths lead to through maps is the same, unless one of the two leads on to the other. And
all maps on the way keep their keys in place, with the next key of the path after them at most. -/
theorem writeAt?_updates (tree : Params) (key : String) (rest : List String) (value other : Json) :
    ∃ tree', tree.writeAt? (key :: rest) value = some tree' ∧
      (obj tree').readAt (key :: rest) = .ok value ∧
      tree'.writeAt? (key :: rest) other = tree.writeAt? (key :: rest) other ∧
      ((obj tree).through? (key :: rest) = some value → tree' = tree) ∧
      (∀ keys, Aside (key :: rest) keys → (obj tree').through? keys = (obj tree).through? keys) ∧
      ∀ above next, above ++ [next] <+: key :: rest → (obj tree').keysAt above =
        if next ∈ (obj tree).keysAt above then (obj tree).keysAt above
        else (obj tree).keysAt above ++ [next] :=
  ⟨tree.writeBelow key rest value, rfl, readAt_writeBelow tree key rest value,
    congrArg some (writeBelow_writeBelow tree key rest value other), writeBelow_of_through?,
    fun _ aside => through?_writeBelow_aside aside, fun _ _ on => keysAt_writeBelow on⟩

namespace Sample

def sheet : Params := [("other", .bool true), ("inner", .obj [("size", .int 1), ("rest", .arr [])])]

/-- A value that is written where it stands is kept with all that is beside it; another one takes
its place among the keys. -/
theorem size_written :
    ((obj sheet).through? ["inner", "size"] = some (.int 1) ∧
      sheet.writeAt? ["inner", "size"] (.int 1) = some sheet) ∧
    Aside ["inner", "size"] ["other"] ∧ ["inner"] ++ ["size"] <+: ["inner", "size"] ∧
    ∃ tree', sheet.writeAt? ["inner", "size"] (.int 2) = some tree' ∧
      (obj tree').readAt ["inner", "size"] = .ok (.int 2) ∧
      (obj tree').through? ["other"] = some (.bool true) ∧
      (obj tree').keysAt ["inner"] = ["size", "rest"] := by
  have aside : Aside ["inner", "size"] ["other"] := ⟨by decide, by decide⟩
  have on : ["inner"] ++ ["size"] <+: ["inner", "size"] := List.prefix_rfl
  obtain ⟨same, written, -, -, kept, -⟩ := writeAt?_updates sheet "inner" ["size"] (.int 1) .null
  obtain rfl := kept rfl
  obtain ⟨tree', written', reads, -, -, beside, ordered⟩ :=
    writeAt?_updates sheet "inner" ["size"] (.int 2) .null
  exact ⟨⟨rfl, written⟩, aside, on, tree', written', reads, beside _ aside, ordered _ _ on⟩

end Sample

end Json
end Lineage
