import Lineage.Proofs.Execution.Restart
import Lineage.Proofs.Json.Tree

/-!
References into outcomes, and paths into documents. From an outcome that holds no entries, the keys of
a reference lead where they lead in the document that the outcome is written as. The two part in one
case: a key that a map lacks ends a reference, whereas a path goes on in an empty map.
-/
namespace Lineage

theorem element_map {α β : Type} (f : α → β) (items : List α) (key : String) :
    element (items.map f) key = (element items key).map f := by
  rw [element, element]
  cases index? key with
  | none => rfl
  | some i =>
      simp only [List.getElem?_map, List.length_map]
      cases items[i]? <;> rfl

theorem mem_of_element {α : Type} {items : List α} {item : α} {key : String}
    (h : element items key = .ok item) : item ∈ items := by
  rw [element] at h
  split at h
  · cases h
  · split at h <;> cases h
    exact List.mem_of_getElem? ‹_›

/-! ### Keys that maps lack -/

namespace Json

/-- On the way along `keys` there is a map that lacks `key`, where `key` is to be followed. -/
def Lacks (doc : Json) (keys : List String) (key : String) : Prop :=
  ∃ before after fields, keys = before ++ key :: after ∧
    doc.readAt before = .ok (.obj fields) ∧ Table.get? fields key = none

variable {doc next : Json} {fields : Params} {items : List Json} {key lacked : String}
  {keys : List String} {fault : PathFault}

theorem readAt_arr_cons (items : List Json) (key : String) (keys : List String) :
    (Json.arr items).readAt (key :: keys) = (element items key).bind (·.readAt keys) := by
  rw [readAt]
  cases element items key <;> rfl

theorem readAt_cons (doc : Json) (key : String) (keys : List String) :
    doc.readAt (key :: keys) = (doc.readAt [key]).bind (·.readAt keys) := by
  cases doc with
  | obj fields =>
      rw [readAt_obj_cons, readAt_obj_cons, readAt_nil]
      rfl
  | arr items =>
      rw [readAt_arr_cons, readAt_arr_cons]
      cases element items key with
      | error fault => rfl
      | ok value =>
          change value.readAt keys = (value.readAt []).bind _
          rw [readAt_nil]
          rfl
  | null | bool _ | int _ | float _ | str _ => rfl

theorem lacks_nil : ¬ doc.Lacks [] lacked := by
  rintro ⟨before, after, -, same, -⟩
  cases before <;> cases same

theorem lacks_cons : doc.Lacks (key :: keys) lacked ↔
    (lacked = key ∧ ∃ fields, doc = .obj fields ∧ Table.get? fields key = none) ∨
      ∃ next, doc.readAt [key] = .ok next ∧ next.Lacks keys lacked := by
  constructor
  · rintro ⟨before, after, fields, same, reads, missing⟩
    cases before with
    | nil =>
        cases same
        rw [readAt_nil] at reads
        cases reads
        exact .inl ⟨rfl, fields, rfl, missing⟩
    | cons first before =>
        cases same
        rw [readAt_cons] at reads
        cases here : doc.readAt [key] with
        | error fault =>
            rw [here] at reads
            cases reads
        | ok next =>
            rw [here] at reads
            exact .inr ⟨next, rfl, before, after, fields, rfl, reads, missing⟩
  · rintro (⟨rfl, fields, rfl, missing⟩ | ⟨next, here, before, after, fields, rfl, reads, missing⟩)
    · exact ⟨[], keys, fields, rfl, readAt_nil _, missing⟩
    · refine ⟨key :: before, after, fields, rfl, ?_, missing⟩
      rw [readAt_cons, here]
      exact reads

theorem Lacks.cons (h : doc.Lacks [key] lacked) (keys : List String) :
    doc.Lacks (key :: keys) lacked := by
  rcases lacks_cons.mp h with here | ⟨_, -, lacks⟩
  · exact lacks_cons.mpr (.inl here)
  · exact absurd lacks lacks_nil

/-- Past a key that is there, it is up to the other keys. -/
theorem lacks_cons_of_full (reads : doc.readAt [key] = .ok next)
    (full : ∀ lacked, ¬ doc.Lacks [key] lacked) :
    doc.Lacks (key :: keys) lacked ↔ next.Lacks keys lacked := by
  rw [lacks_cons]
  constructor
  · rintro (⟨rfl, missing⟩ | ⟨_, here, lacks⟩)
    · exact absurd (lacks_cons.mpr (.inl ⟨rfl, missing⟩)) (full lacked)
    · cases reads.symm.trans here
      exact lacks
  · exact fun lacks => .inr ⟨next, reads, lacks⟩

end Json

namespace Outcome

/-- An outcome of data and lists alone. -/
inductive EntryFree : Outcome → Prop
  | data (value : Json) : EntryFree (.data value)
  | list {items : List Outcome} (each : ∀ item ∈ items, EntryFree item) : EntryFree (.list items)

theorem itemsToJson_eq_map (items : List Outcome) : itemsToJson items = items.map toJson := by
  induction items with
  | nil => rfl
  | cons item items ih => rw [itemsToJson, ih, List.map_cons]

theorem toJson_list (items : List Outcome) : (list items).toJson = .arr (items.map toJson) := by
  rw [toJson, itemsToJson_eq_map]

end Outcome

namespace Registry

variable {r : Registry} {reference keys : List String} {key : String} {outcome : Outcome}

/-- How a reference goes along keys from an outcome, and how a path goes along them in the document:
both to one value, the reference only up to a map that lacks a key, or both astray. -/
inductive Descends (reference : List String) (outcome : Outcome) (keys : List String)
    (walk : Action Outcome) : Prop
  | found (v : Outcome) (free : v.EntryFree) (reads : outcome.toJson.readAt keys = .ok v.toJson)
      (full : ∀ key, ¬ outcome.toJson.Lacks keys key) (walks : ∀ w, walk w = .ok v w)
  | lacking (key : String) (lacks : outcome.toJson.Lacks keys key)
      (walks : ∀ w, walk w = .error (unresolved reference s!"no key '{key}'") w)
  | astray (fault : PathFault) (reads : outcome.toJson.readAt keys = .error fault)
      (walks : ∀ w, walk w = .error (unresolved reference fault.message) w)

/-- One key further in data. -/
theorem descends_data (value : Json) (reference : List String) (key : String) :
    Descends reference (.data value) [key] (r.member reference (.data value) key) := by
  have full {value : Json} (map : ∀ fields, value = .obj fields → Table.get? fields key ≠ none)
      (lacked : String) : ¬ value.Lacks [key] lacked := by
    rw [Json.lacks_cons]
    rintro (⟨-, fields, same, missing⟩ | ⟨_, -, lacks⟩)
    · exact map fields same missing
    · exact Json.lacks_nil lacks
  cases value with
  | obj fields =>
      cases held : Table.get? fields key with
      | some value =>
          refine .found (.data value) (.data value) ?_ (full ?_) fun w => ?_
          · change (Json.obj fields).readAt [key] = .ok value
            rw [Json.readAt_obj_cons, held, Option.getD_some, Json.readAt_nil]
          · rintro _ ⟨⟩
            rw [held]
            exact Option.some_ne_none value
          · simp only [member, held]
            rfl
      | none =>
          refine .lacking key (Json.lacks_cons.mpr (.inl ⟨rfl, fields, rfl, held⟩)) fun w => ?_
          simp only [member, held]
          rfl
  | arr items =>
      cases held : element items key with
      | ok value =>
          refine .found (.data value) (.data value) ?_ (full ?_) fun w => ?_
          · change (Json.arr items).readAt [key] = .ok value
            rw [Json.readAt_arr_cons, held]
            exact Json.readAt_nil value
          · rintro _ ⟨⟩
          · simp only [member, held]
            rfl
      | error fault =>
          refine .astray fault ?_ fun w => ?_
          · change (Json.arr items).readAt [key] = .error fault
            rw [Json.readAt_arr_cons, held]
            rfl
          · simp only [member, held]
            rfl
  | null | bool _ | int _ | float _ | str _ => exact .astray _ rfl fun _ => rfl

/-- One key further. In a list it is followed before, rather than after, the items are written. -/
theorem descends_member (free : outcome.EntryFree) (reference : List String) (key : String) :
    Descends reference outcome [key] (r.member reference outcome key) := by
  cases free with
  | data value => exact descends_data value reference key
  | @list items each =>
      have reads : (Outcome.list items).toJson.readAt [key] =
          (element items key).map Outcome.toJson := by
        rw [Outcome.toJson_list, Json.readAt_arr_cons, element_map]
        cases element items key with
        | ok item => exact Json.readAt_nil item.toJson
        | error fault => rfl
      cases held : element items key with
      | ok item =>
          rw [held] at reads
          refine .found item (each item (mem_of_element held)) reads (fun lacked => ?_) fun w => ?_
          · rw [Outcome.toJson_list, Json.lacks_cons]
            rintro (⟨-, -, ⟨⟩, -⟩ | ⟨_, -, lacks⟩)
            exact Json.lacks_nil lacks
          · simp only [member, held]
            rfl
      | error fault =>
          rw [held] at reads
          refine .astray fault reads fun w => ?_
          simp only [member, held]
          rfl

/-- From where one key leads, the others lead on. -/
theorem Descends.cons {walk : Action Outcome} {next : Outcome → Action Outcome}
    (here : Descends reference outcome [key] walk)
    (later : ∀ v : Outcome, v.EntryFree → Descends reference v keys (next v)) :
    Descends reference outcome (key :: keys) (walk >>= next) := by
  cases here with
  | found v free reads full walks =>
      have along : outcome.toJson.readAt (key :: keys) = v.toJson.readAt keys := by
        rw [Json.readAt_cons, reads]
        rfl
      have on (w : World) : (walk >>= next) w = next v w := Action.bind_of_ok (walks w) _
      have lacks_iff (lacked : String) :
          outcome.toJson.Lacks (key :: keys) lacked ↔ v.toJson.Lacks keys lacked :=
        Json.lacks_cons_of_full reads full
      cases later v free with
      | found u free' reads' full' walks' =>
          exact .found u free' (along.trans reads')
            (fun lacked => mt (lacks_iff lacked).mp (full' lacked)) fun w => (on w).trans (walks' w)
      | lacking lacked lacks walks' =>
          exact .lacking lacked ((lacks_iff lacked).mpr lacks) fun w => (on w).trans (walks' w)
      | astray fault reads' walks' =>
          exact .astray fault (along.trans reads') fun w => (on w).trans (walks' w)
  | lacking lacked lacks walks =>
      exact .lacking lacked (lacks.cons keys) fun w => Action.bind_of_error (walks w) _
  | astray fault reads walks =>
      refine .astray fault ?_ fun w => Action.bind_of_error (walks w) _
      rw [Json.readAt_cons, reads]
      rfl

theorem descends_foldlM (free : outcome.EntryFree) (reference keys : List String) :
    Descends reference outcome keys (keys.foldlM (r.member reference) outcome) := by
  induction keys generalizing outcome with
  | nil => exact .found outcome free (Json.readAt_nil _) (fun _ => Json.lacks_nil) fun _ => rfl
  | cons key keys ih =>
      rw [List.foldlM_cons]
      exact (descends_member free reference key).cons fun _ => ih

/-- A reference agrees with a path in a document. Let an outcome without entries be cached under a
label. If the reference resolves, the keys after the label lead in the document of the outcome to the
document of what it resolves to, and on the way no map lacks its key. If they lead somewhere, and no
map on the way lacks its key, the reference resolves to an outcome of which that is the document. If
it does not resolve, it says which key a map lacks, or why the keys lead nowhere. The world is left as
it was. -/
theorem lookup_descends (r : Registry) {cache : Table String Outcome} {label : String}
    {outcome : Outcome} (cached : Table.get? cache label = some outcome) (free : outcome.EntryFree)
    (keys : List String) (w : World) :
    (∀ v w', r.lookup cache (label :: keys) w = .ok v w' →
      outcome.toJson.readAt keys = .ok v.toJson ∧ (∀ key, ¬ outcome.toJson.Lacks keys key) ∧
        w' = w) ∧
    (∀ value, outcome.toJson.readAt keys = .ok value → (∀ key, ¬ outcome.toJson.Lacks keys key) →
      ∃ v, r.lookup cache (label :: keys) w = .ok v w ∧ v.toJson = value) ∧
    ∀ err w', r.lookup cache (label :: keys) w = .error err w' → w' = w ∧
      ((∃ key, outcome.toJson.Lacks keys key ∧
          err = unresolved (label :: keys) s!"no key '{key}'") ∨
        ∃ fault, outcome.toJson.readAt keys = .error fault ∧
          err = unresolved (label :: keys) fault.message) := by
  have along : r.lookup cache (label :: keys) = keys.foldlM (r.member (label :: keys)) outcome := by
    rw [lookup, cached]
  rw [along]
  cases descends_foldlM (r := r) free (label :: keys) keys with
  | found v free reads full walks =>
      rw [walks w, reads]
      refine ⟨?_, ?_, ?_⟩
      · rintro _ _ ⟨⟩
        exact ⟨rfl, full, rfl⟩
      · rintro _ ⟨⟩ -
        exact ⟨v, rfl, rfl⟩
      · rintro _ _ ⟨⟩
  | lacking key lacks walks =>
      rw [walks w]
      refine ⟨?_, fun _ _ full => absurd lacks (full key), ?_⟩
      · rintro _ _ ⟨⟩
      · rintro _ _ ⟨⟩
        exact ⟨rfl, .inl ⟨key, lacks, rfl⟩⟩
  | astray fault reads walks =>
      rw [walks w, reads]
      refine ⟨?_, ?_, ?_⟩
      · rintro _ _ ⟨⟩
      · rintro _ ⟨⟩
      · rintro _ _ ⟨⟩
        exact ⟨rfl, .inr ⟨fault, rfl, rfl⟩⟩

namespace Sample

def boxed : Outcome := .list [.list [], .data (.obj [("a", .arr [.int 1, .int 2])])]

theorem boxed_entryFree : boxed.EntryFree :=
  .list (List.forall_mem_cons.mpr ⟨.list nofun, List.forall_mem_cons.mpr ⟨.data _, nofun⟩⟩)

/-- An item in data in a list is reached; a key that is not there is told, and passed by a path. -/
theorem boxed_descended :
    let cache : Table String Outcome := [("x", boxed)]
    Table.get? cache "x" = some boxed ∧ boxed.EntryFree ∧
      oneRoot.lookup cache ["x", "1", "a", "0"] world = .ok (.data (.int 1)) world ∧
      boxed.toJson.readAt ["1", "a", "0"] = .ok (.int 1) ∧
      (∃ v, oneRoot.lookup cache ["x", "1", "a", "0"] world = .ok v world ∧ v.toJson = .int 1) ∧
      oneRoot.lookup cache ["x", "1", "b"] world =
        .error (unresolved ["x", "1", "b"] "no key 'b'") world ∧
      boxed.toJson.readAt ["1", "b"] = .ok (.obj []) ∧
      ∃ key, boxed.toJson.Lacks ["1", "b"] key := by
  intro cache
  have cached : Table.get? cache "x" = some boxed := rfl
  have resolves : oneRoot.lookup cache ["x", "1", "a", "0"] world = .ok (.data (.int 1)) world := rfl
  have refuses : oneRoot.lookup cache ["x", "1", "b"] world =
      .error (unresolved ["x", "1", "b"] "no key 'b'") world := rfl
  obtain ⟨resolved, descended, -⟩ :=
    lookup_descends oneRoot cached boxed_entryFree ["1", "a", "0"] world
  obtain ⟨reads, full, -⟩ := resolved _ _ resolves
  obtain ⟨-, -, refused⟩ := lookup_descends oneRoot cached boxed_entryFree ["1", "b"] world
  obtain ⟨-, ⟨key, lacks, -⟩ | ⟨_, ⟨⟩, -⟩⟩ := refused _ _ refuses
  exact ⟨cached, boxed_entryFree, resolves, reads, descended _ reads full, refuses, rfl, key, lacks⟩

end Sample
end Registry
end Lineage
