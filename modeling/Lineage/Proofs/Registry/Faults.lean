import Lineage.Proofs.Registry.Lookups

/-!
What lookups fail with. A document that cannot be had or read is at fault, or what it says of an
entry; a search can go on for ever besides. Each lookup is taken through once, for whatever kind of
errors takes these in.
-/
namespace Lineage

open Action

namespace Action

/-- What an action fails with, if it fails, is of a kind. -/
def Fails (kind : Error → Prop) {α : Type} (act : Action α) : Prop :=
  ∀ w err w', act w = .error err w' → kind err

namespace Fails

variable {α β : Type} {kind : Error → Prop}

theorem pure (a : α) : Fails kind (pure a : Action α) := fun _ _ _ h => nomatch h

theorem throw {e : Error} (h : kind e) : Fails kind (throw e : Action α) := by
  intro w err w' he
  cases he
  exact h

theorem bind {act : Action α} {next : α → Action β} (h : Fails kind act)
    (hn : ∀ a, Fails kind (next a)) : Fails kind (act >>= next) := by
  intro w err w' he
  rcases bind_eq_error_iff.mp he with he | ⟨a, w₁, -, he⟩
  · exact h _ _ _ he
  · exact hn a _ _ _ he

theorem get_bind {next : World → Action α} (h : ∀ w, Fails kind (next w)) :
    Fails kind (get >>= next) :=
  fun w => h w w

theorem loop (unbounded : kind .unbounded) {σ : Type} {step : Round σ α}
    (h : ∀ s, Fails kind (step s)) (s : σ) : Fails kind (loop step s) := by
  intro w err w' he
  cases hf : step.run s w with
  | none =>
      rw [Action.loop, hf] at he
      cases he
      exact unbounded
  | some out =>
      refine run_induct (motive := fun _ _ out => ∀ err w', out = .error err w' → kind err)
        (fun s w => ?_) hf err w' ((loop_of_some hf).symm.trans he)
      cases hs : step s w with
      | error e w' =>
          intro err w'' ho
          cases ho
          exact h s w e w' hs
      | ok next w' =>
          cases next with
          | inr a =>
              intro err w'' ho
              cases ho
          | inl t => exact fun _ ih => ih

theorem mapM {f : α → Action β} (h : ∀ a, Fails kind (f a)) (xs : List α) :
    Fails kind (xs.mapM f) := by
  induction xs with
  | nil => exact .pure _
  | cons x xs ih =>
      rw [List.mapM_cons]
      exact (h x).bind fun _ => ih.bind fun _ => .pure _

theorem foldlM {f : β → α → Action β} (h : ∀ b a, Fails kind (f b a)) (xs : List α) (b : β) :
    Fails kind (xs.foldlM f b) := by
  induction xs generalizing b with
  | nil => exact .pure _
  | cons x xs ih => exact (h b x).bind ih

end Fails
end Action

/-- What is said of metadata that are of no use: a parent that is no text, or operations under what
is no name. -/
inductive Error.Misread : String → Prop
  | parent (key : String) (e : Entry) (found : Json) :
      Misread s!"'{key}' of entry '{e.name}' must be a string, found {found.kind}"
  | operations (key : String) (e : Entry) (found : Json) :
      Misread (s!"'{key}' of entry '{e.name}' must name a namespace, found " ++ found.compact)

/-- A kind of errors that takes in the faults of documents and of what they say. -/
structure Error.Faulty (kind : Error → Prop) : Prop where
  storage : ∀ path reason, kind (.storage path reason)
  malformed : ∀ reason, Misread reason → kind (.malformed reason)

namespace Registry

variable {kind : Error → Prop} (faulty : Error.Faulty kind)

include faulty

theorem load_fails {d : Disk} {file : Path} {nested : List String} {e : Error}
    (h : d.load file nested = .error e) : kind e := by
  rw [Disk.load] at h
  split at h
  · cases h
  · split at h
    · cases h
      exact faulty.storage _ _
    · split at h
      · cases h
        exact faulty.storage _ _
      · split at h <;> cases h
        exact faulty.storage _ _

theorem readMap_fails (what : String) (e : Entry) (place : DocumentPlace) :
    Fails kind (readMap what e place) := by
  refine .bind (fun w err w' h => ?_) fun value => ?_
  · rw [readDocument] at h
    split at h
    · cases h
    · rename_i e he
      cases h
      exact load_fails faulty he
  · cases value with
    | obj fields => exact .pure _
    | null | bool _ | int _ | float _ | str _ | arr _ => exact .throw (faulty.storage _ _)

omit faulty in
theorem once_fails {β : Type} {part : Cells.Part β} {e : Entry} {find : Action β}
    (h : Fails kind find) : Fails kind (once part e find) := by
  refine .get_bind fun w => ?_
  cases part.known (w.cellsOf e) with
  | some b => exact .pure b
  | none => exact h.bind fun b => .bind (fun _ _ _ h => nomatch h) fun _ => .pure b

variable (r : Registry)

theorem own_fails (e : Entry) : Fails kind (r.own e) :=
  own_eq_once r e ▸ once_fails (readMap_fails faulty _ e _)

theorem metadataValue_fails (e : Entry) (key : String) : Fails kind (r.metadataValue e key) := by
  refine .bind ?_ fun _ => .pure _
  rw [metadata_eq_once]
  refine once_fails ?_
  split
  · exact own_fails faulty r e
  · exact readMap_fails faulty _ e _

theorem operations_fails (e : Entry) : Fails kind (r.operations e) := by
  rw [operations_eq_once]
  refine once_fails ((metadataValue_fails faulty r e _).bind fun value => ?_)
  split
  · exact .pure _
  · exact .pure _
  · exact .pure _
  · exact .throw (faulty.malformed _ (.operations _ e _))

omit faulty in
theorem byPath_fails (path : Path) : Fails kind (byPath path) := by
  intro w err w' he
  cases h : Table.get? w.byPath path.normalize.components with
  | some e =>
      rw [byPath_of_known h] at he
      cases he
  | none =>
      rw [byPath_of_unknown h] at he
      cases he

omit faulty in
theorem cached_fails (name : String) : Fails kind (cached name) := .get_bind fun _ => .pure _

/-! ### Searches -/

theorem indexed_fails (collection : Entry) (name : String) :
    Fails kind (r.indexed collection name) := by
  refine (own_fails faulty r collection).bind fun params => ?_
  split
  · exact (byPath_fails _).bind fun _ => .pure _
  · exact .pure _

theorem searched_fails (collection : Entry) (item : String) :
    Fails kind (r.searched collection item) := by
  rw [searched]
  split
  · exact (byPath_fails _).bind fun _ => .pure _
  · refine (indexed_fails faulty r collection item).bind fun found => ?_
    cases found with
    | some e => exact .pure _
    | none => exact cached_fails item

theorem visit_fails (name : String) (collection : Entry) (rest : List Lead)
    (visited : List Path) : Fails kind (r.visit name collection rest visited) := by
  refine (indexed_fails faulty r collection name).bind fun found => ?_
  cases found with
  | some e => exact .pure _
  | none => exact (own_fails faulty r collection).bind fun _ => .pure _

theorem pursue_fails (name : String) (lead : Lead) (rest : List Lead) (visited : List Path) :
    Fails kind (r.pursue name lead rest visited) := by
  have leads : Fails kind (r.leadsTo lead) := by
    cases lead with
    | collection c => exact .pure _
    | item c text => exact searched_fails faulty r c text
  refine leads.bind fun found => ?_
  cases found with
  | none => exact .pure _
  | some collection =>
      dsimp only
      split
      · exact .pure _
      · exact visit_fails faulty r name collection rest visited

/-! ### Searches to their end, and what they are made for -/

variable (unbounded : kind .unbounded)

include unbounded

theorem search_fails (name : String) (leads : List Lead) (visited : List Path) :
    Fails kind (r.search name leads visited) := by
  rw [search_eq_loop]
  refine .loop unbounded (fun s => ?_) _
  obtain ⟨leads, visited⟩ := s
  cases leads with
  | nil => exact .pure _
  | cons lead rest =>
      refine (pursue_fails faulty r name lead rest visited).bind fun next => ?_
      cases next <;> exact .pure _

theorem byName_fails (name : String) : Fails kind (r.byName name) := by
  refine (cached_fails name).bind fun found => ?_
  cases found with
  | some e => exact .pure _
  | none =>
      refine (search_fails faulty r unbounded name _ _).bind fun finding => ?_
      obtain ⟨found, visited⟩ := finding
      cases found with
      | none => exact .pure _
      | some e => exact .bind (fun _ _ _ h => nomatch h) fun _ => .pure _

theorem parent_fails (e : Entry) : Fails kind (r.parent e) := by
  rw [parent_eq_once]
  refine once_fails ((metadataValue_fails faulty r e _).bind fun value => ?_)
  split
  · exact .pure _
  · exact .pure _
  · rw [parentNamed]
    split
    · exact .pure _
    · split
      · exact (byPath_fails _).bind fun _ => .pure _
      · exact byName_fails faulty r unbounded _
  · exact .throw (faulty.malformed _ (.parent _ e _))

/-! ### Walks along the ancestry -/

variable (cyclic : ∀ chain, kind (.cyclicAncestry chain))

include cyclic

theorem above_fails (t : Trail) : Fails kind (r.above t) := by
  refine (parent_fails faulty r unbounded t.last).bind fun found => ?_
  cases found with
  | none => exact .pure _
  | some parent =>
      dsimp only
      split
      · exact .throw (cyclic _)
      · exact .pure _

theorem ancestry_fails (e : Entry) : Fails kind (r.ancestry e) := by
  refine .loop unbounded (fun t => ?_) _
  refine (above_fails faulty r unbounded cyclic t).bind fun next => ?_
  cases next <;> exact .pure _

theorem merged_fails (e : Entry) : Fails kind (r.merged e) :=
  (ancestry_fails faulty r unbounded cyclic e).bind fun _ =>
    (Fails.mapM (own_fails faulty r) _).bind fun _ => .pure _

theorem parameter_fails (e : Entry) (name : String) : Fails kind (r.parameter e name) :=
  (merged_fails faulty r unbounded cyclic e).bind fun _ => .pure _

variable (notFound : ∀ method ancestry, kind (.operationNotFound method ancestry))

include notFound

theorem reach_fails (e : Entry) (method : String) : Fails kind (r.reach e method) := by
  refine .loop unbounded (fun t => ?_) _
  refine (operations_fails faulty r t.last).bind fun found => ?_
  split
  · exact .pure _
  · refine (above_fails faulty r unbounded cyclic t).bind fun next => ?_
    cases next with
    | some t => exact .pure _
    | none => exact .throw (notFound _ _)

theorem dispatch_fails (e : Entry) (method : String) : Fails kind (r.dispatch e method) := by
  intro w err w' h
  rw [dispatch] at h
  split at h
  · cases h
  · split at h <;> cases h
    exact notFound _ _
  · rename_i other reached
    cases h
    exact reach_fails faulty r unbounded cyclic notFound e method w _ _ reached

end Registry
end Lineage
