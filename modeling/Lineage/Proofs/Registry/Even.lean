import Lineage.Proofs.Registry.Alike

/-!
Lookups in worlds that are alike. Reading an entry sets no worlds apart, and entries that are made are
given the same numbers; so every lookup on the way from an entry to its parents answers the same in
both worlds.
-/
namespace Lineage

open World Action

namespace Registry

variable {r : Registry} {e x : Entry} {w w' u : World}

/-! ### Reading an entry -/

theorem alike_setCells {c : Cells} (tells : r.Tells e w) (near : r.Near e w x)
    (parts : r.SameParts w.disk x (w.cellsOf x) c) (parent : c.parent = (w.cellsOf x).parent) :
    r.Alike e w (w.setCells x c) where
  disk := rfl
  size := by simp [setCells]
  byPath := rfl
  byName := rfl
  parent y := by
    rcases cellsOf_setCells_cases w x y c with ⟨same, hc⟩ | hc
    · rw [hc, parent, cellsOf_congr w same]
    · rw [hc]
  parts y hy := by
    rcases cellsOf_setCells_cases w x y c with ⟨same, hc⟩ | hc
    · obtain rfl := tells.alone y x hy near same
      rwa [hc]
    · rw [hc]
      exact .refl

/-- To read a part of an entry that is near sets no worlds further apart. -/
theorem Reading.even {α : Type} {act : Action α} {read : Cells → Disk → Except Error α}
    (h : r.Reading x act read) :
    r.Even e (r.Seeks e) (r.Near e · x) act fun a u => read (u.cellsOf x) u.disk = .ok a := by
  intro w w' tells alike near
  obtain ⟨c, left, parts, parent⟩ := h.apply w (tells.held x near)
  obtain ⟨c', right, parts', parent'⟩ :=
    h.apply w' ((alike.tells tells).held x (near.alike alike))
  have loaded := alike_setCells tells near parts parent
  have loaded' := alike_setCells (alike.tells tells) (near.alike alike) parts' parent'
  have later := loaded.symm.trans (alike.trans loaded')
  rw [left, right, alike.disk, h.same _ _ _ (alike.parts x near)]
  cases hread : read (w.cellsOf x) w.disk with
  | error err => exact .error (loaded.tells tells) loaded.seeks later
  | ok a =>
      refine .ok (loaded.tells tells) loaded.seeks later ?_
      rw [cellsOf_setCells_self (tells.held x near) rfl]
      exact (h.same _ _ _ parts).trans hread

theorem own_even : r.Even e (r.Seeks e) (r.Near e · x) (r.own x) fun _ _ => True :=
  (own_reading r x).even.weaken (fun _ h => h) fun _ _ _ => trivial

theorem metadataValue_even (key : String) :
    r.Even e (r.Seeks e) (r.Near e · x) (r.metadataValue x key) fun _ _ => True :=
  .bind (seeks_course r e) (metadata_reading r x).even fun _ _ _ =>
    .pure (seeks_course r e) fun _ _ => trivial

/-! ### Entries by path and by name -/

/-- Whom a lookup answers, if anybody, is near. -/
def nearIfAny (r : Registry) (e : Entry) (found : Option Entry) (w : World) : Prop :=
  ∀ x ∈ found, r.Near e w x

theorem nearIfAny_none : r.nearIfAny e none w := fun _ h => nomatch h

theorem nearIfAny_some (near : r.Near e w x) : r.nearIfAny e (some x) w :=
  fun _ h => Option.some.inj h ▸ near

theorem Alike.enroll (alike : r.Alike e w w') (place : Path) (name : String) :
    r.Alike e (w.enroll place name) (w'.enroll place name) where
  disk := alike.disk
  size := by simp [World.enroll, alike.size]
  byPath := by simp [World.enroll, alike.size, alike.byPath]
  byName := alike.byName
  parent x := by rw [cellsOf_enroll, cellsOf_enroll, alike.parent]
  parts x near := by
    rw [cellsOf_enroll, cellsOf_enroll]
    rcases near.of_enroll with near | rfl
    · exact alike.parts x near
    · rw [cellsOf_of_not_holds (Nat.lt_irrefl _), cellsOf_of_not_holds (alike.size ▸ Nat.lt_irrefl _)]
      exact .refl

theorem seeks_enroll {place : Path} (name : String)
    (new : Table.get? w.byPath place.components = none) : r.Seeks e w (w.enroll place name) where
  disk := rfl
  near _ near := near.keep (recalls_enroll new name) fun y _ hp =>
    (congrArg Cells.parent (cellsOf_enroll w place name y)).trans hp
  parts x _ := by
    rw [cellsOf_enroll]
    exact .refl
  parent x := by rw [cellsOf_enroll]
  byName := rfl

/-- Worlds that are alike give an entry that is made the same number. -/
theorem byPath_even {P : World → Prop} (path : Path) :
    r.Even e (r.Seeks e) P (byPath path) fun x u => r.Near e u x := by
  intro w w' tells alike _
  cases h : Table.get? w.byPath path.normalize.components with
  | some x =>
      rw [byPath_of_known h, byPath_of_known (alike.byPath ▸ h)]
      exact .ok tells ((seeks_course r e).refl w) alike (.listed (.inl ⟨_, h⟩))
  | none =>
      rw [byPath_of_unknown h, byPath_of_unknown (alike.byPath ▸ h), alike.size]
      exact .ok (tells.enroll _ _) (seeks_enroll _ h) (alike.enroll _ _)
        (.listed (.inl ⟨_, known_enroll w _ _⟩))

theorem entryAt_even {P : World → Prop} (path : Path) :
    r.Even e (r.Seeks e) P (byPath path >>= fun x => pure (some x)) (r.nearIfAny e) :=
  .bind (seeks_course r e) (byPath_even path) fun _ _ _ =>
    .pure (seeks_course r e) fun _ h => nearIfAny_some h.2

theorem cached_even {P : World → Prop} (name : String) :
    r.Even e (r.Seeks e) P (cached name) (r.nearIfAny e) := by
  intro w w' tells alike _
  rw [cached_apply, cached_apply, alike.byName]
  exact .ok tells ((seeks_course r e).refl w) alike fun x found => .listed (.inr ⟨name, found⟩)

/-! ### Searches -/

theorem indexed_even (name : String) :
    r.Even e (r.Seeks e) (r.Near e · x) (r.indexed x name) (r.nearIfAny e) := by
  refine .bind (seeks_course r e) own_even fun params _ _ => ?_
  split
  · exact entryAt_even _
  · exact .pure (seeks_course r e) fun _ _ => nearIfAny_none

theorem searched_even (item : String) :
    r.Even e (r.Seeks e) (r.Near e · x) (r.searched x item) (r.nearIfAny e) := by
  rw [searched]
  split
  · exact entryAt_even _
  · refine .bind (seeks_course r e) (indexed_even item) fun found _ _ => ?_
    cases found with
    | some y => exact .pure (seeks_course r e) fun _ h => h.2
    | none => exact cached_even item

/-- A search goes on with entries that are near only. -/
def Search.IsNear (r : Registry) (e : Entry) (s : Search) (w : World) : Prop :=
  match s with
  | .found x _ => r.Near e w x
  | .going leads _ => ∀ lead ∈ leads, r.Near e w lead.from

theorem visit_even (name : String) (rest : List Lead) (visited : List Path) :
    r.Even e (r.Seeks e) (fun w => r.Near e w x ∧ ∀ lead ∈ rest, r.Near e w lead.from)
      (r.visit name x rest visited) (Search.IsNear r e) := by
  have course := seeks_course r e
  refine .bind course ((indexed_even name).weaken (fun _ h => h.1) fun _ _ h => h)
    fun found w near => ?_
  cases found with
  | some y => exact .pure course fun _ h => h.2 y rfl
  | none =>
      refine .bind course (own_even.weaken (fun u h => h.1.near x near.1) fun _ _ h => h)
        fun params u before => .pure course fun v later lead hl => ?_
      have seeks := course.trans before.1 later.1
      rcases List.mem_append.mp hl with hl | hl
      · obtain ⟨item, -, rfl⟩ := List.mem_map.mp hl
        exact seeks.near x near.1
      · exact seeks.near _ (near.2 lead hl)

theorem leadsTo_even (lead : Lead) :
    r.Even e (r.Seeks e) (r.Near e · lead.from) (r.leadsTo lead) (r.nearIfAny e) := by
  cases lead with
  | collection x => exact .pure (seeks_course r e) fun _ near => nearIfAny_some near
  | item x text => exact searched_even text

theorem pursue_even (name : String) (lead : Lead) (rest : List Lead) (visited : List Path) :
    r.Even e (r.Seeks e) (fun w => ∀ l ∈ lead :: rest, r.Near e w l.from)
      (r.pursue name lead rest visited) (Search.IsNear r e) := by
  have course := seeks_course r e
  refine .bind course ((leadsTo_even lead).weaken (fun _ h => h _ List.mem_cons_self) fun _ _ h => h)
    fun found w near => ?_
  have rest_near (u : World) (seeks : r.Seeks e w u) : ∀ l ∈ rest, r.Near e u l.from :=
    fun l hl => seeks.near _ (near l (List.mem_cons_of_mem _ hl))
  cases found with
  | none => exact .pure course fun u h => rest_near u h.1
  | some y =>
      dsimp only
      split
      · exact .pure course fun u h => rest_near u h.1
      · exact (visit_even name rest visited).weaken
          (fun u h => ⟨h.2 y rfl, rest_near u h.1⟩) fun _ _ h => h

theorem search_even (name : String) (leads : List Lead) (visited : List Path) :
    r.Even e (r.Seeks e) (fun w => ∀ lead ∈ leads, r.Near e w lead.from)
      (r.search name leads visited) fun found => r.nearIfAny e found.1 := by
  have course := seeks_course r e
  rw [search_eq_loop]
  refine .loop course (I := fun s w => ∀ lead ∈ s.1, r.Near e w lead.from) (fun s => ?_)
    (leads, visited)
  obtain ⟨leads, visited⟩ := s
  cases leads with
  | nil => exact .pure course fun _ _ => nearIfAny_none
  | cons lead rest =>
      refine .bind course (pursue_even name lead rest visited) fun next _ _ => ?_
      cases next with
      | found y visited => exact .pure course fun _ h => nearIfAny_some h.2
      | going leads visited => exact .pure course fun _ h => h.2

/-- To make an entry that is near known by a name, unless there is one of that name, sets no worlds
apart and brings nobody else near. -/
theorem knowName_even (name : String) :
    r.Even e (r.Peeks e) (fun w => r.Near e w x ∧ Table.get? w.byName name = none)
      (modify fun w => { w with byName := Table.insert w.byName name x }) fun _ _ => True := by
  intro w w' tells alike ⟨near, new⟩
  have forth (y : Entry) (hy : r.Near e w y) :
      r.Near e { w with byName := Table.insert w.byName name x } y :=
    hy.keep (recalls_knowName new x) fun _ _ hp => hp
  refine .ok (tells.knowName name near) ⟨⟨rfl, forth, fun _ _ => .refl⟩, fun _ => rfl⟩ ?_ trivial
  exact ⟨alike.disk, alike.size, alike.byPath,
    congrArg (fun names => Table.insert names name x) alike.byName, alike.parent,
    fun y hy => alike.parts y (Shown.of_knowName near hy)⟩

theorem byName_even {P : World → Prop} (name : String) :
    r.Even e (r.Peeks e) P (r.byName name) (r.nearIfAny e) := by
  have course := peeks_course r e
  intro w w' tells alike _
  have search := search_even name (r.roots.map .collection) [] w w' tells alike
    (List.forall_mem_map.mpr fun root => .root)
  cases known : Table.get? w.byName name with
  | some x =>
      rw [byName_of_cached known, byName_of_cached (alike.byName ▸ known)]
      exact .ok tells (course.refl w) alike (nearIfAny_some (.listed (.inr ⟨name, known⟩)))
  | none =>
      rw [byName_of_unknown known, byName_of_unknown (alike.byName ▸ known)]
      generalize r.search name _ _ w = out, r.search name _ _ w' = out' at search ⊢
      cases search with
      | error tells seeks alike => exact .error tells seeks.toPeeks alike
      | @ok u u' finding tells seeks alike near =>
          obtain ⟨found, visited⟩ := finding
          cases found with
          | none => exact .ok tells seeks.toPeeks alike nearIfAny_none
          | some x =>
              have new : Table.get? u.byName name = none := seeks.byName ▸ known
              cases knowName_even name u u' tells alike ⟨near x rfl, new⟩ with
              | ok tells peeks alike _ =>
                  exact .ok tells (course.trans seeks.toPeeks peeks) alike
                    (nearIfAny_some (peeks.near x (near x rfl)))

/-! ### Ancestry -/

theorem parentNamed_even {P : World → Prop} (reference : String) :
    r.Even e (r.Peeks e) P (r.parentNamed x reference) (r.nearIfAny e) := by
  rw [parentNamed]
  split
  · exact .pure (peeks_course r e) fun _ _ => nearIfAny_none
  · split
    · exact (entryAt_even _).mono fun _ _ h => h.toPeeks
    · exact byName_even reference

theorem findParent_even :
    r.Even e (r.Peeks e) (r.Near e · x) (r.findParent x) (r.nearIfAny e) := by
  have course := peeks_course r e
  refine .bind course ((metadataValue_even _).mono fun _ _ h => h.toPeeks) fun value _ _ => ?_
  split
  · exact .pure course fun _ _ => nearIfAny_none
  · exact .pure course fun _ _ => nearIfAny_none
  · exact parentNamed_even _
  · exact .throw course _

/-- To keep a parent that is near, where none was known, sets no worlds apart and brings nobody else
near. -/
theorem keepParent_even (found : Option Entry) :
    r.Even e (r.Reads e)
      (fun w => r.Near e w x ∧ (w.cellsOf x).parent = none ∧ r.nearIfAny e found w)
      (changeCells x (Cells.Part.parent.keep found)) (fun _ u => r.nearIfAny e found u) := by
  intro w w' tells alike ⟨near, new, found_near⟩
  have held := tells.held x near
  have held' := (alike.tells tells).held x (near.alike alike)
  -- Nobody loses a parent, since none was known.
  have forth {y : Entry} (hy : r.Near e w y) :
      r.Near e (w.setCells x { w.cellsOf x with parent := some found }) y := by
    refine hy.keep (recalls_of_tables rfl rfl) fun z p hp => ?_
    have other : z.id ≠ x.id := by
      intro same
      rw [cellsOf_congr w same, new] at hp
      cases hp
    rw [cellsOf_setCells_ne other]
    exact hp
  have shown : ∀ p, some found = some (some p) → r.Near e w p :=
    fun p hp => found_near p (Option.some.inj hp)
  have parts (v : World) (y : Entry) : r.SameParts w.disk y (v.cellsOf y)
      ((v.setCells x { v.cellsOf x with parent := some found }).cellsOf y) := by
    rcases cellsOf_setCells_cases v x y { v.cellsOf x with parent := some found } with ⟨same, hc⟩ | hc
    · rw [hc, cellsOf_congr v same]
      exact .withParent _
    · rw [hc]
      exact .refl
  refine .ok (tells.setCells x shown) ⟨rfl, fun y => forth, fun y _ => parts w y⟩
    ⟨alike.disk, ?_, alike.byPath, alike.byName, fun y => ?_, fun y hy => ?_⟩
    fun p hp => forth (found_near p hp)
  · simp [setCells, alike.size]
  · by_cases same : y.id = x.id
    · rw [cellsOf_setCells_self held same, cellsOf_setCells_self held' same]
      rfl
    · rw [cellsOf_setCells_ne same, cellsOf_setCells_ne same]
      exact alike.parent y
  · exact (parts w y).symm.trans ((alike.parts y (hy.of_setCells shown)).trans (parts w' y))

theorem parent_even :
    r.Even e (r.Reads e) (r.Near e · x) (r.parent x) (r.nearIfAny e) := by
  have course := reads_course r e
  intro w w' tells alike near
  rw [parent_eq_once]
  cases known : (w.cellsOf x).parent with
  | some found =>
      have left : Cells.Part.parent.known (w.cellsOf x) = some found := known
      have right : Cells.Part.parent.known (w'.cellsOf x) = some found := (alike.parent x).trans known
      rw [once_of_known left, once_of_known right]
      exact .ok tells (course.refl w) alike fun p hp => .parent (known.trans (congrArg some hp))
  | none =>
      -- What finds the parent leaves it unknown, so it is kept where none was known.
      have find : r.Even e (r.Reads e) (fun v => v = w) (r.findParent x) fun found u =>
          r.Near e u x ∧ (u.cellsOf x).parent = none ∧ r.nearIfAny e found u := by
        intro v v' told beside hv
        subst hv
        have find := findParent_even v v' told beside near
        generalize r.findParent x v = out, r.findParent x v' = out' at find ⊢
        cases find with
        | ok tells peeks alike h =>
            exact .ok tells peeks.toReads alike ⟨peeks.near x near, (peeks.parent x).trans known, h⟩
        | error tells peeks alike => exact .error tells peeks.toReads alike
      have keep (found : Option Entry) : r.Even e (r.Reads e)
          (fun u => r.Near e u x ∧ (u.cellsOf x).parent = none ∧ r.nearIfAny e found u)
          (changeCells x (Cells.Part.parent.keep found) >>= fun _ => pure found) (r.nearIfAny e) :=
        (keepParent_even found).bind course fun _ _ _ => .pure course fun _ h => h.2
      have both := (find.bind course fun found _ _ => (keep found).weaken (fun _ h => h.2)
        fun _ _ h => h) w w' tells alike rfl
      have once_eq (v : World) (new : (v.cellsOf x).parent = none) :
          once .parent x (r.findParent x) v = (r.findParent x >>= fun found =>
            changeCells x (Cells.Part.parent.keep found) >>= fun _ => pure found) v := by
        rw [once, bind_of_ok (get_apply v), show Cells.Part.parent.known (v.cellsOf x) = none from new]
      rwa [once_eq w known, once_eq w' ((alike.parent x).trans known)]

theorem operations_even :
    r.Even e (r.Reads e) (r.Near e · x) (r.operations x) fun found u =>
      r.operationsIn x (u.cellsOf x) u.disk = .ok found :=
  (operations_reading r x).even.mono fun _ _ h => h.toReads

end Registry
end Lineage
