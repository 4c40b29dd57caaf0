import Lineage.Registry.Description
import Lineage.Proofs.Json.Tidy
import Lineage.Proofs.Registry.Parts

/-!
Lookups only add to what a world knows, and the entries that a lookup answers are entries of the
world.
-/
namespace Lineage

open World Action

namespace Registry

/-! ### Documents and own parameters -/

theorem readDocument_along (file : Path) (nested : List String) :
    Along (Extends id) any (readDocument file nested) fun value _ => value.Tidy := by
  intro w hw _
  cases hl : w.disk.load file nested with
  | error e =>
      have hr : readDocument file nested w = .error e w := by rw [readDocument, hl]
      rw [after_of_error hr]
      exact ⟨(extends_course id).refl w, hw, fun v w' hv => by rw [hr] at hv; cases hv⟩
  | ok loaded =>
      obtain ⟨value, found⟩ := loaded
      have hr : readDocument file nested w = .ok value w := by rw [readDocument, hl]
      rw [after_of_ok hr]
      refine ⟨(extends_course id).refl w, hw, fun v w' hv => ?_⟩
      obtain ⟨rfl, rfl⟩ : value = v ∧ w = w' := by simpa [hr] using hv
      exact Disk.tidy_of_load hl

theorem readMap_along (what : String) (e : Entry) (place : DocumentPlace) :
    Along (Extends id) any (readMap what e place) fun fields _ => Table.Distinct fields := by
  have course := extends_course (id : Cells → Cells)
  refine .bind course (readDocument_along _ _) fun value => ?_
  cases value with
  | obj fields => exact .pure course fun w _ tidy => by cases tidy with | obj distinct => exact distinct
  | null | bool _ | int _ | float _ | str _ | arr _ => exact .throw course _

/-- The own parameters of an entry stand once each, and are known from then on. -/
theorem own_along (r : Registry) (e : Entry) :
    Along (Extends Cells.beyondOwn) any (r.own e) fun params w =>
      Table.Distinct params ∧ (w.Holds e → (w.cellsOf e).own = some params) := by
  rw [own_eq_once]
  refine once_along ?_ ?_ ?_ ?_ ?_ ?_ ?_ (readMap_along "parameters" e r.config.parameters)
  · intro c c' h
    exact congrArg _ h
  · intro c c' h
    exact congrArg _ h
  · intro b c
    rfl
  · intro b w hw hk
    exact hw.own e b hk
  · intro b w hw hq
    exact hw.setCells e (fun params hp => Option.some.inj hp ▸ hq) fun p hp => hw.parent e p hp
  · intro b w _ p hp
    exact .inr hp
  · intro b w w' _ _ hq
    exact hq

/-- Nothing is said of an answer. -/
def anything {α : Type} : α → World → Prop := fun _ _ => True

/-- The entry that a lookup answers, if any, is one of the world. -/
def heldIfAny (found : Option Entry) (w : World) : Prop := ∀ e ∈ found, w.Holds e

/-- The entry that a lookup answers, if any, can be looked up again. -/
def listedIfAny (found : Option Entry) (w : World) : Prop := ∀ e ∈ found, w.Listed e

theorem listedIfAny_none (w : World) : listedIfAny none w := by
  intro e he
  cases he

theorem listedIfAny_some {w : World} {e : Entry} (h : w.Listed e) : listedIfAny (some e) w := by
  intro e' he
  cases he
  exact h

theorem findMetadata_along (r : Registry) (e : Entry) :
    Along (Extends Cells.beyondOwn) any
      (if r.metadataPlace = r.config.parameters then r.own e
        else readMap "meta" e r.metadataPlace) anything := by
  split
  · exact (own_along r e).weaken (fun _ _ h => h) fun _ _ _ => trivial
  · exact ((readMap_along _ _ _).coarsen Cells.beyondOwn).weaken
      (fun _ _ h => h) fun _ _ _ => trivial

theorem metadata_along (r : Registry) (e : Entry) :
    Along (Extends Cells.beyondMetadata) any (r.metadata e) anything := by
  rw [metadata_eq_once]
  refine (once_along (S := anything) ?_ ?_ ?_ ?_ ?_ ?_ ?_ (findMetadata_along r e)).weaken
    (fun _ _ h => h) fun _ _ _ => trivial
  · intro c c' h
    exact congrArg Prod.fst h
  · intro c c' h
    exact congrArg Prod.snd h
  · intro b c
    rfl
  · intro b w _ _
    trivial
  · intro b w hw _
    exact hw.setCells e (fun params hp => hw.own e params hp) fun p hp => hw.parent e p hp
  · intro b w _ p hp
    exact .inr hp
  · intro b w w' _ _ _
    trivial

theorem metadataValue_along (r : Registry) (e : Entry) (key : String) :
    Along (Extends Cells.beyondMetadata) any (r.metadataValue e key) anything :=
  have course := extends_course Cells.beyondMetadata
  .bind course (metadata_along r e) fun _ => .pure course fun _ _ _ => trivial

/-! ### Entries by path and by name -/

theorem create_along (path : Path) (name : String) :
    Along (Extends id) any (create path name {}) fun e w => w.Holds e := by
  intro w hw _
  refine ⟨?_, hw.append (by simp) (by simp), fun e w' he => ?_⟩
  · exact extends_of_cells rfl (by simp [Grows, create, after]) (cellsOf_append_empty w)
      (recalls_of_tables rfl rfl) (fun h => h.append (by simp))
      fun _ h => (h.append path name (by simp)).mono fun _ => .inl
  · cases he
    simp [Holds]

theorem byPath_of_known {path : Path} {e : Entry} {w : World}
    (h : Table.get? w.byPath path.normalize.components = some e) : byPath path w = .ok e w := by
  rw [byPath]
  rw [bind_of_ok (get_apply w), h]
  rfl

theorem byPath_of_unknown {path : Path} {w : World}
    (h : Table.get? w.byPath path.normalize.components = none) :
    byPath path w =
      .ok ⟨w.cells.length, path.normalize, Entry.nameOf path.normalize⟩
        (w.enroll path.normalize (Entry.nameOf path.normalize)) := by
  rw [byPath]
  rw [bind_of_ok (get_apply w), h]
  rfl

theorem byPath_along (path : Path) :
    Along (Extends id) any (byPath path) fun e w => w.Listed e := by
  intro w hw _
  cases h : Table.get? w.byPath path.normalize.components with
  | some e =>
      have hb := byPath_of_known h
      rw [after_of_ok hb]
      refine ⟨(extends_course id).refl w, hw, fun e' w' he => ?_⟩
      obtain ⟨rfl, rfl⟩ : e = e' ∧ w = w' := by simpa [hb] using he
      exact .inl ⟨_, h⟩
  | none =>
      have hb := byPath_of_unknown h
      rw [after_of_ok hb]
      refine ⟨extends_enroll hw path.normalize_normalize h, hw.enroll _ _, fun e' w' he => ?_⟩
      rw [hb] at he
      cases he
      exact .inl ⟨_, known_enroll w _ _⟩

theorem cached_apply (name : String) (w : World) :
    cached name w = .ok (Table.get? w.byName name) w := rfl

/-! ### Searches -/

/-- Names come to be known only when a search is over. -/
def Searching (w w' : World) : Prop := Extends Cells.beyondOwn w w' ∧ w'.byName = w.byName

theorem searching_course : Course Searching where
  refl w := ⟨(extends_course _).refl w, rfl⟩
  trans h h' := ⟨(extends_course _).trans h.1 h'.1, h'.2.trans h.2⟩

theorem own_searching (r : Registry) (e : Entry) : Along Searching any (r.own e) anything := by
  refine .and ((own_along r e).weaken (fun _ _ h => h) fun _ _ _ => trivial) fun w => ?_
  rw [after, own_apply]
  cases (w.cellsOf e).own with
  | some params => rfl
  | none => cases mapOn "parameters" e r.config.parameters w.disk <;> rfl

theorem byPath_searching (path : Path) :
    Along Searching any (byPath path) fun e w => w.Listed e := by
  refine .and ((byPath_along path).coarsen Cells.beyondOwn) fun w => ?_
  rw [after]
  cases h : Table.get? w.byPath path.normalize.components with
  | some e => rw [byPath_of_known h]
  | none => rw [byPath_of_unknown h, enroll]

theorem cached_along (name : String) :
    Along Searching any (cached name) fun found w => found = Table.get? w.byName name := by
  intro w hw _
  refine ⟨searching_course.refl w, hw, fun found w' hf => ?_⟩
  rw [cached_apply] at hf
  cases hf
  rfl

theorem listed_searching {P : World → Prop} (path : Path) :
    Along Searching P (do return some (← byPath path)) listedIfAny :=
  .bind searching_course (byPath_searching path).anywhere fun _ =>
    .pure searching_course fun _ _ he => listedIfAny_some he

theorem indexed_along (r : Registry) (collection : Entry) (name : String) :
    Along Searching any (r.indexed collection name) listedIfAny := by
  refine .bind searching_course (own_searching r collection) fun params => ?_
  cases (Table.get? (indexOf params) name).bind Json.str? with
  | none => exact .pure searching_course fun w _ _ => listedIfAny_none w
  | some place => exact listed_searching _

theorem searched_along (r : Registry) (collection : Entry) (item : String) :
    Along Searching any (r.searched collection item) listedIfAny := by
  rw [searched]
  split
  · exact listed_searching _
  · refine .bind searching_course (indexed_along r collection item) fun found => ?_
    cases found with
    | some e => exact .pure searching_course fun _ _ h => h
    | none =>
        exact (cached_along item).anywhere.weaken (fun _ _ h => h) fun found w h e he =>
          .inr ⟨item, h.symm.trans he⟩

theorem leadsTo_along (r : Registry) (lead : Lead) :
    Along Searching any (r.leadsTo lead) anything := by
  cases lead with
  | collection c => exact .pure searching_course fun _ _ _ => trivial
  | item c text => exact (searched_along r c text).weaken (fun _ _ h => h) fun _ _ _ => trivial

/-- What a search has found, if anything yet, can be looked up. -/
def Search.listed (s : Search) (w : World) : Prop :=
  match s with
  | .found e _ => w.Listed e
  | .going .. => True

theorem visit_along (r : Registry) (name : String) (collection : Entry) (rest : List Lead)
    (visited : List Path) :
    Along Searching any (r.visit name collection rest visited) Search.listed := by
  refine .bind searching_course (indexed_along r collection name) fun found => ?_
  cases found with
  | some e => exact .pure searching_course fun w _ h => h e rfl
  | none =>
      exact .bind searching_course (own_searching r collection).anywhere fun params =>
        .pure searching_course fun _ _ _ => trivial

theorem pursue_along (r : Registry) (name : String) (lead : Lead) (rest : List Lead)
    (visited : List Path) :
    Along Searching any (r.pursue name lead rest visited) Search.listed := by
  refine .bind searching_course (leadsTo_along r lead) fun found => ?_
  cases found with
  | none => exact .pure searching_course fun _ _ _ => trivial
  | some collection =>
      dsimp only
      split
      · exact .pure searching_course fun _ _ _ => trivial
      · exact (visit_along r name collection rest visited).anywhere

/-- A search as a loop: a round follows the first lead. -/
def searchRound (r : Registry) (name : String) : Round (List Lead × List Path) Finding := fun s =>
  match s.1 with
  | [] => return .inr (none, s.2)
  | lead :: rest => do
    match ← r.pursue name lead rest s.2 with
    | .found e visited => return .inr (some e, visited)
    | .going leads visited => return .inl (leads, visited)

theorem searchRound_cons (r : Registry) (name : String) (lead : Lead) (rest : List Lead)
    (visited : List Path) (w : World) : r.searchRound name (lead :: rest, visited) w =
      match r.pursue name lead rest visited w with
      | .error e w₁ => .error e w₁
      | .ok (.found e visited) w₁ => .ok (.inr (some e, visited)) w₁
      | .ok (.going leads visited) w₁ => .ok (.inl (leads, visited)) w₁ := by
  refine (bind_apply ..).trans ?_
  cases r.pursue name lead rest visited w with
  | error e w₁ => rfl
  | ok next w₁ => cases next <;> rfl

theorem explore_eq_run (r : Registry) (name : String) (leads : List Lead) (visited : List Path)
    (w : World) : r.explore name leads visited w = (r.searchRound name).run (leads, visited) w := by
  refine Option.ext fun out => ⟨fun h => ?_, fun h => ?_⟩
  · refine explore.partial_correctness r name
      (motive := fun leads visited w out => (r.searchRound name).run (leads, visited) w = some out)
      (fun explore ih leads visited w out h => ?_) leads visited w out h
    cases leads with
    | nil => exact (run_of_inr rfl).trans h
    | cons lead rest =>
        dsimp only at h
        rw [Round.run, searchRound_cons]
        cases hp : r.pursue name lead rest visited w with
        | error e w₁ => rwa [hp] at h
        | ok next w₁ =>
            rw [hp] at h
            cases next with
            | found e visited => exact h
            | going leads visited => exact ih leads visited w₁ out h
  · refine run_induct (motive := fun s w out => r.explore name s.1 s.2 w = some out)
      (fun s w => ?_) h
    obtain ⟨leads, visited⟩ := s
    cases leads with
    | nil => exact explore.eq_1 ..
    | cons lead rest =>
        rw [searchRound_cons, explore]
        cases r.pursue name lead rest visited w with
        | error e w₁ => rfl
        | ok next w₁ =>
            cases next with
            | found e visited => rfl
            | going leads visited => exact fun _ more => more

/-- A search is the loop of its rounds. -/
theorem search_eq_loop (r : Registry) (name : String) (leads : List Lead) (visited : List Path) :
    r.search name leads visited = loop (r.searchRound name) (leads, visited) :=
  funext fun w => by rw [search, loop, explore_eq_run]

theorem search_along (r : Registry) (name : String) (leads : List Lead) (visited : List Path) :
    Along Searching any (r.search name leads visited) fun found w => listedIfAny found.1 w := by
  rw [search_eq_loop]
  refine .loop searching_course (I := fun _ => any) (fun s => ?_) (leads, visited)
  obtain ⟨leads, visited⟩ := s
  cases leads with
  | nil => exact .pure searching_course fun w _ _ => listedIfAny_none w
  | cons lead rest =>
      refine .bind searching_course (pursue_along r name lead rest visited) fun next => ?_
      cases next with
      | found e visited => exact .pure searching_course fun w _ h => listedIfAny_some h
      | going leads visited => exact .pure searching_course fun _ _ _ => trivial

theorem searchFrom_along (r : Registry) (name : String) (collection : Entry)
    (visited : List Path) :
    Along Searching any (r.searchFrom name collection visited)
      fun found w => listedIfAny found.1 w :=
  search_along r name _ visited

theorem byName_along (r : Registry) (name : String) :
    Along (Extends Cells.beyondOwn) any (r.byName name) listedIfAny := by
  have course := extends_course Cells.beyondOwn
  refine .bind course ((cached_along name).mono fun _ _ hr => hr.1) fun found => ?_
  cases found with
  | some e =>
      exact .pure course fun w _ h => listedIfAny_some (.inr ⟨name, h.symm⟩)
  | none =>
      -- The name is as unknown after the search as before it, so to keep it makes none forgotten.
      have search := ((search_along r name (r.roots.map .collection) []).frame
        (F := fun w => Table.get? w.byName name = none) fun w w' (hr : Searching w w') hn =>
          hr.2 ▸ hn).mono
          fun _ _ hr => hr.1
      refine .bind course (search.weaken (fun w _ h => ⟨trivial, h.symm⟩) fun _ _ h => h)
        fun found => ?_
      obtain ⟨found, visited⟩ := found
      cases found with
      | none => exact .pure course fun w _ _ => listedIfAny_none w
      | some e =>
          intro w hw h
          have listed := h.1 e rfl
          refine ⟨(extends_knowName listed h.2).of_finer fun _ _ => congrArg _,
            hw.knowName name (hw.holds_of_listed listed), fun found w' hf => ?_⟩
          cases hf
          exact listedIfAny_some (.inr ⟨name, Table.get?_insert_self _ _ _⟩)

section

variable {r : Registry} {name : String} {w w' : World}

theorem byName_of_cached {e : Entry} (h : Table.get? w.byName name = some e) :
    r.byName name w = .ok (some e) w := by
  rw [byName, bind_of_ok (cached_apply name w), h]
  rfl

theorem byName_of_unknown (unknown : Table.get? w.byName name = none) :
    r.byName name w = match r.search name (r.roots.map .collection) [] w with
      | .ok (some e, _) w' => .ok (some e) { w' with byName := Table.insert w'.byName name e }
      | .ok (none, _) w' => .ok none w'
      | .error e w' => .error e w' := by
  rw [byName, bind_of_ok (cached_apply name w), unknown]
  dsimp only
  rw [bind_apply]
  cases r.search name (r.roots.map .collection) [] w with
  | error e w' => rfl
  | ok finding w' =>
      obtain ⟨found, visited⟩ := finding
      cases found <;> rfl

/-- What a search from the roots finds is known by its name from then on. -/
theorem byName_eq_ok {found : Option Entry} (unknown : Table.get? w.byName name = none)
    (h : r.byName name w = .ok found w') : ∃ visited w₁,
      r.search name (r.roots.map .collection) [] w = .ok (found, visited) w₁ ∧
        w'.byPath = w₁.byPath ∧ ∀ e ∈ found, Table.get? w'.byName name = some e := by
  rw [byName_of_unknown unknown] at h
  split at h <;> rename_i hsearch
  · cases h
    refine ⟨_, _, hsearch, rfl, fun e he => ?_⟩
    cases he
    exact Table.get?_insert_self _ _ _
  · cases h
    refine ⟨_, _, hsearch, rfl, fun e he => ?_⟩
    cases he
  · cases h

end

/-! ### Ancestry -/

theorem parentNamed_along (r : Registry) (e : Entry) (reference : String) :
    Along (Extends Cells.beyondOwn) any (r.parentNamed e reference) listedIfAny := by
  have course := extends_course Cells.beyondOwn
  rw [parentNamed]
  split
  · exact .pure course fun w _ _ => listedIfAny_none w
  · split
    · exact .bind course ((byPath_along _).coarsen Cells.beyondOwn) fun e =>
        .pure course fun w _ he => listedIfAny_some he
    · exact byName_along r reference

theorem findParent_along (r : Registry) (e : Entry) :
    Along (Extends Cells.beyondMetadata) any (r.findParent e) listedIfAny := by
  have course := extends_course Cells.beyondMetadata
  refine .bind course (metadataValue_along r e _) fun value => ?_
  split
  · exact .pure course fun w _ _ => listedIfAny_none w
  · exact .pure course fun w _ _ => listedIfAny_none w
  · exact ((parentNamed_along r e _).coarsen Prod.snd).anywhere
  · exact .throw course _

/-- The parent of an entry is an entry of the world, and is known from then on. -/
theorem parent_along (r : Registry) (e : Entry) :
    Along (Extends Cells.nothing) any (r.parent e) fun found w =>
      heldIfAny found w ∧ (w.Holds e → (w.cellsOf e).parent = some found) := by
  rw [parent_eq_once]
  refine once_along ?_ ?_ ?_ ?_ ?_ ?_ ?_ (findParent_along r e)
  · intro c c' h
    exact congrArg Prod.fst h
  · intro c c' _
    rfl
  · intro found c
    rfl
  · intro found w hw hk p hp
    cases hp
    exact hw.parent e p hk
  · intro found w hw hq
    refine hw.setCells e (fun params hp => hw.own e params hp) fun p hp => ?_
    cases hp
    exact hw.holds_of_listed (hq p rfl)
  · intro found w hq p hp
    cases hp
    exact .inl (hq p rfl)
  · intro found w w' hw h hq p hp
    exact h.holds (hw.holds_of_listed (hq p hp))

theorem findOperations_along (r : Registry) (e : Entry) :
    Along (Extends Cells.beyondMetadata) any (r.findOperations e) anything := by
  have course := extends_course Cells.beyondMetadata
  refine .bind course (metadataValue_along r e _) fun value => ?_
  split
  · exact .pure course fun _ _ _ => trivial
  · exact .pure course fun _ _ _ => trivial
  · exact .pure course fun _ _ _ => trivial
  · exact .throw course _

theorem operations_along (r : Registry) (e : Entry) :
    Along (Extends Cells.nothing) any (r.operations e) fun found w =>
      w.Holds e → (w.cellsOf e).operations = some found := by
  rw [operations_eq_once]
  refine (once_along (S := anything) ?_ ?_ ?_ ?_ ?_ ?_ ?_ (findOperations_along r e)).weaken
    (fun _ _ h => h) fun _ _ h => h.2
  · intro c c' h
    exact congrArg Prod.snd h
  · intro c c' _
    rfl
  · intro found c
    rfl
  · intro found w _ _
    trivial
  · intro found w hw _
    exact hw.setCells e (fun params hp => hw.own e params hp) fun p hp => hw.parent e p hp
  · intro found w _ p hp
    exact .inr hp
  · intro found w w' _ _ _
    trivial

theorem own_extends (r : Registry) (e : Entry) :
    Along (Extends Cells.nothing) any (r.own e) fun params w =>
      Table.Distinct params ∧ (w.Holds e → (w.cellsOf e).own = some params) :=
  (own_along r e).coarsen fun _ => ()

def heldAll (chain : List Entry) (w : World) : Prop := ∀ e ∈ chain, w.Holds e

theorem heldAll_of_grows {w w' : World} (h : w.Grows w') {chain : List Entry}
    (hc : heldAll chain w) : heldAll chain w' :=
  fun e he => h.holds (hc e he)

theorem above_along (r : Registry) (t : Trail) :
    Along (Extends Cells.nothing) any (r.above t) fun next w =>
      ∀ t' ∈ next, ∃ p, w.Holds p ∧ t' = ⟨t.chain ++ [p], p⟩ := by
  have course := extends_course Cells.nothing
  refine .bind course (parent_along r t.last) fun found => ?_
  cases found with
  | none => exact .pure course fun _ _ _ _ h => by cases h
  | some p =>
      dsimp only
      split
      · exact .throw course _
      · refine .pure course fun w _ h t' ht' => ?_
        cases ht'
        exact ⟨p, h.1 p rfl, rfl⟩

/-- If the chain so far is of entries of the world, so is the whole. -/
theorem ancestryFrom_along (r : Registry) (ours : Prop) (t : Trail) :
    Along (Extends Cells.nothing) (fun w => ours → heldAll t.chain w)
      (Action.loop r.ancestryRound t) fun chain w => ours → heldAll chain w := by
  have course := extends_course Cells.nothing
  refine .loop course (I := fun t w => ours → heldAll t.chain w) (fun t => ?_) t
  have above := ((above_along r t).frame (F := fun w => ours → heldAll t.chain w)
    fun _ _ h hc ours => heldAll_of_grows h.grows (hc ours)).weaken
      (fun _ _ h => ⟨trivial, h⟩) fun _ _ h => h
  refine .bind course above fun next => ?_
  cases next with
  | none => exact .pure course fun _ _ h => h.2
  | some t' =>
      refine .pure course fun w _ h hours e he => ?_
      obtain ⟨p, hp, rfl⟩ := h.1 t' rfl
      rcases List.mem_append.mp he with he | he
      · exact h.2 hours e he
      · cases List.mem_singleton.mp he
        exact hp

theorem ancestry_along (r : Registry) (e : Entry) :
    Along (Extends Cells.nothing) (fun w => w.Holds e) (r.ancestry e) heldAll :=
  (ancestryFrom_along r True ⟨[e], e⟩).weaken (fun _ _ h _ => List.forall_mem_singleton.mpr h)
    fun _ _ h => h trivial

theorem ancestry_anywhere (r : Registry) (e : Entry) :
    Along (Extends Cells.nothing) any (r.ancestry e) anything :=
  (ancestryFrom_along r False ⟨[e], e⟩).weaken (fun _ _ _ h => h.elim) fun _ _ _ => trivial

theorem mapM_along {α β : Type} {R : World → World → Prop} (course : Course R)
    {f : α → Action β} (xs : List α) {Q : α → β → World → Prop}
    (h : ∀ x, Along R any (f x) (Q x)) : Along R any (xs.mapM f) anything := by
  induction xs with
  | nil => exact .pure course fun _ _ _ => trivial
  | cons x xs ih =>
      rw [List.mapM_cons]
      exact .bind course (h x) fun _ => .bind course ih.anywhere fun _ =>
        .pure course fun _ _ _ => trivial

theorem merged_along (r : Registry) (e : Entry) :
    Along (Extends Cells.nothing) any (r.merged e) anything := by
  have course := extends_course Cells.nothing
  exact .bind course (ancestry_anywhere r e) fun chain =>
    .bind course (mapM_along course chain.reverse (own_extends r)).anywhere fun _ =>
      .pure course fun _ _ _ => trivial

theorem parameter_along (r : Registry) (e : Entry) (name : String) :
    Along (Extends Cells.nothing) any (r.parameter e name) anything := by
  have course := extends_course Cells.nothing
  exact .bind course (merged_along r e) fun _ => .pure course fun _ _ _ => trivial

/-! ### Methods -/

theorem reach_along (r : Registry) (e : Entry) (method : String) :
    Along (Extends Cells.nothing) any (r.reach e method) anything := by
  have course := extends_course Cells.nothing
  refine .loop course (I := fun (_ : Trail) => any) (fun t => ?_) ⟨[e], e⟩
  refine .bind course (operations_along r t.last) fun found => ?_
  cases found.bind fun ns => ns.get? method with
  | some operation => exact .pure course fun _ _ _ => trivial
  | none =>
      refine .bind course (above_along r t).anywhere fun next => ?_
      cases next with
      | none => exact .throw course _
      | some t' => exact .pure course fun _ _ _ => trivial

theorem dispatch_along (r : Registry) (e : Entry) (method : String) :
    Along (Extends Cells.nothing) any (r.dispatch e method) anything := by
  intro w hw _
  obtain ⟨hr, hs, -⟩ := reach_along r e method w hw trivial
  have hafter : after (r.dispatch e method) w = after (r.reach e method) w := by
    simp only [after, dispatch]
    cases r.reach e method w with
    | ok reached w' => rfl
    | error err w' =>
        cases err with
        | operationNotFound name visited => cases r.builtin? method <;> rfl
        | _ => rfl
  rw [hafter]
  exact ⟨hr, hs, fun _ _ _ => trivial⟩

theorem describeEntry_along (r : Registry) (e : Entry) :
    Along (Extends Cells.nothing) any (r.describeEntry e) anything := by
  have course := extends_course Cells.nothing
  exact .bind course (ancestry_anywhere r e) fun chain =>
    .bind course (operations_along r e).anywhere fun _ =>
      .bind course (mapM_along course chain (operations_along r)).anywhere fun _ =>
        .pure course fun _ _ _ => trivial

theorem describeMethod_along (r : Registry) (e : Entry) (method : String) :
    Along (Extends Cells.nothing) any (r.describeMethod e method) anything := by
  have course := extends_course Cells.nothing
  refine .bind course (dispatch_along r e method) fun found => ?_
  cases found with
  | inherited reached => exact .pure course fun _ _ _ => trivial
  | builtin layer op => exact .pure course fun _ _ _ => trivial

end Registry
end Lineage
