import Lineage.Proofs.Registry.Identity

/-!
An entry among those that a registry comes by. Whoever is looked up has a number other than that of
the entry, or is the entry itself; so whatever is looked up, its own parameters stay what they are,
be they loaded yet or still in its document.
-/
namespace Lineage

open World Action

/-- Not to be taken for `c`: another number, or `c` itself. -/
def Entry.Proper (c e : Entry) : Prop := e.id = c.id → e = c

namespace Registry

/-- Whom a lookup can come by: the roots, who is known by path or by name, and the parents found. -/
inductive Meets (r : Registry) (w : World) : Entry → Prop
  | root {e} (h : e ∈ r.roots) : Meets r w e
  | path {place e} (h : Table.get? w.byPath place = some e) : Meets r w e
  | name {name e} (h : Table.get? w.byName name = some e) : Meets r w e
  | parent {x e} (h : (w.cellsOf x).parent = some (some e)) : Meets r w e

/-- An entry of a world with a normal path and a number to itself. Whoever is known by a path stands
there. -/
structure Hosts (r : Registry) (c : Entry) (w : World) : Prop where
  held : w.Holds c
  normal : c.path.normalize = c.path
  placed : ∀ place e, Table.get? w.byPath place = some e →
    place = e.path.components ∧ e.path.normalize = e.path
  alone : ∀ e, r.Meets w e → c.Proper e

theorem hosts_of_known {r : Registry} {c : Entry} {w : World} (sound : w.Sound)
    (faithful : w.Faithful) (known : w.Known c) (roots : ∀ root ∈ r.roots, w.Known root) :
    r.Hosts c w where
  held := sound.holds_of_known known
  normal := faithful.normal known
  placed := faithful.place
  alone e met same := by
    refine faithful.alone e c ?_ known same
    cases met with
    | root h => exact roots e h
    | path h => exact faithful.known_of_listed (.inl ⟨_, h⟩)
    | name h => exact faithful.name _ e h
    | parent h => exact faithful.parent _ e h

/-- Every entry known by its path is one, in all worlds that a registry with collections at different
places comes to. -/
theorem hosts_of_later {config : Config} {base : Path} {catalog : Catalog} {builtins : List Namespace}
    {disk : Disk} {r : Registry} {c : Entry} {w₀ w : World}
    (start : ofConfig config base catalog builtins { disk } = .ok r w₀)
    (distinct : (config.collections.map (rootPlace base)).Nodup) (run : Later r w₀ w)
    (known : w.Known c) : r.Hosts c w := by
  obtain ⟨sound₀, faithful₀, roots₀⟩ := ofConfig_faithful start distinct
  obtain ⟨remembers, sound⟩ := run.remembers sound₀
  exact hosts_of_known sound (remembers.faithful faithful₀) known
    fun root h => remembers.known (roots₀ root h)

/-- What is kept while others are looked up: the disk, the place of an entry, and what its own
parameters are. -/
structure Same (r : Registry) (c : Entry) (w w' : World) : Prop where
  disk : w'.disk = w.disk
  hosts : r.Hosts c w'
  own : value (r.own c) w' = value (r.own c) w

/-- An action that keeps them wherever the entry is hosted, and answers with what has `Q`. -/
def Leaves {α : Type} (r : Registry) (c : Entry) (act : Action α) (Q : α → Prop) : Prop :=
  ∀ w, r.Hosts c w → r.Same c w (after act w) ∧ ∀ a w', act w = .ok a w' → Q a

section

variable {α β : Type} {r : Registry} {c : Entry} {w w' : World}

theorem Same.refl (h : r.Hosts c w) : r.Same c w w := ⟨rfl, h, rfl⟩

theorem Same.trans {w'' : World} (h : r.Same c w w') (h' : r.Same c w' w'') : r.Same c w w'' :=
  ⟨h'.disk.trans h.disk, h'.hosts, h'.own.trans h.own⟩

namespace Leaves

theorem of_ok {act : Action α} {Q : α → Prop} (h : r.Leaves c act Q) (hosts : r.Hosts c w) {a : α}
    (ha : act w = .ok a w') : r.Same c w w' ∧ Q a := by
  obtain ⟨same, answers⟩ := h w hosts
  rw [after_of_ok ha] at same
  exact ⟨same, answers a w' ha⟩

theorem of_error {act : Action α} {Q : α → Prop} (h : r.Leaves c act Q) (hosts : r.Hosts c w)
    {e : Error} (he : act w = .error e w') : r.Same c w w' := by
  have same := (h w hosts).1
  rwa [after_of_error he] at same

theorem pure {a : α} {Q : α → Prop} (h : Q a) : r.Leaves c (pure a) Q := by
  intro w hosts
  refine ⟨.refl hosts, fun b w' hb => ?_⟩
  cases hb
  exact h

theorem throw (e : Error) {Q : α → Prop} : r.Leaves c (throw e : Action α) Q :=
  fun _ hosts => ⟨.refl hosts, fun _ _ h => nomatch h⟩

theorem bind {act : Action α} {next : α → Action β} {Q : α → Prop} {Q' : β → Prop}
    (h : r.Leaves c act Q) (hn : ∀ a, Q a → r.Leaves c (next a) Q') :
    r.Leaves c (act >>= next) Q' := by
  intro w hosts
  obtain ⟨same, answers⟩ := h w hosts
  refine bind_rule same fun a w₁ ha => ?_
  rw [after_of_ok ha] at same
  obtain ⟨same', answers'⟩ := hn a (answers a w₁ ha) w₁ same.hosts
  exact ⟨same.trans same', answers'⟩

theorem get_bind {next : World → Action α} {Q : α → Prop}
    (h : ∀ w, r.Hosts c w → r.Leaves c (next w) Q) : r.Leaves c (get >>= next) Q :=
  fun w hosts => h w hosts w hosts

theorem loop {σ : Type} {step : Round σ α} {I : σ → Prop} {Q : α → Prop}
    (h : ∀ s, I s → r.Leaves c (step s) fun next => next.elim I Q) {s : σ} (start : I s) :
    r.Leaves c (loop step s) Q := by
  intro w hosts
  refine loop_rule (I := fun s w' => r.Same c w w' ∧ I s) (fun _ _ hi => hi.1) (fun s w₁ hi => ?_)
    ⟨.refl hosts, start⟩
  obtain ⟨same, hs⟩ := hi
  obtain ⟨same', answers⟩ := h s hs w₁ same.hosts
  refine ⟨same.trans same', fun next w' hn => ?_⟩
  have post := answers next w' hn
  rw [after_of_ok hn] at same'
  cases next with
  | inl t => exact ⟨same.trans same', post⟩
  | inr a => exact post

theorem mapM {f : α → Action β} {xs : List α} (h : ∀ x ∈ xs, r.Leaves c (f x) fun _ => True) :
    r.Leaves c (xs.mapM f) fun _ => True := by
  induction xs with
  | nil => exact .pure trivial
  | cons x xs ih =>
      obtain ⟨hx, hxs⟩ := List.forall_mem_cons.mp h
      rw [List.mapM_cons]
      exact hx.bind fun _ _ => (ih hxs).bind fun _ _ => .pure trivial

end Leaves

/-! ### Loading -/

theorem value_own (r : Registry) (e : Entry) (w : World) :
    value (r.own e) w = match (w.cellsOf e).own with
      | some params => .ok params
      | none => mapOn "parameters" e r.config.parameters w.disk := by
  rw [value, own_apply]
  cases (w.cellsOf e).own with
  | some params => rfl
  | none => cases mapOn "parameters" e r.config.parameters w.disk <;> rfl

theorem value_own_congr {e : Entry} (own : (w'.cellsOf e).own = (w.cellsOf e).own)
    (disk : w'.disk = w.disk) : value (r.own e) w' = value (r.own e) w := by
  rw [value_own, value_own, own, disk]

/-- New cells change nothing of this if they keep the own parameters, and any new parent is proper. -/
theorem Hosts.setCells (hosts : r.Hosts c w) (x : Entry) {cells : Cells}
    (parent : ∀ p, cells.parent = some (some p) → c.Proper p) : r.Hosts c (w.setCells x cells) where
  held := holds_setCells.mpr hosts.held
  normal := hosts.normal
  placed := hosts.placed
  alone e met := by
    cases met with
    | root h => exact hosts.alone e (.root h)
    | path h => exact hosts.alone e (.path h)
    | name h => exact hosts.alone e (.name h)
    | @parent y _ h =>
        rcases cellsOf_setCells_cases w x y cells with ⟨-, hc⟩ | hc
        · exact parent e (hc ▸ h)
        · exact hosts.alone e (.parent (hc ▸ h))

theorem Hosts.parent_proper (hosts : r.Hosts c w) (x : Entry) {p : Entry}
    (h : (w.cellsOf x).parent = some (some p)) : c.Proper p :=
  hosts.alone p (.parent h)

theorem own_leaves {x : Entry} (proper : c.Proper x) : r.Leaves c (r.own x) fun _ => True := by
  intro w hosts
  refine ⟨?_, fun _ _ _ => trivial⟩
  rw [after, own_apply]
  cases hk : (w.cellsOf x).own with
  | some params => exact .refl hosts
  | none =>
      dsimp only
      cases hm : mapOn "parameters" x r.config.parameters w.disk with
      | error err => exact .refl hosts
      | ok params =>
          refine ⟨rfl, hosts.setCells x fun p hp => hosts.parent_proper x hp, ?_⟩
          by_cases same : x.id = c.id
          · obtain rfl := proper same
            rw [value_own, cellsOf_setCells_self hosts.held rfl, value_own, hk, hm]
          · exact value_own_congr (by rw [cellsOf_setCells_ne (Ne.symm same)]) rfl

/-- A part other than the own parameters is found out once. -/
theorem once_leaves {part : Cells.Part β} {x : Entry} {find : Action β} {Q : β → Prop}
    (unseen : ∀ b cells, (part.keep b cells).own = cells.own)
    (parent : ∀ b cells, Q b → (∀ p, cells.parent = some (some p) → c.Proper p) →
      ∀ p, (part.keep b cells).parent = some (some p) → c.Proper p)
    (already : ∀ b w, r.Hosts c w → part.known (w.cellsOf x) = some b → Q b)
    (h : r.Leaves c find Q) : r.Leaves c (once part x find) Q := by
  refine .get_bind fun w hosts => ?_
  cases hk : part.known (w.cellsOf x) with
  | some b => exact .pure (already b w hosts hk)
  | none =>
      refine h.bind fun b hb => Leaves.bind (Q := fun _ => True) (fun w₁ hosts₁ => ?_)
        fun _ _ => .pure hb
      refine ⟨⟨rfl, hosts₁.setCells x (parent b _ hb fun p => hosts₁.parent_proper x), ?_⟩,
        fun _ _ _ => trivial⟩
      refine value_own_congr ?_ rfl
      show ((w₁.setCells x (part.keep b (w₁.cellsOf x))).cellsOf c).own = _
      rcases cellsOf_setCells_cases w₁ x c (part.keep b (w₁.cellsOf x)) with ⟨same, hc⟩ | hc
      · rw [hc, unseen, cellsOf_congr w₁ same]
      · rw [hc]

theorem readMap_leaves (what : String) (x : Entry) (place : DocumentPlace) :
    r.Leaves c (readMap what x place) fun _ => True := by
  intro w hosts
  refine ⟨?_, fun _ _ _ => trivial⟩
  rw [after_of_result (readMap_eq_mapOn what x place w)]
  exact .refl hosts

theorem metadata_leaves {x : Entry} (proper : c.Proper x) :
    r.Leaves c (r.metadata x) fun _ => True := by
  rw [metadata_eq_once]
  refine once_leaves (fun _ _ => rfl) (fun _ _ _ h => h) (fun _ _ _ _ => trivial) ?_
  split
  · exact own_leaves proper
  · exact readMap_leaves _ x _

theorem metadataValue_leaves {x : Entry} (proper : c.Proper x) (key : String) :
    r.Leaves c (r.metadataValue x key) fun _ => True :=
  (metadata_leaves proper).bind fun _ _ => .pure trivial

/-! ### Entries by path and by name -/

theorem Hosts.enroll (hosts : r.Hosts c w) {place : Path} (normal : place.normalize = place)
    (name : String) : r.Hosts c (w.enroll place name) where
  held := Nat.lt_of_lt_of_le hosts.held (by simp [World.enroll])
  normal := hosts.normal
  placed key e he := by
    rw [World.enroll, Table.get?_insert] at he
    split at he
    · rename_i hkey
      cases he
      exact ⟨hkey.symm, normal⟩
    · exact hosts.placed key e he
  alone e met := by
    cases met with
    | root h => exact hosts.alone e (.root h)
    | name h => exact hosts.alone e (.name h)
    | parent h => exact hosts.alone e (.parent (cellsOf_enroll w place name _ ▸ h))
    | path h =>
        rw [World.enroll, Table.get?_insert] at h
        split at h
        · cases h
          exact fun same => absurd same.symm (Nat.ne_of_lt hosts.held)
        · exact hosts.alone e (.path h)

/-- The entry at a path is found or made there. -/
theorem byPath_leaves (path : Path) :
    r.Leaves c (byPath path) fun e => c.Proper e ∧ e.path = path.normalize := by
  intro w hosts
  cases h : Table.get? w.byPath path.normalize.components with
  | some e =>
      have hb := byPath_of_known h
      rw [after_of_ok hb]
      refine ⟨.refl hosts, fun e' w' he => ?_⟩
      cases hb.symm.trans he
      obtain ⟨place, normal⟩ := hosts.placed _ e h
      exact ⟨hosts.alone e (.path h),
        Path.eq_of_components normal path.normalize_normalize place.symm⟩
  | none =>
      have hb := byPath_of_unknown h
      rw [after_of_ok hb]
      refine ⟨⟨rfl, hosts.enroll path.normalize_normalize _, ?_⟩, fun e' w' he => ?_⟩
      · exact value_own_congr (by rw [cellsOf_enroll]) rfl
      · cases hb.symm.trans he
        exact ⟨fun same => absurd same.symm (Nat.ne_of_lt hosts.held), rfl⟩

theorem entryAt_leaves (path : Path) :
    r.Leaves c (byPath path >>= fun e => pure (some e)) fun found => ∀ e ∈ found, c.Proper e := by
  refine (byPath_leaves path).bind fun e he => .pure fun x hx => ?_
  cases hx
  exact he.1

theorem cached_leaves (name : String) :
    r.Leaves c (cached name) fun found => ∀ e ∈ found, c.Proper e := by
  intro w hosts
  refine ⟨.refl hosts, fun found w' h e he => ?_⟩
  cases h
  exact hosts.alone e (.name he)

/-! ### Searches -/

theorem proper_of_none : ∀ e ∈ (none : Option Entry), c.Proper e := by
  intro e h
  cases h

def Lead.from : Lead → Entry
  | .collection x | .item x _ => x

theorem indexed_leaves {x : Entry} (proper : c.Proper x) (name : String) :
    r.Leaves c (r.indexed x name) fun found => ∀ e ∈ found, c.Proper e := by
  refine (own_leaves proper).bind fun params _ => ?_
  split
  · exact entryAt_leaves _
  · exact .pure proper_of_none

theorem searched_leaves {x : Entry} (proper : c.Proper x) (item : String) :
    r.Leaves c (r.searched x item) fun found => ∀ e ∈ found, c.Proper e := by
  rw [searched]
  split
  · exact entryAt_leaves _
  · refine (indexed_leaves proper item).bind fun found hf => ?_
    cases found with
    | some e => exact .pure hf
    | none => exact cached_leaves item

/-- A search goes on with proper entries only. -/
def Search.Proper (c : Entry) : Search → Prop
  | .found e _ => c.Proper e
  | .going leads _ => ∀ lead ∈ leads, c.Proper lead.from

theorem visit_leaves {x : Entry} (proper : c.Proper x) (name : String) {rest : List Lead}
    (hrest : ∀ lead ∈ rest, c.Proper lead.from) (visited : List Path) :
    r.Leaves c (r.visit name x rest visited) (Search.Proper c) := by
  refine (indexed_leaves proper name).bind fun found hf => ?_
  cases found with
  | some e => exact .pure (hf e rfl)
  | none =>
      refine (own_leaves proper).bind fun params _ => .pure fun lead hl => ?_
      rcases List.mem_append.mp hl with hl | hl
      · obtain ⟨item, -, rfl⟩ := List.mem_map.mp hl
        exact proper
      · exact hrest lead hl

theorem pursue_leaves (name : String) {lead : Lead} {rest : List Lead}
    (hleads : ∀ l ∈ lead :: rest, c.Proper l.from) (visited : List Path) :
    r.Leaves c (r.pursue name lead rest visited) (Search.Proper c) := by
  obtain ⟨hlead, hrest⟩ := List.forall_mem_cons.mp hleads
  have leads : r.Leaves c (r.leadsTo lead) fun found => ∀ e ∈ found, c.Proper e := by
    cases lead with
    | collection x =>
        refine .pure fun e he => ?_
        cases he
        exact hlead
    | item x text => exact searched_leaves hlead text
  refine leads.bind fun found hf => ?_
  cases found with
  | none => exact .pure hrest
  | some x =>
      dsimp only
      split
      · exact .pure hrest
      · exact visit_leaves (hf x rfl) name hrest visited

theorem search_leaves (name : String) {leads : List Lead} (visited : List Path)
    (proper : ∀ lead ∈ leads, c.Proper lead.from) :
    r.Leaves c (r.search name leads visited) fun found => ∀ e ∈ found.1, c.Proper e := by
  rw [search_eq_loop]
  refine .loop (I := fun s => ∀ lead ∈ s.1, c.Proper lead.from) (fun s hs => ?_) proper
  obtain ⟨leads, visited⟩ := s
  cases leads with
  | nil => exact .pure proper_of_none
  | cons lead rest =>
      refine (pursue_leaves name hs visited).bind fun next hn => ?_
      cases next with
      | found e visited =>
          refine .pure fun x hx => ?_
          cases hx
          exact hn
      | going leads visited => exact .pure hn

theorem byName_leaves (name : String) :
    r.Leaves c (r.byName name) fun found => ∀ e ∈ found, c.Proper e := by
  intro w hosts
  -- The roots are proper since they are met, and they are what the search starts from.
  have roots : ∀ lead ∈ r.roots.map Lead.collection, c.Proper lead.from := by
    intro lead hl
    obtain ⟨root, hr, rfl⟩ := List.mem_map.mp hl
    exact hosts.alone root (.root hr)
  have leaves : r.Leaves c (r.byName name) fun found => ∀ e ∈ found, c.Proper e := by
    refine (cached_leaves name).bind fun found hf => ?_
    cases found with
    | some e => exact .pure hf
    | none =>
        refine (search_leaves name [] roots).bind fun finding hs => ?_
        obtain ⟨found, visited⟩ := finding
        cases found with
        | none => exact .pure proper_of_none
        | some e =>
            refine Leaves.bind (Q := fun _ => True) (fun w hosts => ?_) fun _ _ => .pure hs
            refine ⟨⟨rfl, ?_, value_own_congr rfl rfl⟩, fun _ _ _ => trivial⟩
            refine ⟨hosts.held, hosts.normal, hosts.placed, fun x met => ?_⟩
            cases met with
            | root h => exact hosts.alone x (.root h)
            | path h => exact hosts.alone x (.path h)
            | parent h => exact hosts.alone x (.parent h)
            | @name key _ h =>
                replace h : Table.get? (Table.insert w.byName name e) key = some x := h
                rw [Table.get?_insert] at h
                split at h
                · cases h
                  exact hs e rfl
                · exact hosts.alone x (.name h)
  exact leaves w hosts

/-! ### Ancestry and methods -/

theorem parentNamed_leaves (x : Entry) (reference : String) :
    r.Leaves c (r.parentNamed x reference) fun found => ∀ e ∈ found, c.Proper e := by
  rw [parentNamed]
  split
  · exact .pure proper_of_none
  · split
    · exact entryAt_leaves _
    · exact byName_leaves reference

theorem parent_leaves {x : Entry} (proper : c.Proper x) :
    r.Leaves c (r.parent x) fun found => ∀ e ∈ found, c.Proper e := by
  rw [parent_eq_once]
  refine once_leaves (fun _ _ => rfl) ?_ ?_ ((metadataValue_leaves proper _).bind fun v _ => ?_)
  · intro found cells hf _ p hp
    exact hf p (Option.some.inj hp)
  · intro found w hosts hk e he
    cases he
    exact hosts.parent_proper x hk
  · split
    · exact .pure proper_of_none
    · exact .pure proper_of_none
    · exact parentNamed_leaves x _
    · exact .throw _

theorem operations_leaves {x : Entry} (proper : c.Proper x) :
    r.Leaves c (r.operations x) fun _ => True := by
  rw [operations_eq_once]
  refine once_leaves (fun _ _ => rfl) (fun _ _ _ h => h) (fun _ _ _ _ => trivial)
    ((metadataValue_leaves proper _).bind fun v _ => ?_)
  split
  · exact .pure trivial
  · exact .pure trivial
  · exact .pure trivial
  · exact .throw _

theorem above_leaves {t : Trail} (last : c.Proper t.last) (chain : ∀ e ∈ t.chain, c.Proper e) :
    r.Leaves c (r.above t) fun next => ∀ t' ∈ next, c.Proper t'.last ∧ ∀ e ∈ t'.chain, c.Proper e := by
  refine (parent_leaves last).bind fun found hf => ?_
  cases found with
  | none => exact .pure fun _ h => by cases h
  | some parent =>
      dsimp only
      split
      · exact .throw _
      · refine .pure fun t' ht' => ?_
        cases ht'
        refine ⟨hf parent rfl, fun e he => ?_⟩
        rcases List.mem_append.mp he with he | he
        · exact chain e he
        · cases List.mem_singleton.mp he
          exact hf parent rfl

theorem ancestry_leaves {x : Entry} (proper : c.Proper x) :
    r.Leaves c (r.ancestry x) fun chain => ∀ e ∈ chain, c.Proper e := by
  refine .loop (I := fun t => c.Proper t.last ∧ ∀ e ∈ t.chain, c.Proper e) (fun t ht => ?_)
    ⟨proper, List.forall_mem_singleton.mpr proper⟩
  refine (above_leaves ht.1 ht.2).bind fun next hn => ?_
  cases next with
  | none => exact .pure ht.2
  | some t' => exact .pure (hn t' rfl)

theorem merged_leaves {x : Entry} (proper : c.Proper x) :
    r.Leaves c (r.merged x) fun _ => True := by
  refine (ancestry_leaves proper).bind fun chain hc => ?_
  exact (Leaves.mapM fun e he => own_leaves (hc e (List.mem_reverse.mp he))).bind
    fun _ _ => .pure trivial

theorem reach_leaves {x : Entry} (proper : c.Proper x) (method : String) :
    r.Leaves c (r.reach x method) fun _ => True := by
  refine .loop (I := fun t => c.Proper t.last ∧ ∀ e ∈ t.chain, c.Proper e) (fun t ht => ?_)
    ⟨proper, List.forall_mem_singleton.mpr proper⟩
  refine (operations_leaves ht.1).bind fun found _ => ?_
  cases found.bind fun ns => ns.get? method with
  | some operation => exact .pure trivial
  | none =>
      refine (above_leaves ht.1 ht.2).bind fun next hn => ?_
      cases next with
      | none => exact .throw _
      | some t' => exact .pure (hn t' rfl)

theorem dispatch_leaves {x : Entry} (proper : c.Proper x) (method : String) :
    r.Leaves c (r.dispatch x method) fun _ => True := by
  intro w hosts
  have same := (reach_leaves proper method w hosts).1
  refine ⟨?_, fun _ _ _ => trivial⟩
  rw [after] at same ⊢
  rw [dispatch]
  cases h : r.reach x method w with
  | ok reached w' => rwa [h] at same
  | error err w' =>
      rw [h] at same
      cases err with
      | operationNotFound name visited => cases r.builtin? method <;> exact same
      | _ => exact same

end
end Registry
end Lineage
