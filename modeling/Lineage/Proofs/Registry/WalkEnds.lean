import Mathlib.Data.List.Nodup
import Mathlib.Data.List.Perm.Subperm
import Lineage.Proofs.Registry.Roots
import Lineage.Proofs.Registry.SearchEnds
import Lineage.Proofs.Registry.Verdicts

/-!
Every walk along the ancestry ends. It passes finitely many entries with a parent: those that were
there have numbers of their own, and a new one has a document that names its parent, at a place of
its own.
-/
namespace Lineage

open World Action
open Component (IsName)
open Loop (Finishes ends_of_rank turnOf run_eq_some_iff)

namespace Registry

variable {r : Registry} {w₀ w w' : World} {e : Entry}

/-! ### The steps of a walk along the ancestry -/

/-- A walk along the ancestry between two steps: the entries that it has come by, and the last. -/
structure Climb where
  chain : List Entry
  last : Entry
  world : World

section

variable {α : Type} (r) (ask : List Entry → Entry → Action (Option α))
  (top : List Entry → Except Error α)

/-- A walk goes on from an entry that has no answer to its parent. -/
def ascend (s : Climb) : Climb ⊕ EStateM.Result Error World α :=
  match ask s.chain s.last s.world with
  | .error e w => .inr (.error e w)
  | .ok (some a) w => .inr (.ok a w)
  | .ok none w =>
    match r.parent s.last w with
    | .error e w => .inr (.error e w)
    | .ok none w => .inr (result (top s.chain) w)
    | .ok (some p) w =>
      if hasBeenAt s.chain p then .inr (.error (cycle s.chain p) w)
      else .inl ⟨s.chain ++ [p], p, w⟩

end

/-- A walk for the ancestry asks nobody. -/
def climb (r : Registry) : Climb → Climb ⊕ EStateM.Result Error World (List Entry) :=
  r.ascend (fun _ _ => pure none) .ok

/-- What an entry at the end of a chain offers under a name. -/
def offered (r : Registry) (method : String) (chain : List Entry) (current : Entry) :
    Action (Option Reached) := do
  return ((← r.operations current).bind fun ns => ns.get? method).map fun operation =>
    ⟨operation, current, names chain⟩

/-- A walk for an operation asks for it at each entry. -/
def climbFor (r : Registry) (method : String) :
    Climb → Climb ⊕ EStateM.Result Error World Reached :=
  r.ascend (r.offered method) fun chain => .error (.operationNotFound method (names chain))

/-- The state of a walk that has come along a trail. -/
def Climb.of (t : Trail) (w : World) : Climb := ⟨t.chain, t.last, w⟩

theorem climb_apply (r : Registry) (s : Climb) : r.climb s =
    match r.parent s.last s.world with
    | .error err w => .inr (.error err w)
    | .ok none w => .inr (.ok s.chain w)
    | .ok (some p) w =>
      if hasBeenAt s.chain p then .inr (.error (cycle s.chain p) w)
      else .inl ⟨s.chain ++ [p], p, w⟩ := rfl

theorem climb_eq_round (r : Registry) (t : Trail) (w : World) :
    r.climb (.of t w) = turnOf .of (r.ancestryRound t w) := by
  rw [climb_apply, ancestryRound_apply, Climb.of]
  obtain ⟨e, w₁, hp, h⟩ | ⟨w₁, hp, h⟩ | ⟨p, w₁, hp, been, h⟩ | ⟨p, w₁, hp, new, h⟩ :=
    above_cases r t w <;> simp [*, turnOf, Climb.of]

theorem offered_apply (r : Registry) (method : String) (chain : List Entry) (current : Entry)
    (w : World) : r.offered method chain current w = match r.operations current w with
      | .ok found w => .ok ((found.bind fun ns => ns.get? method).map fun operation =>
          ⟨operation, current, names chain⟩) w
      | .error e w => .error e w := by
  rw [offered, bind_apply]
  cases r.operations current w <;> rfl

theorem climbFor_eq_round (r : Registry) (method : String) (t : Trail) (w : World) :
    r.climbFor method (.of t w) = turnOf .of (r.reachRound method t w) := by
  rw [climbFor, ascend, offered_apply, Climb.of]
  cases ho : r.operations t.last w with
  | error e w₁ =>
      rw [reachRound, bind_of_error ho]
      rfl
  | ok found w₁ =>
      cases hf : found.bind fun ns => ns.get? method with
      | some operation => simp [reachRound_of_found ho hf, hf, turnOf]
      | none =>
          rw [reachRound_of_missing ho hf]
          obtain ⟨e, w₂, hp, h⟩ | ⟨w₂, hp, h⟩ | ⟨p, w₂, hp, been, h⟩ | ⟨p, w₂, hp, new, h⟩ :=
            above_cases r t w₁ <;> simp [*, turnOf, Climb.of, result]

theorem climbs_iff {t : Trail} {w : World} {out : EStateM.Result Error World (List Entry)} :
    r.ancestryRound.run t w = some out ↔ ∃ states, Finishes r.climb (.of t w) states out :=
  run_eq_some_iff (climb_eq_round r)

theorem climbsFor_iff {method : String} {t : Trail} {w : World}
    {out : EStateM.Result Error World Reached} : (r.reachRound method).run t w = some out ↔
      ∃ states, Finishes (r.climbFor method) (.of t w) states out :=
  run_eq_some_iff (climbFor_eq_round r method)

theorem ancestry_of_ends {e : Entry} {w : World} {states : List Climb}
    {answer : EStateM.Result Error World (List Entry)}
    (h : Finishes r.climb ⟨[e], e, w⟩ states answer) : r.ancestry e w = answer :=
  loop_of_some (climbs_iff.mpr ⟨states, h⟩)

theorem reach_of_ends {e : Entry} {method : String} {w : World} {states : List Climb}
    {answer : EStateM.Result Error World Reached}
    (h : Finishes (r.climbFor method) ⟨[e], e, w⟩ states answer) : r.reach e method w = answer :=
  loop_of_some (climbsFor_iff.mpr ⟨states, h⟩)

section

variable {α : Type} {ask : List Entry → Entry → Action (Option α)}
  {top : List Entry → Except Error α} {s t : Climb}

/-- A step that goes on has asked to no avail and found a parent at a new place. -/
theorem ascend_eq_inl (h : r.ascend ask top s = .inl t) : ∃ p w₁,
    ask s.chain s.last s.world = .ok none w₁ ∧ r.parent s.last w₁ = .ok (some p) t.world ∧
      hasBeenAt s.chain p = false ∧ t.chain = s.chain ++ [p] ∧ t.last = p := by
  rw [ascend] at h
  split at h
  · cases h
  · cases h
  · rename_i w₁ hask
    split at h
    · cases h
    · cases h
    · rename_i p w₂ hp
      split at h
      · cases h
      · rename_i new
        cases h
        exact ⟨p, w₁, hask, hp, Bool.eq_false_iff.mpr new, rfl, rfl⟩

end

/-! ### How long a walk is -/

theorem hasBeenAt_of_mem {chain : List Entry} {p : Entry} (h : p ∈ chain) :
    hasBeenAt chain p = true := by
  rw [hasBeenAt, Path.isIn, List.any_eq_true]
  exact ⟨p.path, List.mem_map_of_mem h, by simp [Path.same]⟩

theorem Unvisited.not_been {chain more : List Entry} (h : Unvisited chain more) {p : Entry}
    (hp : p ∈ more) : hasBeenAt chain p = false := by
  obtain ⟨before, after, rfl⟩ := List.append_of_mem hp
  have been := h before p after rfl
  rw [hasBeenAt_append, Bool.or_eq_false_iff] at been
  exact been.1

theorem Unvisited.drop {front chain more : List Entry} (h : Unvisited (front ++ chain) more) :
    Unvisited chain more := by
  intro before p after he
  have been := h before p after he
  rw [List.append_assoc, hasBeenAt_append, Bool.or_eq_false_iff] at been
  exact been.2

end Registry

namespace World

open Registry

/-- The entries after one, each the known parent of the one before it. -/
inductive Walk (w : World) : Entry → List Entry → Prop
  | here {e} : Walk w e []
  | next {e p more} (h : (w.cellsOf e).parent = some (some p)) (tail : Walk w p more) :
      Walk w e (p :: more)

/-- All but the last entry of a walk have their parent in it. -/
theorem Walk.parent {w : World} {e : Entry} {more : List Entry} (h : w.Walk e more) :
    ∀ x ∈ (e :: more).dropLast, ∃ p ∈ more, (w.cellsOf x).parent = some (some p) := by
  induction h with
  | here => intro x hx; cases hx
  | @next e p more h tail ih =>
      intro x hx
      rw [List.dropLast_cons_cons] at hx
      rcases List.mem_cons.mp hx with rfl | hx
      · exact ⟨p, List.mem_cons_self .., h⟩
      · obtain ⟨q, hq, hparent⟩ := ih x hx
        exact ⟨q, List.mem_cons_of_mem p hq, hparent⟩

theorem Walk.keep {w w' : World} (kept : ∀ e, Cells.Kept (w.cellsOf e) (w'.cellsOf e)) {e : Entry}
    {more : List Entry} (h : w.Walk e more) : w'.Walk e more := by
  induction h with
  | here => exact .here
  | next h _ ih => exact .next ((kept _).parent _ h) ih

theorem Walk.snoc {w : World} {e last p : Entry} {more : List Entry} (h : w.Walk e more)
    (hlast : (e :: more).getLast? = some last) (hp : (w.cellsOf last).parent = some (some p)) :
    w.Walk e (more ++ [p]) := by
  induction h with
  | here =>
      cases hlast
      exact .next hp .here
  | next h _ ih =>
      rw [List.getLast?_cons_cons] at hlast
      exact .next h (ih hlast)

/-- Two entries of one number have one parent, so a walk that comes to the number again comes to a
place again with the next step, if there is one. -/
theorem Walk.ids_nodup {w : World} {e : Entry} {more : List Entry} (h : w.Walk e more)
    (new : Unvisited [e] more) : ((e :: more).dropLast.map Entry.id).Nodup := by
  induction h with
  | here => exact List.nodup_nil
  | @next e p more h tail ih =>
      have newer := (unvisited_cons_iff.mp new).2
      rw [List.dropLast_cons_cons, List.map_cons, List.nodup_cons]
      refine ⟨fun hid => ?_, ih newer.drop⟩
      obtain ⟨x, hx, he⟩ := List.mem_map.mp hid
      obtain ⟨q, hq, hparent⟩ := tail.parent x hx
      rw [cellsOf_congr w he, h] at hparent
      obtain rfl : p = q := Option.some.inj (Option.some.inj hparent)
      have been := newer.not_been hq
      rw [hasBeenAt_of_mem (List.mem_append_right _ (List.mem_singleton_self p))] at been
      cases been

/-- There are no more entries with different numbers than a world has. -/
theorem length_le_of_held {w : World} {xs : List Entry} (ids : (xs.map Entry.id).Nodup)
    (held : ∀ x ∈ xs, w.Holds x) : xs.length ≤ w.cells.length := by
  have bounded : xs.map Entry.id ⊆ List.range w.cells.length := by
    intro i hi
    obtain ⟨x, hx, rfl⟩ := List.mem_map.mp hi
    exact List.mem_range.mpr (held x hx)
  simpa using (ids.subperm bounded).length_le

/-- Every entry of a walk but the first is the known parent of another. -/
theorem Walk.child {w : World} {e : Entry} {more : List Entry} (h : w.Walk e more) :
    ∀ x ∈ more, ∃ y, (w.cellsOf y).parent = some (some x) := by
  induction h with
  | here => exact List.forall_mem_nil _
  | @next e p more h _ ih => exact List.forall_mem_cons.mpr ⟨⟨e, h⟩, ih⟩

end World

namespace Registry

variable {r : Registry} {w₀ w w' : World} {e : Entry}

theorem unvisited_snoc {chain more : List Entry} {p : Entry} (h : Unvisited chain more)
    (new : hasBeenAt (chain ++ more) p = false) : Unvisited chain (more ++ [p]) := by
  induction more generalizing chain with
  | nil => exact unvisited_cons_iff.mpr ⟨by simpa using new, unvisited_nil _⟩
  | cons q more ih =>
      obtain ⟨hq, hmore⟩ := unvisited_cons_iff.mp h
      exact unvisited_cons_iff.mpr ⟨hq, ih hmore (by simpa using new)⟩

/-- A walk on its way from an entry, along known parents. -/
structure Climbing (r : Registry) (w₀ : World) (e : Entry) (s : Climb) : Prop where
  since : r.Since w₀ s.world
  way : ∃ more, s.chain = e :: more ∧ s.world.Walk e more ∧ Unvisited [e] more
  last : s.chain.getLast? = some s.last

theorem Since.met_of_walk (h : r.Since w₀ w) (held : w₀.Holds e) {more : List Entry}
    (walk : w.Walk e more) : ∀ x ∈ e :: more, Met w₀ w x := by
  refine List.forall_mem_cons.mpr ⟨.inl held, fun x hx => ?_⟩
  obtain ⟨y, hy⟩ := walk.child x hx
  exact h.parent y x hy

/-- A new entry with a parent has a document that names it. -/
theorem Since.documented {p : Entry} (h : r.Since w₀ w) (met : Met w₀ w e) (new : ¬ w₀.Holds e)
    (parent : (w.cellsOf e).parent = some (some p)) :
    w₀.disk.Documented r.metadataPlace.file e.path := by
  have known := h.known met new
  refine ⟨h.normal e known new, Bool.not_eq_false _ ▸ fun bare => ?_⟩
  cases (h.blank e known new).parent bare _ parent

/-- There are no more new entries with a parent than places with a document. -/
theorem Since.length_le_of_new (h : r.Since w₀ w) (metadata : IsName r.metadataPlace.file)
    {xs : List Entry} (nodup : xs.Nodup) (met : ∀ x ∈ xs, Met w₀ w x)
    (new : ∀ x ∈ xs, ¬ w₀.Holds x) (parent : ∀ x ∈ xs, ∃ p, (w.cellsOf x).parent = some (some p)) :
    xs.length ≤ 4 * w₀.disk.nodes.length := by
  have distinct : (xs.map Entry.path).Nodup := by
    refine nodup.map_on fun x hx y hy same => ?_
    have hx := h.known (met x hx) (new x hx)
    have hy := h.known (met y hy) (new y hy)
    rw [Known, same] at hx
    exact Option.some.inj (hx.symm.trans hy)
  have documented : ∀ p ∈ xs.map Entry.path, w₀.disk.Documented r.metadataPlace.file p :=
    List.forall_mem_map.mpr fun x hx => by
      obtain ⟨p, hp⟩ := parent x hx
      exact h.documented (met x hx) (new x hx) hp
  simpa using Disk.length_le_of_documented metadata distinct documented

/-- What a walk can pass: who was there, and a new entry for each place that can have a document. -/
def limit (w : World) : Nat := w.cells.length + 4 * w.disk.nodes.length

theorem length_le_limit (metadata : IsName r.metadataPlace.file) (h : r.Since w₀ w)
    (held : w₀.Holds e) {more : List Entry} (walk : w.Walk e more) (new : Unvisited [e] more) :
    more.length ≤ limit w₀ := by
  have met : ∀ x ∈ (e :: more).dropLast, Met w₀ w x :=
    fun x hx => h.met_of_walk held walk x (List.dropLast_subset _ hx)
  have ids := walk.ids_nodup new
  have parent : ∀ x ∈ (e :: more).dropLast, ∃ p, (w.cellsOf x).parent = some (some p) :=
    fun x hx => (walk.parent x hx).imp fun _ h => h.2
  have length : more.length = (e :: more).dropLast.length := by simp
  rw [length]
  -- Those that were there have numbers of their own, new ones have places of their own.
  generalize (e :: more).dropLast = passed at met ids parent
  let old (x : Entry) : Bool := x.id < w₀.cells.length
  have part (p : Entry → Bool) : (passed.filter p).Sublist passed := List.filter_sublist
  have left : (passed.filter old).length ≤ w₀.cells.length :=
    length_le_of_held (ids.sublist ((part _).map _)) fun x hx => by
      simpa [old, Holds] using (List.mem_filter.mp hx).2
  have right : (passed.filter fun x => !old x).length ≤ 4 * w₀.disk.nodes.length := by
    have sub := (part fun x => !old x).subset
    refine h.length_le_of_new metadata (ids.of_map.filter _) (fun x hx => met x (sub hx))
      (fun x hx => ?_) fun x hx => parent x (sub hx)
    simpa [old, Holds] using (List.mem_filter.mp hx).2
  rw [limit, passed.length_eq_length_filter_add old]
  exact Nat.add_le_add left right

/-! ### The end of a walk -/

section

variable {α : Type} {ask : List Entry → Entry → Action (Option α)}
  {top : List Entry → Except Error α} {s t : Climb}

/-- What asking an entry that has been met leaves as it was. -/
def Asks (r : Registry) (ask : List Entry → Entry → Action (Option α)) : Prop :=
  ∀ (w₀ w w' : World) (chain : List Entry) (e : Entry) (found : Option α), r.Since w₀ w →
    Met w₀ w e → ask chain e w = .ok found w' → r.Since w₀ w' ∧ Extends Cells.nothing w w'

theorem Climbing.met (h : r.Climbing w₀ e s) (held : w₀.Holds e) : Met w₀ s.world s.last := by
  obtain ⟨more, chain, walk, -⟩ := h.way
  exact h.since.met_of_walk held walk _ (chain ▸ List.mem_of_getLast? h.last)

theorem climbing_ascend (asks : r.Asks ask) (roots : ∀ root ∈ r.roots, w₀.Holds root)
    (held : w₀.Holds e) (hs : r.Climbing w₀ e s) (step : r.ascend ask top s = .inl t) :
    r.Climbing w₀ e t ∧ t.chain.length = s.chain.length + 1 := by
  obtain ⟨p, w₁, hask, hp, new, chain, last⟩ := ascend_eq_inl step
  have met := hs.met held
  obtain ⟨since₁, hr₁⟩ := asks _ _ _ _ _ _ hs.since met hask
  have met₁ := met.recalls hr₁.recalls
  obtain ⟨hr, -, -, known⟩ := (parent_along r s.last).of_ok since₁.sound trivial hp
  have since := (parent_since roots since₁ met₁ hp).1
  obtain ⟨more, hchain, walk, unvisited⟩ := hs.way
  have up := known (since.holds (met₁.recalls hr.recalls))
  have walk := (walk.keep hr₁.kept).keep hr.kept
  rw [hchain] at new chain
  refine ⟨⟨since, ⟨more ++ [p], chain, ?_, unvisited_snoc unvisited new⟩, ?_⟩, ?_⟩
  · exact walk.snoc (hchain ▸ hs.last) up
  · rw [chain, last, List.getLast?_append]
    rfl
  · rw [chain, hchain, List.length_append, List.length_singleton]

theorem Climbing.length_le (h : r.Climbing w₀ e s) (metadata : IsName r.metadataPlace.file)
    (held : w₀.Holds e) : s.chain.length ≤ limit w₀ + 1 := by
  obtain ⟨more, chain, walk, new⟩ := h.way
  rw [chain, List.length_cons]
  exact Nat.succ_le_succ (length_le_limit metadata h.since held walk new)

theorem once_append {chain more : List Entry} (h : Once [] (chain.map Entry.path))
    (new : Unvisited chain more) : Once [] ((chain ++ more).map Entry.path) := by
  induction more generalizing chain with
  | nil => rwa [List.append_nil]
  | cons p more ih =>
      obtain ⟨hp, hmore⟩ := unvisited_cons_iff.mp new
      rw [List.append_cons]
      refine ih ?_ hmore
      rw [List.map_append, List.map_singleton]
      exact h.snoc hp

/-- No step that answers gives up. -/
theorem ascend_answers (parameters : IsName r.config.parameters.file) (asks : r.Asks ask)
    (fails : ∀ chain x, Fails (· ≠ .unbounded) (ask chain x))
    (tops : ∀ chain, top chain ≠ .error .unbounded) (roots : ∀ root ∈ r.roots, w₀.Holds root)
    (held : w₀.Holds e) (hs : r.Climbing w₀ e s) {answer : EStateM.Result Error World α}
    (step : r.ascend ask top s = .inr answer) : ∀ w', answer ≠ .error .unbounded w' := by
  rintro w' rfl
  rw [ascend] at step
  split at step
  · cases step
    exact fails _ _ _ _ _ ‹_› rfl
  · cases step
  · rename_i w₁ hask
    obtain ⟨since₁, -⟩ := asks _ _ _ _ _ _ hs.since (hs.met held) hask
    have roots₁ := fun root h => since₁.grows.holds (roots root h)
    split at step
    · cases step
      exact parent_answers since₁.sound roots₁ parameters _ _ ‹_›
    · exact tops s.chain (error_eq_result.mp (Sum.inr.inj step).symm).1
    · split at step <;> cases step

/-- A walk ends, and passes no place twice. -/
theorem ascend_ends (ask : List Entry → Entry → Action (Option α))
    (top : List Entry → Except Error α) (sound : w.Sound) (roots : ∀ root ∈ r.roots, w.Holds root)
    (parameters : IsName r.config.parameters.file) (metadata : IsName r.metadataPlace.file)
    (asks : r.Asks ask) (fails : ∀ chain x, Fails (· ≠ .unbounded) (ask chain x))
    (tops : ∀ chain, top chain ≠ .error .unbounded) (held : w.Holds e) :
    ∃ states answer, Finishes (r.ascend ask top) ⟨[e], e, w⟩ states answer ∧
      (∀ s ∈ states, Once [] (s.chain.map Entry.path)) ∧ ∀ w', answer ≠ .error .unbounded w' := by
  have start : r.Climbing w e ⟨[e], e, w⟩ := ⟨.refl sound, ⟨[], rfl, .here, unvisited_nil _⟩, rfl⟩
  have keeps : Loop.Preserves (r.ascend ask top) (r.Climbing w e) :=
    fun s t hs step => (climbing_ascend asks roots held hs step).1
  have down : ∀ s t, r.Climbing w e s → r.ascend ask top s = .inl t →
      limit w + 1 - t.chain.length < limit w + 1 - s.chain.length := by
    intro s t hs step
    obtain ⟨ht, length⟩ := climbing_ascend asks roots held hs step
    have le := ht.length_le metadata held
    omega
  obtain ⟨states, answer, ends⟩ := ends_of_rank _ keeps down start
  have all := ends.all keeps start
  refine ⟨states, answer, ends, fun s hs => ?_, ?_⟩
  · obtain ⟨more, chain, -, new⟩ := (all s hs).way
    have single : Once [] ([e].map Entry.path) := ⟨List.nodup_singleton _, fun _ _ => rfl⟩
    rw [chain]
    exact once_append single new
  · obtain ⟨s, hs, last⟩ := ends.answers
    exact ascend_answers parameters asks fails tops roots held (all s hs) last

end

theorem ancestry_ends (sound : w.Sound) (roots : ∀ root ∈ r.roots, w.Holds root)
    (parameters : IsName r.config.parameters.file) (metadata : IsName r.metadataPlace.file)
    (held : w.Holds e) : (r.ancestry e).Answers w ∧
      ∃ states, Finishes r.climb ⟨[e], e, w⟩ states (r.ancestry e w) ∧
        ∀ s ∈ states, Once [] (s.chain.map Entry.path) := by
  have asks : r.Asks fun _ _ => (pure none : Action (Option (List Entry))) := by
    intro w₀ w w' chain x found since met ok
    cases ok
    exact ⟨since, (extends_course _).refl w⟩
  obtain ⟨states, answer, ends, once, answers⟩ := ascend_ends (fun _ _ => pure none) .ok sound roots
    parameters metadata asks (fun _ _ => .pure _) (fun _ => nofun) held
  obtain rfl : r.ancestry e w = answer := ancestry_of_ends ends
  exact ⟨answers, states, ends, once⟩

theorem reach_ends (sound : w.Sound) (roots : ∀ root ∈ r.roots, w.Holds root)
    (parameters : IsName r.config.parameters.file) (metadata : IsName r.metadataPlace.file)
    (held : w.Holds e) (method : String) : (r.reach e method).Answers w ∧
      ∃ states, Finishes (r.climbFor method) ⟨[e], e, w⟩ states (r.reach e method w) ∧
        ∀ s ∈ states, Once [] (s.chain.map Entry.path) := by
  have asks : r.Asks (r.offered method) := by
    intro w₀ w w' chain x found since met ok
    obtain ⟨offers, w₁, ho, ok⟩ := bind_eq_ok_iff.mp ok
    cases ok
    exact ⟨operations_since since met ho, ((operations_along r x).of_ok since.sound trivial ho).1⟩
  have fails (chain : List Entry) (x : Entry) : Fails (· ≠ .unbounded) (r.offered method chain x) :=
    (operations_fails faulty_answers r x).bind fun _ => .pure _
  obtain ⟨states, answer, ends, once, answers⟩ := ascend_ends (r.offered method)
    (fun chain => .error (.operationNotFound method (names chain))) sound roots parameters metadata
    asks fails (fun _ => nofun) held
  obtain rfl : r.reach e method w = answer := reach_of_ends ends
  exact ⟨answers, states, ends, once⟩

theorem merged_answers (sound : w.Sound) (roots : ∀ root ∈ r.roots, w.Holds root)
    (parameters : IsName r.config.parameters.file) (metadata : IsName r.metadataPlace.file)
    (held : w.Holds e) : (r.merged e).Answers w :=
  (ancestry_ends sound roots parameters metadata held).1.bind fun _ w₁ _ =>
    ((Fails.mapM (own_fails faulty_answers r) _).bind fun _ => .pure _).answers w₁

/-- Every walk ends. In every world of a session whose documents are files in the directories of
their entries, and from every entry there, whatever the documents say: parents, ancestries,
operations and merged parameters are found or end in an error, and so are names, from a collection
or from the roots. A walk takes finitely many steps, and it comes to no place twice. -/
theorem walks_end (session : Session r w) (parameters : IsName r.config.parameters.file)
    (metadata : IsName r.metadataPlace.file) :
    (∀ e, w.Holds e → (r.parent e).Answers w ∧ (r.merged e).Answers w ∧
      ((r.ancestry e).Answers w ∧
        ∃ states, Finishes r.climb ⟨[e], e, w⟩ states (r.ancestry e w) ∧
          ∀ s ∈ states, Once [] (s.chain.map Entry.path)) ∧
      ∀ method, (r.reach e method).Answers w ∧
        ∃ states, Finishes (r.climbFor method) ⟨[e], e, w⟩ states (r.reach e method w) ∧
          ∀ s ∈ states, Once [] (s.chain.map Entry.path)) ∧
    ∀ name, ((r.byName name).Answers w ∧
        ∃ states, Finishes (r.seek name) ⟨r.roots.map .collection, [], w⟩ states
            (r.search name (r.roots.map .collection) [] w) ∧
          ∀ s ∈ states, Once [] s.visited) ∧
      ∀ c visited, w.Holds c → (r.searchFrom name c visited).Answers w ∧
        ∃ states, Finishes (r.seek name) ⟨[.collection c], visited, w⟩ states
            (r.searchFrom name c visited w) ∧
          ∀ s ∈ states, ∃ places, s.visited = visited ++ places ∧ Once visited places := by
  have sound := session.sound
  have roots := session.holds_roots
  refine ⟨fun e held => ⟨parent_answers sound roots parameters e,
    merged_answers sound roots parameters metadata held,
    ancestry_ends sound roots parameters metadata held,
    reach_ends sound roots parameters metadata held⟩, fun name => ⟨⟨?_, ?_⟩, ?_⟩⟩
  · exact byName_answers sound roots parameters name
  · have held : ∀ lead ∈ r.roots.map Lead.collection, w.Holds lead.start :=
      List.forall_mem_map.mpr roots
    obtain ⟨-, states, ends, once⟩ := search_ends sound parameters name held []
    refine ⟨states, ends, fun s hs => ?_⟩
    obtain ⟨places, visited, once⟩ := once s hs
    rwa [visited, List.nil_append]
  · intro c visited held
    have held : ∀ lead ∈ [Lead.collection c], w.Holds lead.start :=
      List.forall_mem_singleton.mpr held
    exact search_ends sound parameters name held visited

/-! ### Two collections that are each other's parents and search each other -/

namespace Sample

def refers (parent sub : String) : FileNode :=
  .file (DocumentFormat.json.write (.obj
    [("parent_entry_name", .str parent), (searchPathKey, .arr [.str sub, .str "x/../.."])]))

def tangle : Disk where
  cwd := []
  nodes := [(["base"], .dir), (["base", "a"], .dir), (["base", "b"], .dir),
    (["base", "a", "parameters.json"], refers "./b/." "../../base/b"),
    (["base", "b", "parameters.json"], refers "b/../a/" "/base/a")]

/-- However they are tangled, the walks from the first collection end. -/
theorem tangle_ends : ∃ r w first, Session r w ∧ w.disk = tangle ∧ r.config = twoCollections ∧
    IsName r.config.parameters.file ∧ IsName r.metadataPlace.file ∧ w.Holds first ∧
    first.path = ⟨"base/a"⟩ ∧ (r.ancestry first).Answers w ∧ (r.merged first).Answers w ∧
    (r.searchFrom "tool" first []).Answers w ∧ (r.byName "tool").Answers w := by
  obtain ⟨r, w, start, first, root, path, config⟩ : ∃ r w,
      ofConfig twoCollections ⟨"base"⟩ [] [] { disk := ⟨[], []⟩ } = .ok r w ∧
      ∃ first ∈ r.roots, first.path = ⟨"base/a"⟩ ∧ r.config = twoCollections :=
    ⟨_, _, rfl, _, List.mem_cons_self, by decide, rfl⟩
  have session : Session r { w with disk := tangle } := .move (.start start) (.disk tangle)
  have plain : IsName "parameters.json" := ⟨by decide, by decide, by decide⟩
  have parameters : IsName r.config.parameters.file := by rwa [config]
  have metadata : IsName r.metadataPlace.file := by rwa [metadataPlace, config]
  have held := session.holds_roots first root
  obtain ⟨walks, names⟩ := walks_end session parameters metadata
  obtain ⟨-, merged, ⟨ancestry, -⟩, -⟩ := walks first held
  obtain ⟨⟨byName, -⟩, searches⟩ := names "tool"
  exact ⟨r, _, first, session, rfl, config, parameters, metadata, held, path, ancestry, merged,
    (searches first [] held).1, byName⟩

end Sample

end Registry
end Lineage
