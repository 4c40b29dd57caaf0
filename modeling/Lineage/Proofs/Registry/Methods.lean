import Lineage.Proofs.Registry.Cycles
import Lineage.Proofs.Registry.Even
import Lineage.Proofs.Registry.Verdicts

/-!
Methods along an ancestry. The search for a method asks every entry that it comes to for its
operations before it goes on to the parent, and stops at the first that has the method; a walk along
the ancestry asks for parents only, and remembers where it has been before it looks there. The search
still goes the way of the walk, since to load operations early makes no difference to any lookup
after it.
-/
namespace Lineage

open World Action

namespace Registry

variable {r : Registry} {e x p last : Entry} {w w' w₁ u : World} {method : String}
  {found : Option Operation} {way before more : List Entry}

/-! ### What an entry offers -/

/-- What the namespace of an entry has under a name, where its operations can be had. -/
def Offers (r : Registry) (w : World) (x : Entry) (method : String) (found : Option Operation) :
    Prop :=
  ∃ offered w', r.operations x w = .ok offered w' ∧
    (offered.bind fun ns => ns.get? method) = found

theorem offers_iff (held : w.Holds x) : r.Offers w x method found ↔
    ∃ offered, r.operationsIn x (w.cellsOf x) w.disk = .ok offered ∧
      (offered.bind fun ns => ns.get? method) = found := by
  obtain ⟨c, apply, -⟩ := (operations_reading r x).apply w held
  rw [Offers, apply]
  cases r.operationsIn x (w.cellsOf x) w.disk <;> simp [result]

/-- An entry offers the same in a later world. -/
theorem Reads.offers_iff (reads : r.Reads e w u) (tells : r.Tells e w) (told : r.Tells e u)
    (near : r.Near e w x) : r.Offers u x method found ↔ r.Offers w x method found := by
  rw [Registry.offers_iff (tells.held x near), Registry.offers_iff (told.held x (reads.near x near)),
    reads.disk, (reads.parts x near).operations]

/-- To ask an entry for its operations takes a world to one that is alike. -/
theorem operations_beside (tells : r.Tells e w) (alike : r.Alike e w u) (near : r.Near e w x)
    (offers : r.Offers w x method found) :
    ∃ offered u₁, r.operations x u = .ok offered u₁ ∧
      (offered.bind fun ns => ns.get? method) = found ∧ r.Alike e w u₁ := by
  have told := alike.tells tells
  have near' := near.alike alike
  obtain ⟨c, apply, parts, parent⟩ := (operations_reading r x).apply u (told.held x near')
  obtain ⟨offered, read, has⟩ := (offers_iff (tells.held x near)).mp offers
  rw [alike.disk, (alike.parts x near).operations, read] at apply
  exact ⟨offered, _, apply, has, alike.trans (alike_setCells told near' parts parent)⟩

/-- The same parent is found in worlds that are alike. -/
theorem parent_beside {p : Option Entry} (tells : r.Tells e w) (alike : r.Alike e w u)
    (near : r.Near e w x) (parent : r.parent x w = .ok p w₁) :
    r.Tells e w₁ ∧ r.Reads e w w₁ ∧ r.nearIfAny e p w₁ ∧
      ∃ u₁, r.parent x u = .ok p u₁ ∧ r.Alike e w₁ u₁ := by
  have both := parent_even w u tells alike near
  rw [parent] at both
  generalize r.parent x u = out at both ⊢
  cases both with
  | ok told reads beside near => exact ⟨told, reads, near, _, rfl, beside⟩

/-- What an entry answers when asked for its operations, it answers in every later world. -/
theorem operations_reads {offered : Option Namespace} (tells : r.Tells e w) (near : r.Near e w x)
    (asked : r.operations x w = .ok offered w₁) :
    r.Tells e w₁ ∧ r.Reads e w w₁ ∧ r.operationsIn x (w₁.cellsOf x) w₁.disk = .ok offered := by
  have both := operations_even w w tells .refl near
  rw [asked] at both
  cases both with
  | ok told reads _ read => exact ⟨told, reads, read⟩

/-! ### Rounds of the search -/

theorem round_of_found {t : Trail} {operation : Operation} (tells : r.Tells e w)
    (alike : r.Alike e w u) (near : r.Near e w t.last)
    (offers : r.Offers w t.last method (some operation)) :
    ∃ u₁, r.reachRound method t u = .ok (.inr ⟨operation, t.last, names t.chain⟩) u₁ := by
  obtain ⟨offered, u₁, asked, has, -⟩ := operations_beside tells alike near offers
  exact ⟨u₁, reachRound_of_found asked has⟩

/-- Past an entry that lacks the method, a round goes on to what the walk has above it. -/
theorem round_of_lacking {t : Trail} (tells : r.Tells e w) (alike : r.Alike e w u)
    (near : r.Near e w t.last) (lacks : r.Offers w t.last method none) :
    ∃ u₁, r.Alike e w u₁ ∧ r.reachRound method t u = match r.above t u₁ with
      | .ok (some t') u₂ => .ok (.inl t') u₂
      | .ok none u₂ => .error (.operationNotFound method (names t.chain)) u₂
      | .error err u₂ => .error err u₂ := by
  obtain ⟨offered, u₁, asked, has, beside⟩ := operations_beside tells alike near lacks
  exact ⟨u₁, beside, reachRound_of_missing asked has⟩

/-! ### The way of the walk -/

/-- Parents asked for in turn are near, and whoever was near before reads the same after. -/
theorem Ascent.reads (ascent : r.Ascent w x more last w') (tells : r.Tells e w)
    (near : r.Near e w x) :
    r.Tells e w' ∧ r.Reads e w w' ∧ r.Near e w' last ∧ ∀ y ∈ x :: more, r.Near e w' y := by
  induction ascent with
  | here => exact ⟨tells, (reads_course r e).refl _, near, List.forall_mem_singleton.mpr near⟩
  | up parent _ ih =>
      obtain ⟨told, reads, found, -⟩ := parent_beside tells .refl near parent
      obtain ⟨told', reads', near_last, near_more⟩ := ih told (found _ rfl)
      have reads' := (reads_course r e).trans reads reads'
      exact ⟨told', reads', near_last,
        List.forall_mem_cons.mpr ⟨reads'.near _ near, near_more⟩⟩

/-- An ascent comes by each of its entries. -/
theorem Ascent.passes (ascent : r.Ascent w e more last w') {after : List Entry}
    (split : e :: more = before ++ x :: after) :
    ∃ way w₁, r.Ascent w e way x w₁ ∧ e :: way = before ++ [x] ∧ r.Ascent w₁ x after last w' := by
  induction ascent generalizing before with
  | @here w e =>
      cases before with
      | nil =>
          cases split
          exact ⟨[], w, .here, rfl, .here⟩
      | cons _ before => simp at split
  | @up w w₁ w' e p last more parent further ih =>
      cases before with
      | nil =>
          cases split
          exact ⟨[], w, .here, rfl, .up parent further⟩
      | cons y before =>
          obtain ⟨rfl, tails⟩ := List.cons.inj split
          obtain ⟨way, w₂, ascent, passed, rest⟩ := ih tails
          exact ⟨p :: way, w₂, .up parent ascent, by rw [passed]; rfl, rest⟩

/-- The search goes up with the walk as long as it passes entries that lack the method. -/
theorem run_of_ascent (front : List Entry) (ascent : r.Ascent w x way last w') (tells : r.Tells e w)
    (alike : r.Alike e w u) (near : r.Near e w x) (split : x :: way = before ++ [last])
    (new : Unvisited (front ++ [x]) way) (lacks : ∀ y ∈ before, r.Offers w' y method none) :
    ∃ u', r.Alike e w' u' ∧ (r.reachRound method).run ⟨front ++ [x], x⟩ u =
      (r.reachRound method).run ⟨front ++ before ++ [last], last⟩ u' := by
  induction ascent generalizing front before u with
  | here =>
      obtain rfl : before = [] := by simpa using split
      exact ⟨u, alike, by simp⟩
  | @up w w₁ w' x p last more parent further ih =>
      obtain ⟨unvisited, new⟩ := unvisited_cons_iff.mp new
      obtain ⟨told, reads, near_p, -⟩ := parent_beside tells .refl near parent
      obtain ⟨told', reads', -, -⟩ := further.reads told (near_p p rfl)
      cases before with
      | nil => simp at split
      | cons y before =>
          obtain ⟨rfl, tails⟩ := List.cons.inj split
          obtain ⟨lacksHere, lacks⟩ := List.forall_mem_cons.mp lacks
          have back := (reads_course r e).trans reads reads'
          -- What the namespace lacks where the walk ends, it lacks where the search comes to it.
          obtain ⟨u₁, beside, round⟩ := round_of_lacking (t := ⟨front ++ [x], x⟩) tells alike near
            ((back.offers_iff tells told' near).mp lacksHere)
          obtain ⟨-, -, -, u₂, parent', beside'⟩ := parent_beside tells beside near parent
          rw [above_of_new (t := ⟨front ++ [x], x⟩) parent' unvisited] at round
          obtain ⟨u', alike', run⟩ := ih _ told beside' (near_p p rfl) tails new lacks
          refine ⟨u', alike', (run_of_inl round).trans (run.trans ?_)⟩
          simp

theorem Ascent.ends (ascent : r.Ascent w x way last w') : ∃ before, x :: way = before ++ [last] := by
  induction ascent with
  | @here w e => exact ⟨[], rfl⟩
  | @up w w₁ w' e p last more _ _ ih =>
      obtain ⟨before, h⟩ := ih
      exact ⟨e :: before, by rw [h]; rfl⟩

section

variable {w₂ : World} {p : Option Entry}

/-- On the way of a walk, the search stops at the first entry that has the method. -/
theorem reach_of_offered (tells : r.Tells e w) (ascent : r.Ascent w e more last w')
    (apart : Apart (e :: more)) (parent : r.parent last w' = .ok p w₂) {after : List Entry}
    {operation : Operation} (split : e :: more = before ++ x :: after)
    (lacks : ∀ y ∈ before, r.Offers w₂ y method none)
    (offers : r.Offers w₂ x method (some operation)) :
    ∃ u, r.reach e method w = .ok ⟨operation, x, names (before ++ [x])⟩ u := by
  obtain ⟨way, w₁, below, passed, rest⟩ := ascent.passes split
  obtain ⟨told₁, -, near, near_passed⟩ := below.reads tells .self
  obtain ⟨told', reads', near_last, -⟩ := rest.reads told₁ near
  obtain ⟨told₂, reads₂, -, -⟩ := parent_beside told' .refl near_last parent
  have reads := (reads_course r e).trans reads' reads₂
  have apart : Apart (e :: way) := by
    rw [split, List.append_cons] at apart
    exact passed ▸ (apart_append.mp apart).1
  have lacks (y : Entry) (hy : y ∈ before) : r.Offers w₁ y method none := by
    have near_y := near_passed y (by rw [passed]; exact List.mem_append_left _ hy)
    exact (reads.offers_iff told₁ told₂ near_y).mp (lacks y hy)
  obtain ⟨u, beside, run⟩ :=
    run_of_ascent [] below tells .refl .self passed (apart_cons.mp apart) lacks
  obtain ⟨u₁, round⟩ := round_of_found (t := ⟨before ++ [x], x⟩) told₁ beside near
    ((reads.offers_iff told₁ told₂ near).mp offers)
  exact ⟨u₁, loop_of_some (run.trans (run_of_inr round))⟩

/-- On the way of a walk where no entry has the method, the search comes to the last of them and asks
that for its parent too. -/
theorem run_of_lacking (tells : r.Tells e w) (ascent : r.Ascent w e more last w')
    (apart : Apart (e :: more)) (parent : r.parent last w' = .ok p w₂)
    (lacks : ∀ y ∈ e :: more, r.Offers w₂ y method none) :
    ∃ u u₁ u₂, (r.reachRound method).run ⟨[e], e⟩ w = (r.reachRound method).run ⟨e :: more, last⟩ u ∧
      r.parent last u₁ = .ok p u₂ ∧
      r.reachRound method ⟨e :: more, last⟩ u = match r.above ⟨e :: more, last⟩ u₁ with
        | .ok (some t) u₂ => .ok (.inl t) u₂
        | .ok none u₂ => .error (.operationNotFound method (names (e :: more))) u₂
        | .error err u₂ => .error err u₂ := by
  obtain ⟨before, split⟩ := ascent.ends
  obtain ⟨told, -, near, near_all⟩ := ascent.reads tells .self
  obtain ⟨told₂, reads, -, -⟩ := parent_beside told .refl near parent
  have lacks (y : Entry) (hy : y ∈ before ++ [last]) : r.Offers w' y method none := by
    rw [← split] at hy
    exact (reads.offers_iff told told₂ (near_all y hy)).mp (lacks y hy)
  obtain ⟨u, beside, run⟩ := run_of_ascent [] ascent tells .refl .self split
    (apart_cons.mp apart) fun y hy => lacks y (List.mem_append_left _ hy)
  obtain ⟨u₁, beside₁, round⟩ := round_of_lacking (t := ⟨before ++ [last], last⟩) told beside near
    (lacks last (by simp))
  obtain ⟨-, -, -, u₂, parent', -⟩ := parent_beside told beside₁ near parent
  rw [split]
  exact ⟨u, u₁, u₂, run, parent', round⟩

end

/-- The entries of an ancestry are near where the walk ends. -/
theorem ancestry_reads (tells : r.Tells e w) {chain : List Entry}
    (walk : r.ancestry e w = .ok chain w') :
    r.Tells e w' ∧ r.Reads e w w' ∧ ∀ x ∈ chain, r.Near e w' x := by
  obtain ⟨more, top, w₁, ascent, parent, rfl, -⟩ := ancestry_ok_iff.mp walk
  obtain ⟨told, reads, near_top, near⟩ := ascent.reads tells .self
  obtain ⟨told', reads', -, -⟩ := parent_beside told .refl near_top parent
  exact ⟨told', (reads_course r e).trans reads reads', fun x hx => reads'.near x (near x hx)⟩

/-! ### The search and the walk -/

/-- A search for a method goes along a chain, whose entries offer what they do in `w₁`: it answers the
operation of the first of them that has the method, with that entry as its owner and the names as far
as there; if none of them has it, it fails with `otherwise`. -/
structure SearchesAlong (r : Registry) (e : Entry) (method : String) (w : World) (chain : List Entry)
    (w₁ : World) (otherwise : Error) : Prop where
  found : ∀ before x after operation, chain = before ++ x :: after →
    (∀ y ∈ before, r.Offers w₁ y method none) → r.Offers w₁ x method (some operation) →
    ∃ w', r.reach e method w = .ok ⟨operation, x, names (before ++ [x])⟩ w'
  missing : (∀ y ∈ chain, r.Offers w₁ y method none) →
    ∃ w', r.reach e method w = .error otherwise w'

theorem searchesAlong_of_ancestry (tells : r.Tells e w) {chain : List Entry}
    (walk : r.ancestry e w = .ok chain w') :
    r.SearchesAlong e method w chain w' (.operationNotFound method (names chain)) := by
  obtain ⟨more, top, w₁, ascent, parent, rfl, apart⟩ := ancestry_ok_iff.mp walk
  refine ⟨fun _ _ _ _ => reach_of_offered tells ascent apart parent, fun lacks => ?_⟩
  obtain ⟨u, u₁, u₂, run, parent', round⟩ := run_of_lacking tells ascent apart parent lacks
  rw [above_of_top (t := ⟨e :: more, top⟩) parent'] at round
  exact ⟨u₂, loop_of_some (run.trans (run_of_error round))⟩

theorem searchesAlong_of_cycle (tells : r.Tells e w) {p : Entry}
    (ascent : r.Ascent w e (more ++ [p]) p w') (apart : Apart (e :: more))
    (again : Revisits (e :: more) p) :
    r.SearchesAlong e method w (e :: more) w' (.cyclicAncestry (names (e :: more ++ [p]))) := by
  obtain ⟨-, last, w₁, ascent, parent⟩ := ascent.of_snoc
  refine ⟨fun _ _ _ _ => reach_of_offered tells ascent apart parent, fun lacks => ?_⟩
  obtain ⟨u, u₁, u₂, run, parent', round⟩ := run_of_lacking tells ascent apart parent lacks
  rw [above_of_been (t := ⟨e :: more, last⟩) parent' (hasBeenAt_iff.mpr again)] at round
  refine ⟨u₂, loop_of_some (run.trans (run_of_error (round.trans ?_)))⟩
  simp [cycle, names]

/-- The search for a method agrees with the walk along the ancestry, both begun in one world. Where the
walk answers a chain, the search goes along that chain, and if no entry of it has the method, the
operation is not found, with the names of all of them. Where the walk reports a cycle, the search goes
along the entries that the walk passes before it comes to one of their places again, and if none of
them has the method, it reports that very cycle. -/
theorem reach_agrees_ancestry {S : Entry → Prop} (session : r.Genuine S w) (shown : w.Shown S e)
    (method : String) :
    (∀ chain w₁, r.ancestry e w = .ok chain w₁ →
      r.SearchesAlong e method w chain w₁ (.operationNotFound method (names chain))) ∧
    (∀ listed w₁, r.ancestry e w = .error (.cyclicAncestry listed) w₁ →
      ∃ more p, r.Ascent w e (more ++ [p]) p w₁ ∧ Apart (e :: more) ∧ Revisits (e :: more) p ∧
        listed = names (e :: more ++ [p]) ∧
        r.SearchesAlong e method w (e :: more) w₁ (.cyclicAncestry listed)) := by
  have tells := session.tells shown
  refine ⟨fun chain w₁ walk => searchesAlong_of_ancestry tells walk, fun listed w₁ walk => ?_⟩
  obtain ⟨more, p, ascent, apart, again, rfl⟩ := ancestry_cyclic_iff.mp walk
  exact ⟨more, p, ascent, apart, again, rfl, searchesAlong_of_cycle tells ascent apart again⟩

/-! ### Two entries that are parents of each other -/

namespace Sample

def coupleA : Entry := ⟨0, ⟨"a"⟩, "a"⟩

def coupleB : Entry := ⟨1, ⟨"b"⟩, "b"⟩

def coupleCellsA : Cells where
  metadata := some (note "b")
  operations := some none

def coupleCellsB : Cells where
  metadata := some (note "a")
  operations := some (some (.ofList "b" "" [echo "echo"]))

def couple : World where
  disk := ⟨[], []⟩
  cells := [coupleCellsA, coupleCellsB]
  byPath := [([.name "a"], coupleA), ([.name "b"], coupleB)]
  byName := [("a", coupleA), ("b", coupleB)]

/-- The world once the lower of the two has been asked for its parent. -/
def coupleHalf : World :=
  couple.setCells coupleA { coupleCellsA with parent := some (some coupleB) }

/-- And the upper one as well. -/
def coupleAsked : World :=
  coupleHalf.setCells coupleB { coupleCellsB with parent := some (some coupleA) }

theorem couple_session : ∃ S, registry.Genuine S couple ∧ couple.Shown S coupleA := by
  have empty : registry.Genuine (· ∈ registry.roots) { disk := ⟨[], []⟩ } :=
    .start (show ofConfig { collections := [] } ⟨"."⟩ [] [.ofList "entry" "" [echo "show"]]
      { disk := ⟨[], []⟩ } = .ok registry _ from rfl)
  have first := empty.create ⟨"a"⟩ "a" coupleCellsA (by simp [coupleCellsA]) (by simp [coupleCellsA])
  have both := first.create ⟨"b"⟩ "b" coupleCellsB (by simp [coupleCellsB]) (by simp [coupleCellsB])
  have known := both.register (e := coupleA) (.given (.inl (.inr rfl)))
  exact ⟨_, known.register (e := coupleB) (.given (.inr rfl)), .given (.inl (.inr rfl))⟩

theorem couple_parentA : registry.parent coupleA couple = .ok (some coupleB) coupleHalf := rfl

theorem couple_parentB : registry.parent coupleB coupleHalf = .ok (some coupleA) coupleAsked := rfl

theorem couple_cyclic :
    registry.ancestry coupleA couple = .error (.cyclicAncestry ["a", "b", "a"]) coupleAsked := by
  refine ancestry_cyclic_iff.mpr ⟨[coupleB], coupleA, ?_, ?_, ⟨coupleA, by simp, rfl⟩, rfl⟩
  · exact .up couple_parentA (.up couple_parentB .here)
  · rw [Apart]
    decide

theorem couple_ascent {more : List Entry} {p : Entry}
    (ascent : registry.Ascent couple coupleA (more ++ [p]) p w')
    (listed : ["a", "b", "a"] = names (coupleA :: more ++ [p])) : more = [coupleB] := by
  match more with
  | [] => simp [names] at listed
  | [y] =>
      cases ascent with
      | up parent _ =>
          cases parent.symm.trans couple_parentA
          rfl
  | _ :: _ :: _ => simp [names] at listed

/-- The upper entry's method is found before the cycle closes; for one that neither has, the search
reports the cycle as the walk does. -/
theorem couple_search : (∃ S, registry.Genuine S couple ∧ couple.Shown S coupleA) ∧
    registry.ancestry coupleA couple = .error (.cyclicAncestry ["a", "b", "a"]) coupleAsked ∧
    (∃ w', registry.reach coupleA "echo" couple = .ok ⟨echo "echo", coupleB, ["a", "b"]⟩ w') ∧
    ∃ w', registry.reach coupleA "none" couple = .error (.cyclicAncestry ["a", "b", "a"]) w' := by
  have offersA (method : String) : registry.Offers coupleAsked coupleA method none :=
    ⟨none, _, operations_of_known _ rfl, rfl⟩
  have asksB : registry.operations coupleB coupleAsked =
      .ok (some (.ofList "b" "" [echo "echo"])) coupleAsked :=
    operations_of_known _ rfl
  obtain ⟨S, session, shown⟩ := couple_session
  obtain ⟨-, cyclic⟩ := reach_agrees_ancestry session shown "echo"
  obtain ⟨more, p, ascent, -, -, listed, along⟩ := cyclic _ _ couple_cyclic
  obtain ⟨-, cyclic'⟩ := reach_agrees_ancestry session shown "none"
  obtain ⟨more', p', ascent', -, -, listed', along'⟩ := cyclic' _ _ couple_cyclic
  obtain rfl := couple_ascent ascent listed
  obtain rfl := couple_ascent ascent' listed'
  refine ⟨couple_session, couple_cyclic, along.found [coupleA] coupleB [] _ rfl ?_ ⟨_, _, asksB, rfl⟩,
    along'.missing ?_⟩
  · exact List.forall_mem_singleton.mpr (offersA _)
  · exact List.forall_mem_cons.mpr ⟨offersA _, List.forall_mem_singleton.mpr ⟨_, _, asksB, rfl⟩⟩

end Sample

end Registry
end Lineage
