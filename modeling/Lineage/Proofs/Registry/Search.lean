import Lineage.Proofs.Disk.Replace
import Lineage.Proofs.Registry.Identity
import Lineage.Proofs.Registry.SearchGraph

/-!
A search is sound and complete, and goes depth first. It finds a name if and only if some collection
that can be reached has it in its index, and the first of these in depth-first order decides.
Searches from several roots share what they have visited; still the first root that leads to the
name decides, as it would by itself. Where collections share one document, so that each leads to a
further one, a search may have no answer.
-/
namespace Lineage

open World Action DepthFirst
open Component (IsName)

namespace Registry

variable {r : Registry} {w₀ w w' : World} {name : String} {rest : List Lead} {visited : List Path}
  {seen : Set Path} {pending : List Path}

/-! ### Steps of a search -/

/-- Where a search stands, in the graph of the world in which it began: what it has seen and what is
pending. -/
structure Stands (r : Registry) (w₀ : World) (leads : List Lead) (visited : List Path) (w : World)
    (seen : Set Path) (pending : List Path) : Prop where
  same : SameGraph r w₀ w
  hopen : ∀ lead ∈ leads, lead.Open r w
  places : leads.filterMap (Lead.place r w₀) = pending
  been : ∀ p : Path, p.normalize = p → (p ∈ seen ↔ p.isIn visited = true)
  loads : ∀ a ∈ pending, ∀ p, Reaches (r.neighbours w₀) seen a p → r.Loads w₀ p

/-- What a search answers where its walk has come to a hit, or to none. -/
def Answers (r : Registry) (w : World) (name : String) (w' : World) (hit : Option Path)
    (found : Option Entry) : Prop :=
  match hit with
  | none => found = none
  | some d => ∃ c e, found = some e ∧ c.path = d ∧ w'.Known c ∧
      r.indexPlace w name d = some e.path ∧ Indexes w' c name e

/-- What a step of a search does. -/
inductive Turn (r : Registry) (w₀ : World) (name : String) (rest : List Lead)
    (visited : List Path) (w' : World) (seen : Set Path) : List Path → Search → Prop
  | nowhere {pending : List Path} (stands : Stands r w₀ rest visited w' seen pending) :
      Turn r w₀ name rest visited w' seen pending (.going rest visited)
  | back {p : Path} {pending : List Path} (old : p ∈ seen)
      (stands : Stands r w₀ rest visited w' seen pending) :
      Turn r w₀ name rest visited w' seen (p :: pending) (.going rest visited)
  | found {p : Path} {pending : List Path} {e : Entry} (new : p ∉ seen)
      (hits : r.lists w₀ name p = true) (same : SameGraph r w₀ w')
      (answers : Answers r w₀ name w' (some p) (some e)) :
      Turn r w₀ name rest visited w' seen (p :: pending) (.found e (visited ++ [p]))
  | onward {p : Path} {pending : List Path} {leads : List Lead} (new : p ∉ seen)
      (misses : r.lists w₀ name p = false)
      (stands : Stands r w₀ leads (visited ++ [p]) w' (insert p seen)
        (r.neighbours w₀ p ++ pending)) :
      Turn r w₀ name rest visited w' seen (p :: pending) (.going leads (visited ++ [p]))

theorem isIn_append {p q : Path} (hp : p.normalize = p) (hq : q.normalize = q)
    (visited : List Path) : p.isIn (visited ++ [q]) = true ↔ p = q ∨ p.isIn visited = true := by
  have same : p.same q = true ↔ p = q := by
    rw [Path.same, beq_iff_eq]
    exact ⟨Path.eq_of_components hp hq, fun h => h ▸ rfl⟩
  rw [Path.isIn, Path.isIn, List.any_append, Bool.or_eq_true, or_comm]
  simp only [List.any_cons, List.any_nil, Bool.or_false, same]

theorem visit_turn {c : Entry}
    (stands : Stands r w₀ (.collection c :: rest) visited w seen (c.path :: pending))
    (new : c.path ∉ seen) (name : String) :
    ∃ next w', r.visit name c rest visited w = .ok next w' ∧
      Turn r w₀ name rest visited w' seen (c.path :: pending) next := by
  obtain ⟨same, hopen, places, been, loads⟩ := stands
  obtain ⟨known, hopen⟩ := List.forall_mem_cons.mp hopen
  obtain ⟨hloads, loads⟩ := List.forall_mem_cons.mp loads
  have places : rest.filterMap (Lead.place r w₀) = pending := (List.cons.inj places).2
  have normal := same.canonical.normal known
  have hc := hloads _ (.here new)
  obtain ⟨found, w₁, hindexed, same₁, place, knownIfAny⟩ :=
    indexed_same same.sound same.canonical known (same.loads.mpr hc) name
  have known₁ := same₁.recalls.known known
  have hopen₁ := fun lead h => same₁.lead (hopen lead h)
  have same₁ := same.trans same₁
  rw [same.indexPlace] at place
  rw [visit, bind_of_ok hindexed]
  cases found with
  | some e =>
      have hits : r.lists w₀ name c.path = true := by rw [lists, ← place]; rfl
      exact ⟨_, w₁, rfl, .found new hits same₁
        ⟨c, e, rfl, rfl, known₁, place.symm, (knownIfAny e rfl).2⟩⟩
  | none =>
      have misses : r.lists w₀ name c.path = false := by rw [lists, ← place]; rfl
      obtain ⟨params, h⟩ := hc
      obtain ⟨w₂, hown, same₂, -⟩ :=
        own_same same₁.sound same₁.canonical known₁ ((same₁.own _).trans h)
      have known₂ := same₂.recalls.known known₁
      have hopen₂ := fun lead h => same₂.lead (hopen₁ lead h)
      have same₂ := same₁.trans same₂
      refine ⟨_, w₂, bind_of_ok hown _, .onward new misses ⟨same₂, ?_, ?_, ?_, ?_⟩⟩
      · intro lead hlead
        rcases List.mem_append.mp hlead with hlead | hlead
        · obtain ⟨item, -, rfl⟩ := List.mem_map.mp hlead
          exact ⟨known₂, same₂.loads.mpr ⟨params, h⟩⟩
        · exact hopen₂ lead hlead
      · rw [List.filterMap_append, places, List.filterMap_map, neighbours, loadedAt_of_ok h]
        rfl
      · intro p hp
        rw [isIn_append hp normal, Set.mem_insert_iff, been p hp]
      · -- What a neighbour leads to past this place, the place itself leads to.
        intro a ha p reach
        have past := reach.mono (Set.subset_insert c.path seen)
        rcases List.mem_append.mp ha with ha | ha
        · exact hloads p (.step new ha past)
        · exact loads a ha p past

theorem pursue_turn {lead : Lead} (stands : Stands r w₀ (lead :: rest) visited w seen pending)
    (name : String) :
    ∃ next w', r.pursue name lead rest visited w = .ok next w' ∧
      Turn r w₀ name rest visited w' seen pending next := by
  obtain ⟨same, hopen, places, been, loads⟩ := stands
  obtain ⟨hlead, hopen⟩ := List.forall_mem_cons.mp hopen
  obtain ⟨found, w₁, hleads, same₁, place, knownIfAny⟩ :=
    leadsTo_same same.sound same.canonical hlead
  rw [same.place] at place
  have hopen₁ := fun lead h => same₁.lead (hopen lead h)
  have same₁ := same.trans same₁
  rw [pursue, bind_of_ok hleads]
  cases found with
  | none =>
      rw [List.filterMap_cons_none place.symm] at places
      exact ⟨_, w₁, rfl, .nowhere ⟨same₁, hopen₁, places, been, loads⟩⟩
  | some c =>
      have known := knownIfAny c rfl
      have met := been _ (same₁.canonical.normal known)
      rw [List.filterMap_cons_some place.symm] at places
      subst places
      dsimp only
      split
      · rename_i old
        refine ⟨_, w₁, rfl, .back (met.mpr old) ⟨same₁, hopen₁, rfl, been, ?_⟩⟩
        exact fun a ha => loads a (List.mem_cons_of_mem _ ha)
      · rename_i new
        refine visit_turn ⟨same₁, ?_, rfl, been, loads⟩ (fun h => new (met.mp h)) name
        exact List.forall_mem_cons.mpr ⟨known, hopen₁⟩

/-! ### Whole searches -/

/-- A search goes on from what a step of it has come to. -/
def goOn (r : Registry) (name : String) (w : World) :
    Search → Option (EStateM.Result Error World Finding)
  | .found e visited => some (.ok (some e, visited) w)
  | .going leads visited => r.explore name leads visited w

theorem explore_cons {lead : Lead} {next : Search}
    (h : r.pursue name lead rest visited w = .ok next w') :
    r.explore name (lead :: rest) visited w = r.goOn name w' next := by
  rw [explore, h]
  cases next <;> rfl

/-- A search that comes to an end has walked the graph depth first, up to its first hit. -/
theorem explore_walks {leads : List Lead} {answer : EStateM.Result Error World Finding}
    (h : r.explore name leads visited w = some answer)
    (stands : Stands r w₀ leads visited w seen pending) :
    ∃ n visits result found w', answer = .ok (found, visited ++ visits) w' ∧
      Stacked (r.neighbours w₀) (r.lists w₀ name) n seen pending visits result ∧
      SameGraph r w₀ w' ∧ Answers r w₀ name w' result found := by
  have walks := explore.partial_correctness r name
    (fun leads visited w answer => ∀ seen pending, Stands r w₀ leads visited w seen pending →
      ∃ n visits result found w', answer = .ok (found, visited ++ visits) w' ∧
        Stacked (r.neighbours w₀) (r.lists w₀ name) n seen pending visits result ∧
        SameGraph r w₀ w' ∧ Answers r w₀ name w' result found)
  refine walks ?_ leads visited w answer h seen pending stands
  intro explore ih leads visited w answer h seen pending stands
  cases leads with
  | nil =>
      cases h
      have places := stands.places
      subst places
      exact ⟨0, [], none, none, w, by rw [List.append_nil], .done, stands.same, rfl⟩
  | cons lead rest =>
      obtain ⟨next, w₁, hpursue, turn⟩ := pursue_turn stands name
      dsimp only at h
      rw [hpursue] at h
      cases turn with
      | nowhere stands₁ => exact ih _ _ _ _ h _ _ stands₁
      | back old stands₁ =>
          obtain ⟨n, visits, result, found, w', hanswer, walk, found'⟩ := ih _ _ _ _ h _ _ stands₁
          exact ⟨n + 1, visits, result, found, w', hanswer, .skip old walk, found'⟩
      | @found p _ e new hits same answers =>
          cases h
          exact ⟨0, [p], some p, some e, w₁, rfl, .hit new hits, same, answers⟩
      | @onward p _ _ new misses stands₁ =>
          obtain ⟨n, visits, result, found, w', hanswer, walk, found'⟩ := ih _ _ _ _ h _ _ stands₁
          rw [List.append_assoc] at hanswer
          exact ⟨n + 1, p :: visits, result, found, w', hanswer, .visit new misses walk, found'⟩

/-- A search comes to an end if the walk does. -/
theorem explore_ends {n : Nat} {leads : List Lead} {visits : List Path} {result : Option Path}
    (h : Stacked (r.neighbours w₀) (r.lists w₀ name) n seen pending visits result)
    (stands : Stands r w₀ leads visited w seen pending) :
    ∃ answer, r.explore name leads visited w = some answer := by
  -- On the steps of the walk. To pass over a lead that leads nowhere is no step of it, so between
  -- two of them on the leads.
  induction n using Nat.strong_induction_on generalizing leads visited w seen pending visits with
  | _ n ih =>
    induction leads generalizing w with
    | nil => exact ⟨_, by rw [explore]⟩
    | cons lead rest ihLeads =>
        obtain ⟨next, w₁, hpursue, turn⟩ := pursue_turn stands name
        rw [explore_cons hpursue]
        cases turn with
        | nowhere stands₁ => exact ihLeads stands₁
        | back old stands₁ =>
            cases h with
            | skip _ walk => exact ih _ (Nat.lt_succ_self _) walk stands₁
            | hit new _ | visit new _ _ => exact absurd old new
        | found _ _ _ _ => exact ⟨_, rfl⟩
        | onward new misses stands₁ =>
            cases h with
            | skip old _ => exact absurd old new
            | hit _ hits => rw [misses] at hits; cases hits
            | visit _ _ walk => exact ih _ (Nat.lt_succ_self _) walk stands₁

/-! ### What is found -/

/-- The places that a place leads to along search paths, past those visited. -/
def Reachable (r : Registry) (w : World) (visited : List Path) : Path → Path → Prop :=
  Reaches (r.neighbours w) {p | p.isIn visited = true}

/-- The first place to have a name in its index, where places are visited depth first. -/
def FirstListing (r : Registry) (w : World) (name : String) (visited : List Path)
    (start place : Path) : Prop :=
  (∃ visits, Explores (r.neighbours w) (r.lists w name) {p | p.isIn visited = true} [start] visits
    (some place)) ∧
  ∀ order, Preorder (r.neighbours w) {p | p.isIn visited = true} [start] order →
    order.find? (r.lists w name) = some place

/-- What a search from a collection comes to. -/
structure SearchOutcome (r : Registry) (w : World) (name : String) (start : Path)
    (visited : List Path) (found : Option Entry) (visited' : List Path) (w' : World) : Prop where
  finds_iff : found.isSome ↔ ∃ p, r.Reachable w visited start p ∧ r.lists w name p = true
  first : ∀ e ∈ found, ∃ d, w'.Known d ∧ r.FirstListing w name visited start d.path ∧
    r.indexed d name w' = .ok (some e) w'
  exhausts : found = none → ∃ order, visited' = visited ++ order ∧ order.Nodup ∧
    ∀ p, p ∈ order ↔ r.Reachable w visited start p

/-- What a search from all roots comes to: the first that leads to the name decides, by itself. -/
structure RootsOutcome (r : Registry) (w : World) (name : String) (found : Option Entry)
    (w' : World) : Prop where
  none_iff : found = none ↔
    ∀ root ∈ r.roots, ∀ p, r.Reachable w [] root.path p → r.lists w name p = false
  first : ∀ e ∈ found, w'.Known e ∧ ∃ before root after, r.roots = before ++ root :: after ∧
    (∀ b ∈ before, ∀ p, r.Reachable w [] b.path p → r.lists w name p = false) ∧
    ∃ x visited w₁, r.searchFrom name root [] w = .ok (some x, visited) w₁ ∧ x.path = e.path

theorem stands_start (sound : w.Sound) (canonical : w.Canonical) (starts : List Entry)
    (known : ∀ c ∈ starts, w.Known c)
    (loads : ∀ c ∈ starts, ∀ p, r.Reachable w visited c.path p → r.Loads w p) :
    Stands r w (starts.map .collection) visited w {p | p.isIn visited = true}
      (starts.map Entry.path) where
  same := .refl sound canonical
  hopen := List.forall_mem_map.mpr known
  places := by
    rw [List.filterMap_map, ← List.filterMap_eq_map]
    rfl
  been _ _ := Iff.rfl
  loads := List.forall_mem_map.mpr loads

theorem search_eq_ok {leads : List Lead} {finding : Finding} :
    r.search name leads visited w = .ok finding w' ↔
      r.explore name leads visited w = some (.ok finding w') := by
  rw [search]
  cases r.explore name leads visited w <;> simp

theorem search_walks {leads : List Lead} {found : Option Entry} {visited' : List Path}
    (h : r.search name leads visited w = .ok (found, visited') w')
    (stands : Stands r w leads visited w seen pending) :
    ∃ visits result, visited' = visited ++ visits ∧
      Explores (r.neighbours w) (r.lists w name) seen pending visits result ∧
      SameGraph r w w' ∧ Answers r w name w' result found := by
  obtain ⟨n, visits, result, found', w'', hanswer, walk, found⟩ :=
    explore_walks (search_eq_ok.mp h) stands
  cases hanswer
  exact ⟨visits, result, rfl, walk.explores, found⟩

/-- A search comes to an end, or it has no answer. -/
theorem search_or_unbounded {leads : List Lead} (stands : Stands r w leads visited w seen pending) :
    (∃ finding w', r.search name leads visited w = .ok finding w') ∨
      r.explore name leads visited w = none ∧
        r.search name leads visited w = .error .unbounded w := by
  rw [search]
  cases explored : r.explore name leads visited w with
  | none => exact .inr ⟨rfl, rfl⟩
  | some answer =>
      obtain ⟨-, -, -, found, w', rfl, -⟩ := explore_walks explored stands
      exact .inl ⟨_, w', rfl⟩

/-- A search has no answer where the walk through the graph does not end. -/
theorem search_of_unending {leads : List Lead} (stands : Stands r w leads visited w seen pending)
    (unending : ∀ n visits result,
      ¬ Stacked (r.neighbours w) (r.lists w name) n seen pending visits result) :
    r.search name leads visited w = .error .unbounded w := by
  refine (search_or_unbounded stands).elim (fun ⟨finding, w', ends⟩ => ?_) And.right
  obtain ⟨n, visits, result, -, -, -, walk, -⟩ := explore_walks (search_eq_ok.mp ends) stands
  exact absurd walk (unending n visits result)

theorem search_of_explores {leads : List Lead} {visits : List Path} {result : Option Path}
    (h : Explores (r.neighbours w) (r.lists w name) seen pending visits result)
    (stands : Stands r w leads visited w seen pending) :
    ∃ found w', r.search name leads visited w = .ok (found, visited ++ visits) w' ∧
      SameGraph r w w' ∧ Answers r w name w' result found := by
  obtain ⟨n, walk⟩ := h.stacked
  obtain ⟨answer, hexplore⟩ := explore_ends walk stands
  obtain ⟨n', visits', result', found, w', rfl, walk', found'⟩ := explore_walks hexplore stands
  obtain ⟨rfl, rfl⟩ := h.unique walk'.explores
  exact ⟨found, w', search_eq_ok.mpr hexplore, found'⟩

theorem Answers.isSome_eq {result : Option Path} {found : Option Entry}
    (h : Answers r w name w' result found) : found.isSome = result.isSome := by
  cases result with
  | none => rw [show found = none from h]; rfl
  | some d =>
      obtain ⟨c, e, rfl, -⟩ := h
      rfl

/-- A search that finds something has come to a hit, and it is the entry there. -/
theorem Answers.of_some {result : Option Path} {e : Entry}
    (h : Answers r w name w' result (some e)) : ∃ c, result = some c.path ∧ w'.Known c ∧
      r.indexPlace w name c.path = some e.path ∧ Indexes w' c name e := by
  cases result with
  | none => cases (show some e = none from h)
  | some d =>
      obtain ⟨c, e', he, rfl, h⟩ := h
      cases he
      exact ⟨c, rfl, h⟩

theorem outcome_of_walk {start : Path} {found : Option Entry} {visits : List Path}
    {result : Option Path}
    (walk : Explores (r.neighbours w) (r.lists w name) {p | p.isIn visited = true} [start] visits
      result)
    (answers : Answers r w name w' result found) :
    SearchOutcome r w name start visited found (visited ++ visits) w' where
  finds_iff := by
    rw [answers.isSome_eq, walk.isSome_iff]
    simp only [List.mem_singleton, exists_eq_left]
    rfl
  first := by
    rintro e rfl
    obtain ⟨c, rfl, known, -, indexes⟩ := answers.of_some
    exact ⟨c, known, ⟨⟨visits, walk⟩, fun order h => walk.find? h⟩, indexed_of_indexes indexes⟩
  exhausts := by
    rintro rfl
    have none : result = none := by
      rw [← Option.isSome_eq_false_iff.trans Option.isNone_iff_eq_none, ← answers.isSome_eq]
      rfl
    subst none
    have order := walk.preorder.1
    refine ⟨visits, rfl, order.nodup, fun p => ?_⟩
    rw [order.mem_iff]
    simp only [List.mem_singleton, exists_eq_left]
    rfl

theorem isIn_nil : {p : Path | p.isIn [] = true} = ∅ := by
  ext p
  simp [Path.isIn]

theorem Indexes.known (canonical : w.Canonical) {c e : Entry} (h : Indexes w c name e) :
    w.Known e := by
  obtain ⟨params, place, -, -, he⟩ := h
  obtain ⟨hplace, -⟩ := canonical.place _ _ he
  rw [Known, ← hplace]
  exact he

theorem roots_outcome_of_walk (sound : w.Sound) (canonical : w.Canonical)
    (known : ∀ root ∈ r.roots, w.Known root)
    (loads : ∀ root ∈ r.roots, ∀ p, r.Reachable w [] root.path p → r.Loads w p)
    {found : Option Entry} {visits : List Path} {result : Option Path} {w₁ : World}
    (walk : Explores (r.neighbours w) (r.lists w name) {p | p.isIn [] = true}
      (r.roots.map Entry.path) visits result)
    (same : SameGraph r w w₁) (answers : Answers r w name w₁ result found)
    (table : w'.byPath = w₁.byPath) : RootsOutcome r w name found w' where
  none_iff := by
    rw [← Option.isNone_iff_eq_none, ← Option.isSome_eq_false_iff, answers.isSome_eq,
      ← Bool.not_eq_true, walk.isSome_iff]
    simp only [List.mem_map, not_exists, not_and, Bool.not_eq_true, forall_exists_index, and_imp]
    constructor
    · intro h root hroot p reach
      exact h _ root hroot rfl p reach
    · rintro h a root hroot rfl p reach
      exact h root hroot p reach
  first := by
    rintro e rfl
    obtain ⟨c, rfl, -, place, indexes⟩ := answers.of_some
    have knowne := indexes.known same.canonical
    refine ⟨by rwa [Known, table], ?_⟩
    obtain ⟨before, a, after, own, split, none, walk⟩ :=
      walk.first_start [] (List.forall_mem_nil _) (List.forall_mem_nil _) (by
        rw [isIn_nil]
        simp) rfl
    obtain ⟨before, roots, hroots, rfl, hroots'⟩ := List.map_eq_append_iff.mp split
    obtain ⟨root, after, rfl, rfl, rfl⟩ := List.map_eq_cons_iff.mp hroots'
    have hroot : root ∈ r.roots := by
      rw [hroots]
      simp
    rw [← isIn_nil] at none walk
    refine ⟨before, root, after, hroots, fun b hb => none b.path (List.mem_map_of_mem hb), ?_⟩
    obtain ⟨x, w₂, hsearch, -, answers⟩ := search_of_explores walk
      (stands_start sound canonical [root] (List.forall_mem_singleton.mpr (known root hroot))
        (List.forall_mem_singleton.mpr (loads root hroot)))
    obtain ⟨c', x, rfl, hc', -, place', -⟩ := answers
    rw [place] at place'
    exact ⟨x, _, w₂, hsearch, (Option.some.inj place').symm⟩

/-- Search by name is sound, complete and depth first. From a collection whose reachable collections
all load, it finds something if and only if one that can be reached past those visited has the name
in its index, and then what the first of these in depth-first order has there; if it finds nothing,
it has visited exactly what can be reached, once each. From all roots, for a name not known yet, the
first root that leads to such a collection decides. Both come to an end where finitely many places
can be reached; elsewhere they may also have no answer. -/
theorem name_search_depth_first (sound : w.Sound) (canonical : w.Canonical) (name : String) :
    (∀ c visited, w.Known c → (∀ p, r.Reachable w visited c.path p → r.Loads w p) →
      ((∃ cover : List Path, ∀ p, r.Reachable w visited c.path p → p ∈ cover) →
        ∃ found visited' w', r.searchFrom name c visited w = .ok (found, visited') w') ∧
      (∀ found visited' w', r.searchFrom name c visited w = .ok (found, visited') w' →
        r.SearchOutcome w name c.path visited found visited' w') ∧
      ((∃ found visited' w', r.searchFrom name c visited w = .ok (found, visited') w') ∨
        r.searchFrom name c visited w = .error .unbounded w)) ∧
    (Table.get? w.byName name = none → (∀ root ∈ r.roots, w.Known root) →
      (∀ root ∈ r.roots, ∀ p, r.Reachable w [] root.path p → r.Loads w p) →
      ((∃ cover : List Path, ∀ root ∈ r.roots, ∀ p, r.Reachable w [] root.path p → p ∈ cover) →
        ∃ found w', r.byName name w = .ok found w') ∧
      (∀ found w', r.byName name w = .ok found w' → r.RootsOutcome w name found w') ∧
      ((∃ found w', r.byName name w = .ok found w') ∨ r.byName name w = .error .unbounded w)) := by
  constructor
  · intro c visited known loads
    have stands : Stands r w [.collection c] visited w {p | p.isIn visited = true} [c.path] :=
      stands_start sound canonical [c] (List.forall_mem_singleton.mpr known)
        (List.forall_mem_singleton.mpr loads)
    refine ⟨fun ⟨cover, finite⟩ => ?_, fun found visited' w' h => ?_, ?_⟩
    · obtain ⟨visits, result, walk⟩ :=
        Explores.exists_of_finite (r.lists w name) (List.forall_mem_singleton.mpr finite)
      obtain ⟨found, w', h, -⟩ := search_of_explores walk stands
      exact ⟨found, _, w', h⟩
    · obtain ⟨visits, result, rfl, walk, -, answers⟩ := search_walks h stands
      exact outcome_of_walk walk answers
    · refine (search_or_unbounded stands).imp (fun ⟨⟨found, visited'⟩, w', h⟩ => ?_) And.right
      exact ⟨found, visited', w', h⟩
  · intro unknown known loads
    have stands := stands_start sound canonical r.roots known loads
    refine ⟨fun ⟨cover, finite⟩ => ?_, fun found w' h => ?_, ?_⟩
    · obtain ⟨visits, result, walk⟩ := Explores.exists_of_finite (r.lists w name)
        (List.forall_mem_map.mpr finite)
      obtain ⟨found, w', h, -⟩ := search_of_explores walk stands
      rw [byName_of_unknown unknown, h]
      cases found <;> exact ⟨_, _, rfl⟩
    · obtain ⟨visited', w₁, hsearch, table, -⟩ := byName_eq_ok unknown h
      obtain ⟨visits, result, -, walk, same, answers⟩ := search_walks hsearch stands
      exact roots_outcome_of_walk sound canonical known loads walk same answers table
    · rw [byName_of_unknown unknown]
      rcases search_or_unbounded stands with ⟨⟨found, visited'⟩, w', h⟩ | ⟨-, h⟩
      · rw [h]
        cases found <;> exact .inl ⟨_, _, rfl⟩
      · exact .inr (by rw [h])

/-! ### Two collections that search each other -/

namespace Sample

def collection (items : List String) (index : Params) : Cells where
  own := some [(indexKey, .obj index), (searchPathKey, .arr (items.map .str))]

def first : Entry := ⟨0, ⟨"a"⟩, "a"⟩

def second : Entry := ⟨1, ⟨"b"⟩, "b"⟩

def third : Entry := ⟨2, ⟨"c"⟩, "c"⟩

def ring : Registry := { registry with roots := [first, second, third] }

def places : World :=
  ((({ disk := ⟨[], []⟩ } : World).enroll ⟨"a"⟩ "a").enroll ⟨"b"⟩ "b").enroll ⟨"c"⟩ "c"

/-- The first two search each other, the second then the third, which lists a tool. -/
def ringWorld : World :=
  ((places.setCells first (collection ["../b"] [])).setCells second
    (collection ["../a", "../c"] [])).setCells third (collection [] [("tool", .str "tool")])

theorem ringWorld_sound : ringWorld.Sound := by
  have sound {w : World} (h : w.Sound) (e : Entry) (items : List String) (index : Params) :
      (w.setCells e (collection items index)).Sound := by
    refine h.setCells e (fun params hp => ?_) fun p hp => nomatch hp
    cases hp
    show [indexKey, searchPathKey].Nodup
    decide
  have empty := ((sound_empty ⟨[], []⟩).enroll ⟨"a"⟩ "a").enroll ⟨"b"⟩ "b" |>.enroll ⟨"c"⟩ "c"
  exact sound (sound (sound empty first _ _) second _ _) third _ _

theorem ringWorld_canonical : ringWorld.Canonical := by
  have empty := sound_empty ⟨[], []⟩
  have canonical : places.Canonical :=
    (((faithful_empty ⟨[], []⟩).toCanonical.enroll empty (by decide) rfl _).enroll
      (empty.enroll _ _) (by decide) (by decide) _).enroll ((empty.enroll _ _).enroll _ _)
      (by decide) (by decide) _
  exact canonical.of_tables rfl rfl

/-- The roots lead to each other only, and are loaded. -/
theorem ring_loads : ∀ root ∈ ring.roots, ∀ p, ring.Reachable ringWorld [] root.path p →
    p ∈ ring.roots.map Entry.path ∧ ring.Loads ringWorld p := by
  have closed : ∀ a ∈ ring.roots.map Entry.path, ∀ b ∈ ring.neighbours ringWorld a,
      b ∈ ring.roots.map Entry.path := by decide
  have loads : ∀ e ∈ ring.roots, ring.Loads ringWorld e.path := by
    simp only [ring, List.forall_mem_cons]
    exact ⟨⟨_, rfl⟩, ⟨_, rfl⟩, ⟨_, rfl⟩, fun e he => nomatch he⟩
  intro root hroot p reach
  have hp := reach.mem_of_closed (s := {p | p ∈ ring.roots.map Entry.path})
    (fun a ha b hb => .inr (closed a ha b hb)) (List.mem_map_of_mem hroot)
  obtain ⟨e, he, rfl⟩ := List.mem_map.mp hp
  exact ⟨hp, loads e he⟩

theorem third_reachable : ring.Reachable ringWorld [] first.path third.path :=
  .step (b := second.path) (by decide) (by decide)
    (.step (b := third.path) (by decide) (by decide) (.here (by decide)))

/-- The tool of the third collection is found from the first, past the cycle. -/
theorem tool_found : ringWorld.Sound ∧ ringWorld.Canonical ∧
    (∃ e visited w', ring.searchFrom "tool" first [] ringWorld = .ok (some e, visited) w' ∧
      ∃ d, w'.Known d ∧ d.path = third.path ∧ ring.indexed d "tool" w' = .ok (some e) w') ∧
    ∃ e w', ring.byName "tool" ringWorld = .ok (some e) w' ∧ w'.Known e := by
  obtain ⟨search, roots⟩ :=
    name_search_depth_first ringWorld_sound ringWorld_canonical "tool" (r := ring)
  have known : ∀ root ∈ ring.roots, ringWorld.Known root := by
    simp only [ring, List.forall_mem_cons]
    exact ⟨rfl, rfl, rfl, fun e he => nomatch he⟩
  have hfirst : first ∈ ring.roots := List.mem_cons_self ..
  have reachable := third_reachable
  refine ⟨ringWorld_sound, ringWorld_canonical, ?_, ?_⟩
  · obtain ⟨ends, outcome, -⟩ :=
      search first [] (known first hfirst) fun p h => (ring_loads first hfirst p h).2
    obtain ⟨found, visited, w', h⟩ := ends ⟨_, fun p h => (ring_loads first hfirst p h).1⟩
    have outcome := outcome _ _ _ h
    cases found with
    | none => exact absurd (outcome.finds_iff.mpr ⟨_, reachable, by decide⟩) Bool.false_ne_true
    | some e =>
        obtain ⟨d, hd, ⟨⟨visits, walk⟩, -⟩, indexed⟩ := outcome.first e rfl
        refine ⟨e, visited, w', h, d, hd, ?_, indexed⟩
        obtain ⟨hits, -, a, ha, reach⟩ := walk.ends rfl
        rw [List.mem_singleton.mp ha] at reach
        have only : ∀ p ∈ ring.roots.map Entry.path, ring.lists ringWorld "tool" p = true →
            p = third.path := by decide
        exact only _ (ring_loads first hfirst _ reach).1 hits
  · obtain ⟨ends, outcome, -⟩ := roots rfl known fun root hroot p h => (ring_loads root hroot p h).2
    obtain ⟨found, w', h⟩ := ends ⟨_, fun root hroot p h => (ring_loads root hroot p h).1⟩
    have outcome := outcome _ _ h
    cases found with
    | none => exact absurd (outcome.none_iff.mp rfl first hfirst _ reachable) (by decide)
    | some e => exact ⟨e, w', h, (outcome.first e rfl).1⟩

/-! ### One document for all collections -/

/-- All collections have one document, and it leads first to a collection deeper down than this one. -/
def lure : Params := [(searchPathKey, .arr [.str "d/d", .str "../t"])]

def luring : Config where
  collections := [⟨"c", ⟨"c"⟩⟩]
  parameters := ⟨"/shared.json", []⟩

def luringDisk : Disk where
  cwd := []
  nodes := [(["shared.json"], .file (DocumentFormat.json.write (.obj lure)))]

def mouth : Entry := ⟨0, ⟨"c"⟩, "c"⟩

/-- A collection that was given an index of its own. -/
def trove : Entry := ⟨1, ⟨"t"⟩, "t"⟩

def troveCells : Cells where
  own := some [(indexKey, .obj [("tool", .str "tool")])]

def luringRegistry : Registry := ⟨⟨""⟩, luring, [mouth], [], []⟩

def luringStart : World where
  disk := luringDisk
  cells := [{}]
  byPath := [([.name "c"], mouth)]
  byName := [("c", mouth)]

/-- Once the collection with the index is registered. -/
def luringWorld : World where
  disk := luringDisk
  cells := [{}, troveCells]
  byPath := [([.name "c"], mouth), ([.name "t"], trove)]
  byName := [("c", mouth), ("t", trove)]

theorem luring_start : ofConfig luring ⟨""⟩ [] [] { disk := luringDisk } =
    .ok luringRegistry luringStart := rfl

theorem luring_session : Session luringRegistry luringWorld := by
  have made : Session luringRegistry (after (create ⟨"t"⟩ "t" troveCells) luringStart) := by
    refine (Session.start luring_start).move (.create _ _ _ (fun params hp => ?_) fun p hp => ?_)
    · cases hp
      exact List.nodup_singleton _
    · cases hp
  refine made.move (.register trove ?_)
  rw [World.Holds]
  decide

theorem luring_rows {place : List Component} {e : Entry}
    (h : Table.get? luringWorld.byPath place = some e) :
    place = [.name "c"] ∧ e = mouth ∨ place = [.name "t"] ∧ e = trove := by
  simp only [luringWorld, Table.get?] at h
  split at h
  · rename_i same
    cases h
    exact .inl ⟨same.symm, rfl⟩
  split at h
  · rename_i same
    cases h
    exact .inr ⟨same.symm, rfl⟩
  · cases h

theorem luring_canonical : luringWorld.Canonical where
  place place e h := by
    rcases luring_rows h with ⟨rfl, rfl⟩ | ⟨rfl, rfl⟩ <;> exact ⟨rfl, rfl⟩
  alone e e' h h' same := by
    rcases luring_rows h with ⟨-, rfl⟩ | ⟨-, rfl⟩ <;>
      rcases luring_rows h' with ⟨-, rfl⟩ | ⟨-, rfl⟩ <;> first | rfl | cases same
  name name e h := by
    simp only [luringWorld, Table.get?] at h
    split at h
    · cases h
      rfl
    split at h
    · cases h
      rfl
    · cases h

/-- Every collection has the document, but for the one with an index. -/
theorem luring_own (p : Path) : luringRegistry.ownAt luringWorld p = .ok lure ∨
    luringWorld.entryAt p = trove ∧
      luringRegistry.ownAt luringWorld p = .ok [(indexKey, .obj [("tool", .str "tool")])] := by
  have load (e : Entry) : mapOn "parameters" e luring.parameters luringDisk = .ok lure := by
    have stat : luringDisk.stat ⟨"/shared.json"⟩ =
        .ok (.file (DocumentFormat.json.write (.obj lure))) := by rfl
    have legible : Json.Legible 127 (.obj lure) := .field (.arr (by simp [Json.Legible.str]))
    have document : luringDisk.load ⟨"/shared.json"⟩ [] = .ok (.obj lure, true) :=
      Disk.load_written stat (by rfl) legible rfl
    have file : e.filePath luring.parameters.file = ⟨"/shared.json"⟩ := rfl
    rw [mapOn, file, show luring.parameters.path = [] from rfl, document]
    rfl
  have unloaded (h : (luringWorld.cellsOf (luringWorld.entryAt p)).own = none) :
      luringRegistry.ownAt luringWorld p = .ok lure := by
    rw [ownAt, h]
    exact load _
  rcases entryAt_cases luring_canonical p with known | ⟨-, made⟩
  · rcases luring_rows known with ⟨-, same⟩ | ⟨-, same⟩
    · exact .inl (unloaded (by rw [same]; rfl))
    · exact .inr ⟨same, by rw [ownAt, same]; rfl⟩
  · exact .inl (unloaded (by rw [made]; rfl))

/-- The collections that are found first, one after the other. -/
def descent : Nat → Path
  | 0 => ⟨"c"⟩
  | n + 1 => ((descent n).join "d").join "d"

theorem isName_d : IsName "d" := ⟨by decide, by decide, by decide⟩

theorem normal_descent (n : Nat) : (descent n).normalize = descent n := by
  induction n with
  | zero => rfl
  | succ n ih => exact Path.normalize_join (Path.normalize_join ih isName_d) isName_d

theorem components_descent (n : Nat) :
    (descent n).components = .name "c" :: List.replicate (2 * n) (.name "d") := by
  induction n with
  | zero => rfl
  | succ n ih =>
      rw [descent, Path.components_join (Path.normalize_join (normal_descent n) isName_d) isName_d,
        Path.components_join (normal_descent n) isName_d, ih, Nat.mul_succ, List.replicate_add,
        List.append_assoc, List.cons_append]
      rfl

theorem descent_injective : Function.Injective descent := by
  intro m n same
  have lengths := congrArg (fun p => p.components.length) same
  simp only [components_descent, List.length_cons, List.length_replicate] at lengths
  omega

theorem lured (n : Nat) : luringRegistry.loadedAt luringWorld (descent n) = lure := by
  rcases luring_own (descent n) with own | ⟨entry, -⟩
  · exact loadedAt_of_ok own
  · have path := path_entryAt luring_canonical (descent n)
    have components := components_descent n
    rw [← normal_descent n, ← path, entry] at components
    have first : trove.path.components.head? = some (.name "c") := congrArg List.head? components
    exact absurd first (by decide)

theorem descent_leads (n : Nat) : ∃ others,
    luringRegistry.neighbours luringWorld (descent n) = descent (n + 1) :: others := by
  have next : ((descent n).join "d/d").normalize = descent (n + 1) := by
    have down : (descent n).join "d/d" = descent (n + 1) :=
      (Path.join_join (descent n) isName_d (Path.isAbsolute_of_whole isName_d.whole)).symm
    rw [down, normal_descent]
  have item : luringRegistry.itemPlace luringWorld (descent n) "d/d" = some (descent (n + 1)) := by
    rw [itemPlace, if_pos (by decide), next]
  rw [neighbours, lured]
  exact ⟨_, List.filterMap_cons_some item⟩

theorem descent_misses (n : Nat) : luringRegistry.lists luringWorld "tool" (descent n) = false := by
  rw [lists, indexPlace, lured]
  rfl

/-- The collection with the tool can be reached, and all load; but every search from the first one, or
from all roots, goes on to ever deeper collections and has no answer. -/
theorem tool_never_found : Session luringRegistry luringWorld ∧ luringWorld.Canonical ∧
    (∀ root ∈ luringRegistry.roots, luringWorld.Known root) ∧
    (∀ p, luringRegistry.Loads luringWorld p) ∧
    luringRegistry.Reachable luringWorld [] mouth.path trove.path ∧
    luringRegistry.lists luringWorld "tool" trove.path = true ∧
    Table.get? luringWorld.byName "tool" = none ∧
    luringRegistry.searchFrom "tool" mouth [] luringWorld = .error .unbounded luringWorld ∧
    luringRegistry.byName "tool" luringWorld = .error .unbounded luringWorld := by
  have known : ∀ root ∈ luringRegistry.roots, luringWorld.Known root :=
    List.forall_mem_singleton.mpr rfl
  have loads (p : Path) : luringRegistry.Loads luringWorld p := by
    rcases luring_own p with own | ⟨-, own⟩ <;> exact ⟨_, own⟩
  have search : luringRegistry.searchFrom "tool" mouth [] luringWorld =
      .error .unbounded luringWorld := by
    refine search_of_unending (stands_start luring_session.sound luring_canonical [mouth] known
      fun _ _ p _ => loads p) fun n visits result => ?_
    exact Stacked.not_of_line descent_injective descent_leads descent_misses (n := 0)
      (by simp [isIn_nil])
  have reachable : luringRegistry.Reachable luringWorld [] mouth.path trove.path := by
    have edge : trove.path ∈ luringRegistry.neighbours luringWorld mouth.path := by
      rw [neighbours, show mouth.path = descent 0 from rfl, lured]
      exact List.mem_filterMap.mpr ⟨"../t", by decide, by decide⟩
    exact .step (by decide) edge (.here (by decide))
  refine ⟨luring_session, luring_canonical, known, loads, reachable, by rfl, rfl, search, ?_⟩
  rw [byName_of_unknown rfl]
  have searched : luringRegistry.search "tool" (luringRegistry.roots.map .collection) []
      luringWorld = .error .unbounded luringWorld := search
  rw [searched]

end Sample

end Registry
end Lineage
