import Lineage.Proofs.Registry.Dispatch

/-!
The listing of an entry. The names that it lists as operations are those for which the search along
the ancestry finds one: each once, those of nearer entries first, and those of one namespace as they
stand there. With the built-ins, they are the methods on which there is help.
-/
namespace Lineage

open World Action

namespace Registry

/-! ### The order of a listing -/

/-- How far out a name stands first. -/
def level (levels : List (List String)) (name : String) : Nat :=
  levels.findIdx fun names => decide (name ∈ names)

/-- A name that stands at a nearer level than another, or at the same one before it. -/
def Ahead (levels : List (List String)) (a b : String) : Prop :=
  level levels a < level levels b ∨ level levels a = level levels b ∧
    ∃ names, levels[level levels a]? = some names ∧ names.idxOf a < names.idxOf b

section

variable {levels : List (List String)} {names : List String} {a b : String}

theorem level_cons_of_mem (h : a ∈ names) : level (names :: levels) a = 0 := by
  rw [level, List.findIdx_cons, decide_eq_true h, cond_true]

theorem level_cons_of_not_mem (h : a ∉ names) : level (names :: levels) a = level levels a + 1 := by
  rw [level, List.findIdx_cons, decide_eq_false h, cond_false, level]

/-- Who comes first in all levels together is ahead. -/
theorem ahead_of_idxOf_lt (ha : a ∈ levels.flatten)
    (first : levels.flatten.idxOf a < levels.flatten.idxOf b) : Ahead levels a b := by
  induction levels with
  | nil => cases ha
  | cons names levels ih =>
      rw [List.flatten_cons] at ha first
      by_cases hb : b ∈ names
      · have hab : a ∈ names := by
          by_contra far
          have bound := List.idxOf_lt_length_of_mem hb
          rw [List.idxOf_append_of_notMem far, List.idxOf_append_of_mem hb] at first
          omega
        rw [List.idxOf_append_of_mem hab, List.idxOf_append_of_mem hb] at first
        refine .inr ⟨by rw [level_cons_of_mem hab, level_cons_of_mem hb], names, ?_, first⟩
        rw [level_cons_of_mem hab]
        rfl
      · by_cases hab : a ∈ names
        · exact .inl (by rw [level_cons_of_mem hab, level_cons_of_not_mem hb]; omega)
        · rw [List.idxOf_append_of_notMem hab, List.idxOf_append_of_notMem hb] at first
          have far := (List.mem_append.mp ha).resolve_left hab
          rw [Ahead, level_cons_of_not_mem hab, level_cons_of_not_mem hb]
          rcases ih far (by omega) with nearer | ⟨same, there, at_level, before⟩
          · exact .inl (by omega)
          · exact .inr ⟨by omega, there, at_level, before⟩

theorem idxOf_lt_of_filter {p : String → Bool} (ha : p a = true) (hb : p b = true)
    (first : (names.filter p).idxOf a < (names.filter p).idxOf b) :
    names.idxOf a < names.idxOf b := by
  induction names with
  | nil => simp at first
  | cons x xs ih =>
      cases hx : p x with
      | false =>
          have xa : x ≠ a := fun same => by rw [same, ha] at hx; cases hx
          have xb : x ≠ b := fun same => by rw [same, hb] at hx; cases hx
          rw [List.filter_cons_of_neg (by simp [hx])] at first
          rw [List.idxOf_cons_ne _ xa, List.idxOf_cons_ne _ xb]
          exact Nat.succ_lt_succ (ih first)
      | true =>
          rw [List.filter_cons_of_pos hx] at first
          have xb : x ≠ b := by
            rintro rfl
            rw [List.idxOf_cons_self] at first
            cases first
          rw [List.idxOf_cons_ne _ xb] at first ⊢
          by_cases xa : x = a
          · subst xa
            rw [List.idxOf_cons_self]
            exact Nat.succ_pos _
          · rw [List.idxOf_cons_ne _ xa] at first ⊢
            exact Nat.succ_lt_succ (ih (Nat.lt_of_succ_lt_succ first))

/-- Duplicates are dropped but for the first of them, so what is left stands in the order of first
appearance. -/
theorem eraseDups_pairwise (names : List String) :
    names.eraseDups.Pairwise fun a b => names.idxOf a < names.idxOf b := by
  induction h : names.length using Nat.strong_induction_on generalizing names with
  | _ n ih =>
    cases names with
    | nil => exact .nil
    | cons x xs =>
        have shorter : (xs.filter fun y => !y == x).length < n :=
          h ▸ Nat.lt_succ_of_le (List.length_filter_le _ _)
        have other : ∀ y ∈ (xs.filter fun y => !y == x).eraseDups, (!y == x) = true :=
          fun y hy => (List.mem_filter.mp (List.mem_eraseDups.mp hy)).2
        have ne {y : String} (hy : (!y == x) = true) : x ≠ y := by
          rintro rfl
          simp at hy
        rw [List.eraseDups_cons]
        refine List.pairwise_cons.mpr ⟨fun y hy => ?_, ?_⟩
        · rw [List.idxOf_cons_self, List.idxOf_cons_ne _ (ne (other y hy))]
          exact Nat.succ_pos _
        · refine (ih _ shorter _ rfl).imp_of_mem fun {y z} hy hz first => ?_
          rw [List.idxOf_cons_ne _ (ne (other y hy)), List.idxOf_cons_ne _ (ne (other z hz))]
          exact Nat.succ_lt_succ (idxOf_lt_of_filter (other y hy) (other z hz) first)

theorem nodup_eraseDups (names : List String) : names.eraseDups.Nodup := by
  refine (eraseDups_pairwise names).imp fun first => ?_
  rintro rfl
  exact Nat.lt_irrefl _ first

end

/-! ### What a chain offers -/

def namesOf (offered : Option Namespace) : List String := (offered.map Namespace.names).getD []

theorem mem_namesOf (offered : Option Namespace) (name : String) :
    name ∈ namesOf offered ↔ ∃ op, (offered.bind fun ns => ns.get? name) = some op := by
  cases offered with
  | none => simp [namesOf]
  | some ns =>
      have missing : ns.get? name = none ↔ name ∉ ns.names :=
        Table.get?_eq_none_iff ns.operations name
      rw [← Option.isSome_iff_exists, Option.isSome_iff_ne_none]
      exact (not_iff_comm.mp missing.symm).symm

theorem reachable_eq (offers : List (Option Namespace)) :
    reachable offers = (offers.map namesOf).flatten.eraseDups := by
  rw [reachable, List.flatMap_def]
  rfl

variable {r : Registry} {e x : Entry} {method : String} {w w' w₁ : World} {chain : List Entry}
  {offers : List (Option Namespace)}

/-- Whoever is near reads the same operations in a later world. -/
theorem Reads.operationsIn (reads : r.Reads e w w') (near : r.Near e w x) :
    r.operationsIn x (w'.cellsOf x) w'.disk = r.operationsIn x (w.cellsOf x) w.disk := by
  rw [reads.disk, (reads.parts x near).operations]

/-- The entries of a chain, asked for their operations in turn, answer what they do in the end. -/
theorem mapM_operations (tells : r.Tells e w) (near : ∀ x ∈ chain, r.Near e w x)
    (asked : chain.mapM r.operations w = .ok offers w') :
    r.Tells e w' ∧ r.Reads e w w' ∧
      List.Forall₂ (fun x offered => ∃ u, r.operations x w' = .ok offered u) chain offers := by
  induction chain generalizing w offers with
  | nil =>
      cases asked
      exact ⟨tells, (reads_course r e).refl _, .nil⟩
  | cons x chain ih =>
      rw [List.mapM_cons] at asked
      obtain ⟨offered, w₁, first, asked⟩ := bind_eq_ok_iff.mp asked
      obtain ⟨offers, w₂, rest, done⟩ := bind_eq_ok_iff.mp asked
      cases done
      obtain ⟨near_x, near⟩ := List.forall_mem_cons.mp near
      obtain ⟨told, reads, read⟩ := operations_reads tells near_x first
      obtain ⟨told', reads', all⟩ := ih told (fun y hy => reads.near y (near y hy)) rest
      refine ⟨told', (reads_course r e).trans reads reads', .cons ?_ all⟩
      have near_x := reads.near x near_x
      obtain ⟨c, again, -⟩ :=
        (operations_reading r x).apply w' (told'.held x (reads'.near x near_x))
      rw [reads'.operationsIn near_x, read] at again
      exact ⟨_, again⟩

theorem offers_iff_of_asked {offered : Option Namespace} {found : Option Operation}
    (asked : ∃ u, r.operations x w = .ok offered u) :
    r.Offers w x method found ↔ (offered.bind fun ns => ns.get? method) = found := by
  obtain ⟨u, asked⟩ := asked
  rw [Offers, asked]
  simp

/-- A name stands at some level if and only if some entry offers an operation of that name, and every
entry offers one or none. -/
theorem mem_levels_iff
    (asked : List.Forall₂ (fun x offered => ∃ u, r.operations x w = .ok offered u) chain offers)
    (method : String) :
    (method ∈ (offers.map namesOf).flatten ↔ ∃ x ∈ chain, ∃ op, r.Offers w x method (some op)) ∧
      ∀ x ∈ chain, ∃ found, r.Offers w x method found := by
  induction asked with
  | nil => simp
  | @cons x offered chain offers asked _ ih =>
      obtain ⟨named, all⟩ := ih
      refine ⟨?_, List.forall_mem_cons.mpr ⟨⟨_, (offers_iff_of_asked asked).mpr rfl⟩, all⟩⟩
      simp only [List.map_cons, List.flatten_cons, List.mem_append, named, mem_namesOf,
        List.exists_mem_cons_iff, offers_iff_of_asked asked]

/-! ### Listed names and the search for them -/

theorem Offers.inj {found found' : Option Operation} (h : r.Offers w x method found)
    (h' : r.Offers w x method found') : found = found' := by
  obtain ⟨offered, _, asked, rfl⟩ := h
  obtain ⟨offered', _, asked', rfl⟩ := h'
  cases asked.symm.trans asked'
  rfl

/-- Along a chain whose operations can be had, there is a first entry to have a method, or none. -/
theorem first_offer (loads : ∀ x ∈ chain, ∃ found, r.Offers w x method found) :
    (∃ before x after op, chain = before ++ x :: after ∧ (∀ y ∈ before, r.Offers w y method none) ∧
      r.Offers w x method (some op)) ∨ ∀ y ∈ chain, r.Offers w y method none := by
  induction chain with
  | nil => exact .inr fun _ h => nomatch h
  | cons x chain ih =>
      obtain ⟨⟨found, here⟩, loads⟩ := List.forall_mem_cons.mp loads
      cases found with
      | some op => exact .inl ⟨[], x, chain, op, rfl, nofun, here⟩
      | none =>
          obtain ⟨before, y, after, op, rfl, lacks, offers⟩ | lacks := ih loads
          · exact .inl ⟨x :: before, y, after, op, rfl, List.forall_mem_cons.mpr ⟨here, lacks⟩, offers⟩
          · exact .inr (List.forall_mem_cons.mpr ⟨here, lacks⟩)

/-- A search along a chain finds a method if and only if some entry of the chain offers it. -/
theorem SearchesAlong.finds_iff {otherwise : Error}
    (along : r.SearchesAlong e method w chain w₁ otherwise)
    (loads : ∀ x ∈ chain, ∃ found, r.Offers w₁ x method found) :
    ((∃ reached w', r.reach e method w = .ok reached w') ↔
      ∃ x ∈ chain, ∃ op, r.Offers w₁ x method (some op)) ∧
    ((¬ ∃ x ∈ chain, ∃ op, r.Offers w₁ x method (some op)) →
      ∃ w', r.reach e method w = .error otherwise w') := by
  obtain ⟨before, x, after, op, rfl, lacks, offers⟩ | lacks := first_offer loads
  · have offered : ∃ y ∈ before ++ x :: after, ∃ op, r.Offers w₁ y method (some op) :=
      ⟨x, by simp, op, offers⟩
    obtain ⟨w', found⟩ := along.found before x after op rfl lacks offers
    exact ⟨⟨fun _ => offered, fun _ => ⟨_, w', found⟩⟩, fun none => absurd offered none⟩
  · obtain ⟨w', missing⟩ := along.missing lacks
    have none : ¬ ∃ x ∈ chain, ∃ op, r.Offers w₁ x method (some op) := by
      rintro ⟨x, hx, op, offers⟩
      cases offers.inj (lacks x hx)
    refine ⟨⟨?_, fun offered => absurd offered none⟩, fun _ => ⟨w', missing⟩⟩
    rintro ⟨reached, w'', found⟩
    cases missing.symm.trans found

theorem builtin?_isSome_iff :
    (r.builtin? method).isSome ↔ method ∈ r.builtins.flatMap Namespace.names := by
  have has (layer : Namespace) : (layer.get? method).isSome ↔ method ∈ layer.names := by
    rw [Option.isSome_iff_exists]
    exact (mem_namesOf (some layer) method).symm
  simp [builtin?, List.findSome?_isSome_iff, has]

/-- There is help on a method that the search finds, and on a built-in that it does not find. -/
theorem described_iff (missing : (¬ ∃ reached w', r.reach e method w = .ok reached w') →
    ∃ visited w', r.reach e method w = .error (.operationNotFound method visited) w') :
    (∃ help w', r.describeMethod e method w = .ok help w') ↔
      (∃ reached w', r.reach e method w = .ok reached w') ∨
        method ∈ r.builtins.flatMap Namespace.names := by
  rw [← builtin?_isSome_iff, describeMethod_apply, dispatch]
  by_cases found : ∃ reached w', r.reach e method w = .ok reached w'
  · obtain ⟨reached, w', found⟩ := found
    rw [found]
    simp
  · obtain ⟨visited, w', missing⟩ := missing found
    rw [missing]
    cases r.builtin? method <;> simp

/-- The names that the namespace of an entry has, in its own order. -/
def Lists (r : Registry) (w : World) (x : Entry) (names : List String) : Prop :=
  ∃ offered w', r.operations x w = .ok offered w' ∧ names = namesOf offered

/-- The listing of an entry is exactly what can be called on it. It lists no operation twice. It lists
those for which the search along the ancestry finds one, by how far out the nearest entry stands whose
namespace has them, and within a namespace in its own order. Of the operations and the built-ins that
it lists, and of no other method, there is help. -/
theorem describeEntry_exact {S : Entry → Prop} (session : r.Genuine S w) (shown : w.Shown S e)
    {value : Json} (described : r.describeEntry e w = .ok value w') :
    ∃ fields operations builtins chain levels, value = .obj fields ∧
      Table.get? fields "operations" = some (.strings operations) ∧
      Table.get? fields "builtins" = some (.strings builtins) ∧
      operations.Nodup ∧
      (∀ method, method ∈ operations ↔ ∃ reached u, r.reach e method w = .ok reached u) ∧
      (∃ u, r.ancestry e w = .ok chain u) ∧ List.Forall₂ (r.Lists w') chain levels ∧
      operations.Pairwise (Ahead levels) ∧
      ∀ method, method ∈ operations ∨ method ∈ builtins ↔
        ∃ help u, r.describeMethod e method w = .ok help u := by
  have tells := session.tells shown
  obtain ⟨chain, w₁, walk, described⟩ := bind_eq_ok_iff.mp described
  obtain ⟨own, w₂, own_asked, described⟩ := bind_eq_ok_iff.mp described
  obtain ⟨offers, w₃, asked, described⟩ := bind_eq_ok_iff.mp described
  cases described
  obtain ⟨told₁, reads₁, near₁⟩ := ancestry_reads tells walk
  obtain ⟨told₂, reads₂, -⟩ := operations_reads told₁ (reads₁.near e .self) own_asked
  obtain ⟨told₃, reads₃, read⟩ := mapM_operations told₂ (fun x hx => reads₂.near x (near₁ x hx)) asked
  have later := (reads_course r e).trans reads₂ reads₃
  have same (method : String) {found : Option Operation} (x : Entry) (hx : x ∈ chain) :
      r.Offers w' x method found ↔ r.Offers w₁ x method found :=
    later.offers_iff told₁ told₃ (near₁ x hx)
  -- The search goes along the chain, whose entries offer what they are listed with.
  have finds (method : String) :
      (method ∈ reachable offers ↔ ∃ reached u, r.reach e method w = .ok reached u) ∧
      ((¬ ∃ reached u, r.reach e method w = .ok reached u) →
        ∃ u, r.reach e method w = .error (.operationNotFound method (names chain)) u) := by
    obtain ⟨named, loads⟩ := mem_levels_iff read method
    have loads (x : Entry) (hx : x ∈ chain) : ∃ found, r.Offers w₁ x method found := by
      obtain ⟨found, offers⟩ := loads x hx
      exact ⟨found, (same method x hx).mp offers⟩
    have offered : (∃ x ∈ chain, ∃ op, r.Offers w' x method (some op)) ↔
        ∃ x ∈ chain, ∃ op, r.Offers w₁ x method (some op) :=
      exists_congr fun x => and_congr_right fun hx => exists_congr fun op => same method x hx
    obtain ⟨found, missing⟩ := (searchesAlong_of_ancestry tells walk).finds_iff loads
    refine ⟨?_, fun none => missing (found.not.mp none)⟩
    rw [reachable_eq, List.mem_eraseDups, named, offered, found]
  refine ⟨_, reachable offers, r.builtins.flatMap Namespace.names, chain, offers.map namesOf, rfl,
    by simp [Table.get?], by simp [Table.get?], ?_, fun method => (finds method).1, ⟨w₁, walk⟩, ?_, ?_,
    fun method => ?_⟩
  · rw [reachable_eq]
    exact nodup_eraseDups _
  · refine List.forall₂_map_right_iff.mpr (read.imp fun x offered asked => ?_)
    obtain ⟨u, asked⟩ := asked
    exact ⟨offered, u, asked, rfl⟩
  · rw [reachable_eq]
    refine (eraseDups_pairwise _).imp_of_mem fun {a b} ha _ first => ?_
    exact ahead_of_idxOf_lt (List.mem_eraseDups.mp ha) first
  · obtain ⟨found, missing⟩ := finds method
    rw [described_iff fun none => ⟨names chain, missing none⟩, found]

/-! ### An entry that offers what its parent does, and what a built-in does -/

namespace Sample

def outer : Namespace := .ofList "outer" "" [echo "echo", echo "show"]

def inner : Namespace := .ofList "inner" "" [echo "show", echo "get_name"]

def outerCells : Cells where
  parent := some none
  operations := some (some outer)

def innerCells : Cells where
  parent := some (some upper)
  operations := some (some inner)

def layered : World where
  disk := ⟨[], []⟩
  cells := [outerCells, innerCells]

theorem layered_session : ∃ S, helped.Genuine S layered ∧ layered.Shown S lower := by
  have empty : helped.Genuine (· ∈ helped.roots) { disk := ⟨[], []⟩ } :=
    .start (show ofConfig { collections := [] } ⟨"."⟩ [] Catalog.builtins { disk := ⟨[], []⟩ } =
      .ok helped _ from rfl)
  have first := empty.create ⟨"upper"⟩ "upper" outerCells (by simp [outerCells]) (by simp [outerCells])
  refine ⟨_, first.create ⟨"lower"⟩ "lower" innerCells (by simp [innerCells]) ?_, .given (.inr rfl)⟩
  intro p hp
  cases hp
  exact .given (.inr rfl)

def layeredListing : Params :=
  [("entry", .str "lower"), ("path", .str "lower"), ("doc", .str ""), ("namespace", .str "inner"),
    ("parent", .str "upper"), ("ancestry", .str "lower --> upper"),
    ("operations", .strings ["show", "get_name", "echo"]),
    ("builtins", .strings (Catalog.builtins.flatMap Namespace.names))]

/-- The upper entry's own operation is found from below, the one that both have is listed once, and
there is no help on what neither of them nor any built-in is. -/
theorem layered_listing : (∃ S, helped.Genuine S layered ∧ layered.Shown S lower) ∧
    (∃ fields, helped.describeEntry lower layered = .ok (.obj fields) layered ∧
      Table.get? fields "operations" = some (.strings ["show", "get_name", "echo"])) ∧
    (∃ reached u, helped.reach lower "echo" layered = .ok reached u) ∧
    ¬ ∃ help u, helped.describeMethod lower "none" layered = .ok help u := by
  have walk : helped.ancestry lower layered = .ok [lower, upper] layered := by
    have line : layered.Line lower [lower, upper] := .next rfl (.last rfl)
    exact ancestry_of_line helped line
  have own : helped.operations lower layered = .ok (some inner) layered := operations_of_known _ rfl
  have asked : [lower, upper].mapM helped.operations layered =
      .ok [some inner, some outer] layered := rfl
  have described : helped.describeEntry lower layered = .ok (.obj layeredListing) layered := by
    rw [describeEntry, bind_of_ok walk, bind_of_ok own, bind_of_ok asked]
    rfl
  obtain ⟨S, session, shown⟩ := layered_session
  obtain
    ⟨fields, operations, builtins, chain, levels, same, listed, layers, -, callable, -, -, -, help⟩ :=
    describeEntry_exact session shown described
  cases same
  have inj {xs ys : List String} (h : some (Json.strings xs) = some (.strings ys)) : xs = ys :=
    List.map_injective_iff.mpr (fun _ _ => Json.str.inj) (Json.arr.inj (Option.some.inj h))
  obtain rfl : ["show", "get_name", "echo"] = operations := inj listed
  obtain rfl : Catalog.builtins.flatMap Namespace.names = builtins := inj layers
  refine ⟨layered_session, ⟨_, described, rfl⟩, (callable "echo").mp (by decide), ?_⟩
  refine (help "none").not.mp ?_
  decide

end Sample

end Registry
end Lineage
