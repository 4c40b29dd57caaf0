import Lineage.Proofs.Collection.Edits

/-!
Listing a collection, and looking names up in it. A lookup reads the index of the collection itself. A
listing is handed its index as a parameter, so it lists the index that the collection inherits if it
has none of its own. Where both see the same index, the entries listed are those that the names of
the index lead to, in order.
-/
namespace Lineage

open World hiding byPath
open Action Registry

namespace Collection

/-! ### Places of an index -/

/-- The names of an index that have a place, each with its place, in order. -/
def placed (index : Params) : List (String × String) :=
  index.filterMap fun field => field.2.str?.map (field.1, ·)

/-- Where a collection has the entries of an index. -/
def sites (c : Entry) (index : Params) : List Path :=
  (placed index).map fun field => c.path.join field.2

theorem values_eq_placed (index : Params) :
    (Table.values index).filterMap Json.str? = (placed index).map Prod.snd := by
  induction index with
  | nil => rfl
  | cons field index ih =>
      obtain ⟨name, value⟩ := field
      cases value with
      | str place => exact congrArg (place :: ·) ih
      | null | bool _ | int _ | float _ | arr _ | obj _ => exact ih

theorem mem_placed_iff {index : Params} (distinct : Table.Distinct index) {name place : String} :
    (name, place) ∈ placed index ↔ Table.get? index name = some (.str place) := by
  rw [Table.get?_eq_some_iff distinct, placed, List.mem_filterMap]
  constructor
  · rintro ⟨⟨key, value⟩, mem, found⟩
    cases value with
    | str text =>
        cases found
        exact mem
    | null | bool _ | int _ | float _ | arr _ | obj _ => cases found
  · intro mem
    exact ⟨_, mem, rfl⟩

/-! ### Entries at places -/

section

variable {r : Registry} {c e : Entry} {path : Path} {paths : List Path} {es : List Entry}
  {own index : Params} {name place : String} {fields : List (String × String)} {w w' w'' : World}

theorem byPath_again (found : byPath path w = .ok e w') (later : w'.Recalls w'') :
    byPath path w'' = .ok e w'' := by
  refine byPath_of_known (later.path _ _ ?_)
  cases known : Table.get? w.byPath path.normalize.components with
  | some x =>
      rw [byPath_of_known known] at found
      cases found
      exact known
  | none =>
      rw [byPath_of_unknown known] at found
      cases found
      exact known_enroll w _ _

theorem exists_byPath (paths : List Path) (w : World) : ∃ es w', paths.mapM byPath w = .ok es w' := by
  have never : Fails (fun _ => False) (paths.mapM byPath) := Fails.mapM byPath_fails paths
  cases found : paths.mapM byPath w with
  | ok es w' => exact ⟨es, w', rfl⟩
  | error err w' => exact (never w err w' found).elim

/-- Places that have led to entries, one after the other, lead there from then on. -/
theorem mapM_byPath (sound : w.Sound) (found : paths.mapM byPath w = .ok es w') :
    Extends id w w' ∧ (∀ path ∈ paths, ∃ e ∈ es, byPath path w' = .ok e w') ∧
      ∀ e ∈ es, ∃ path ∈ paths, byPath path w' = .ok e w' := by
  induction paths generalizing w es with
  | nil =>
      cases found
      exact ⟨(extends_course id).refl _, nofun, nofun⟩
  | cons path paths ih =>
      rw [List.mapM_cons] at found
      obtain ⟨first, w₁, here, found⟩ := bind_eq_ok_iff.mp found
      obtain ⟨rest, w₂, later, found⟩ := bind_eq_ok_iff.mp found
      cases found
      obtain ⟨step, sound₁, -⟩ := (byPath_along path).of_ok sound trivial here
      obtain ⟨steps, leads, led⟩ := ih sound₁ later
      have again : byPath path w' = .ok first w' := byPath_again here steps.recalls
      refine ⟨(extends_course id).trans step steps, ?_, ?_⟩
      · refine List.forall_mem_cons.mpr ⟨⟨first, List.mem_cons_self, again⟩, fun p mem => ?_⟩
        obtain ⟨e, listed, leads⟩ := leads p mem
        exact ⟨e, List.mem_cons_of_mem _ listed, leads⟩
      · refine List.forall_mem_cons.mpr ⟨⟨path, List.mem_cons_self, again⟩, fun e mem => ?_⟩
        obtain ⟨p, place, leads⟩ := led e mem
        exact ⟨p, List.mem_cons_of_mem _ place, leads⟩

/-! ### Names of an index -/

theorem indexed_of_place (known : (w.cellsOf c).own = some own)
    (listed : Table.get? (indexOf own) name = some (.str place)) :
    r.indexed c name w = (byPath (c.path.join place) >>= fun e => pure (some e)) w := by
  rw [Registry.indexed, bind_of_ok (own_of_known r known), listed]
  rfl

/-- A name leads to an entry only if it has a place. -/
theorem place_of_indexed (known : (w.cellsOf c).own = some own)
    (found : r.indexed c name w = .ok (some e) w') :
    ∃ place, Table.get? (indexOf own) name = some (.str place) ∧
      byPath (c.path.join place) w = .ok e w' := by
  rw [Registry.indexed, bind_of_ok (own_of_known r known)] at found
  cases listed : (Table.get? (indexOf own) name).bind Json.str? with
  | none =>
      rw [listed] at found
      cases found
  | some place =>
      rw [listed] at found
      obtain ⟨value, held, text⟩ := Option.bind_eq_some_iff.mp listed
      obtain ⟨e', w₁, here, last⟩ := bind_eq_ok_iff.mp found
      cases last
      cases value with
      | str _ =>
          cases text
          exact ⟨place, held, here⟩
      | null | bool _ | int _ | float _ | arr _ | obj _ => cases text

/-- Names are looked up as their places are. -/
theorem mapM_indexed (sound : w.Sound) (known : (w.cellsOf c).own = some own)
    (listed : ∀ field ∈ fields, Table.get? (indexOf own) field.1 = some (.str field.2))
    (found : (fields.map fun field => c.path.join field.2).mapM byPath w = .ok es w') :
    (fields.map Prod.fst).mapM (r.indexed c) w = .ok (es.map some) w' := by
  induction fields generalizing w es with
  | nil =>
      cases found
      rfl
  | cons field fields ih =>
      obtain ⟨first, others⟩ := List.forall_mem_cons.mp listed
      rw [List.map_cons, List.mapM_cons] at found ⊢
      obtain ⟨e, w₁, here, found⟩ := bind_eq_ok_iff.mp found
      obtain ⟨rest, w₂, later, found⟩ := bind_eq_ok_iff.mp found
      cases found
      obtain ⟨step, sound₁, -⟩ := (byPath_along _).of_ok sound trivial here
      have leads : r.indexed c field.1 w = .ok (some e) w₁ := by
        rw [indexed_of_place known first, bind_of_ok here]
        rfl
      rw [bind_of_ok leads, bind_of_ok (ih sound₁ ((step.kept c).own own known) others later)]
      rfl

end

/-! ### Calls of the collection -/

section

variable {r : Registry} {c e : Entry} {ns : Namespace} {op : Operation}
  {method name : String} {view own : Params} {es : List Entry} {w w₁ w₂ w₃ : World}

theorem reach_of_offered (offers : r.operations c w = .ok (some ns) w₁)
    (found : ns.get? method = some op) : r.reach c method w = .ok ⟨op, c, [c.name]⟩ w₁ :=
  loop_of_some (run_of_inr (reachRound_of_found offers found))

theorem realizes_allEntries (r : Registry) (call : Call) : r.Realizes (allEntries.body call) do
    let es ← (sites call.entry (((call.args.get? indexKey).bind Json.obj?).getD [])).mapM byPath
    return .list (es.map .entry) := by
  have sited (index : Params) : (sites call.entry index).mapM byPath =
      ((placed index).map Prod.snd).mapM fun place => byPath (call.entry.path.join place) := by
    rw [sites, List.mapM_map, List.mapM_map]
    rfl
  refine Realizes.bind ?_ fun es => .done _
  rw [values_eq_placed, sited]
  exact .mapM (fun place => .request (.byPath (call.entry.path.join place))) _

/-- What is not given by position, the body of an operation gets from the merged view. -/
theorem invoke_offered (offers : r.operations c w = .ok (some ns) w₁)
    (found : ns.get? method = some op) (merges : r.merged c w₁ = .ok view w₂)
    (positional : List Json) (declared : op.shape.declared.Nodup) (fits : op.shape.Fits positional)
    (full : ∀ supplied, op.shape.missing positional supplied = []) :
    ∃ args bag, op.shape.Receives positional (supplied [] (Table.get? view)) args ∧
      r.invoke c method positional [] w =
        r.runBody op ⟨c, method, args⟩ bag w₂ := by
  have binds := call_binds r declared c method positional (get?_bag Table.distinct_nil view) w₂
  obtain ⟨args, bag, receives, runs⟩ := binds.of_complete fits (full _)
  exact ⟨args, bag, receives,
    (invoke_of_reach r positional [] (reach_of_offered offers found) merges).trans runs⟩

/-- The listing is made of the index in the merged view, at the places seen from the collection. -/
theorem invoke_allEntries (offers : r.operations c w = .ok (some Catalog.collection) w₁)
    (merges : r.merged c w₁ = .ok view w₂)
    (found : (sites c (indexOf view)).mapM byPath w₂ = .ok es w₃) :
    r.invoke c "all_entries" [] [] w = .ok (.list (es.map .entry)) w₃ := by
  have listing : Catalog.collection.get? "all_entries" = some allEntries := rfl
  obtain ⟨args, bag, receives, runs⟩ :=
    invoke_offered offers listing merges [] (by decide) (.inr (Nat.zero_le 1)) fun _ => rfl
  have given : ((args.get? indexKey).bind Json.obj?).getD [] = indexOf view := by
    have inherited : supplied [] (Table.get? view) indexKey = Table.get? view indexKey := rfl
    rw [receives.byName 0 indexKey rfl (Nat.le_refl 0), inherited, indexOf]
    cases Table.get? view indexKey <;> rfl
  rw [runs, runBody, (realizes_allEntries r _).run, given, bind_of_ok found]
  rfl

theorem invoke_of_unmerged (offers : r.operations c w = .ok (some ns) w₁)
    (has : ns.get? method = some op) {err : Error} (fails : r.merged c w₁ = .error err w₂)
    (positional : List Json) (named : Params) :
    r.invoke c method positional named w = .error err w₂ := by
  have found : r.dispatch c method w = .ok (.inherited ⟨op, c, [c.name]⟩) w₁ := by
    rw [dispatch, reach_of_offered offers has]
  rw [invoke_eq, bind_of_ok found]
  exact bind_of_error fails _

/-- A search from a collection ends at once where the collection has the name. -/
theorem searchFrom_of_indexed (found : r.indexed c name w = .ok (some e) w₁) :
    r.searchFrom name c [] w = .ok (some e, [c.path]) w₁ := by
  have visits : r.visit name c [] [] w = .ok (.found e [c.path]) w₁ := by
    rw [visit, bind_of_ok found]
    rfl
  have pursues : r.pursue name (.collection c) [] [] w = .ok (.found e [c.path]) w₁ := visits
  rw [searchFrom, search, explore, pursues]
  rfl

/-- What looking a name up answers, as a search has found an entry or none. -/
def answerOf (name : String) : Option Entry → Except Error Outcome
  | some e => .ok (.entry e)
  | none => .error (.entryNotFound name)

theorem realizes_byName {call : Call} (given : call.args.requireText "entry_name" = .ok name) :
    r.Realizes (byName.body call)
      (r.answer (.searchIn name call.entry) >>= fun found => Script.known (answerOf name found)) := by
  have body : byName.body call = (Script.searchIn name call.entry >>= fun found =>
      Script.ofOption (.entryNotFound name) found >>= fun e => pure (.entry e)) := by
    simp only [byName, given]
    rfl
  rw [body]
  refine .request_bind fun found => ?_
  cases (found : Option Entry) with
  | none => exact .fail _
  | some e => exact .done _

theorem invoke_byName {answer : Option Entry} {visited : List Path}
    (offers : r.operations c w = .ok (some Catalog.collection) w₁)
    (merges : r.merged c w₁ = .ok view w₂)
    (found : r.searchFrom name c [] w₂ = .ok (answer, visited) w₃) :
    r.invoke c "byname" [.str name] [] w = result (answerOf name answer) w₃ := by
  have lookup : Catalog.collection.get? "byname" = some byName := rfl
  obtain ⟨args, bag, receives, runs⟩ :=
    invoke_offered offers lookup merges [.str name] (by decide) (.inr (Nat.le_refl 1)) fun _ => rfl
  have given : args.requireText "entry_name" = .ok name := by
    have slot : args.get? "entry_name" = some (.str name) := receives.byPosition 0 _ rfl Nat.one_pos
    rw [Args.requireText, Args.require, slot]
    rfl
  have answered : r.answer (.searchIn name c) w₂ = .ok answer w₃ := bind_of_ok found _
  rw [runs, runBody, (realizes_byName given).run, bind_of_ok answered]
  cases answer <;> rfl

end

/-! ### Listings and lookups -/

/-- A listing in which every name with a place in an index is listed in order, as what a lookup of
the name leads to. -/
structure Lists (r : Registry) (c : Entry) (index : Params) (es : List Entry) (w w' : World) :
    Prop where
  /-- To list is to look up one name after the other. -/
  inOrder : ((placed index).map Prod.fst).mapM (r.indexed c) w = .ok (es.map some) w'
  found : ∀ e ∈ es, ∃ name, r.invoke c "byname" [.str name] [] w' = .ok (.entry e) w'
  complete : ∀ name e w'', r.indexed c name w' = .ok (some e) w'' → e ∈ es

section

variable {r : Registry} {c : Entry} {view : Params} {chain : List Entry} {es : List Entry}
  {w w₁ w₂ w₃ : World}

/-- The index that is merged is that of the collection, if it has one or nobody has. -/
theorem indexOf_merges (merges : w.Merges (c :: chain) view)
    (kept : Table.get? (w.ownOf c) indexKey ≠ none ∨
      ∀ a ∈ c :: chain, Table.get? (w.ownOf a) indexKey = none) :
    indexOf view = indexOf (w.ownOf c) := by
  have same : Table.get? view indexKey = Table.get? (w.ownOf c) indexKey := by
    rw [merges.value, List.findSome?_cons]
    cases own : Table.get? (w.ownOf c) indexKey with
    | some value => rfl
    | none =>
        rw [own] at kept
        obtain ⟨-, above⟩ := List.forall_mem_cons.mp (kept.resolve_left (absurd rfl))
        exact List.findSome?_eq_none_iff.mpr above
  rw [indexOf, same, indexOf]

/-- Where everything that is asked for is known, a listing at the places of the own index agrees with
lookups. -/
theorem lists_of_sites (sound : w.Sound) (known : (w.cellsOf c).own = some (w.ownOf c))
    (offers : (w.cellsOf c).operations = some (some Catalog.collection))
    (merges : ∀ w', Extends Cells.nothing w w' → r.merged c w' = .ok view w')
    (distinct : Table.Distinct (indexOf (w.ownOf c)))
    (found : (sites c (indexOf (w.ownOf c))).mapM Registry.byPath w = .ok es w₁) :
    Lists r c (indexOf (w.ownOf c)) es w w₁ := by
  obtain ⟨step, leads, led⟩ := mapM_byPath sound found
  have known₁ : (w₁.cellsOf c).own = some (w.ownOf c) := (step.kept c).own _ known
  have listed : ∀ field ∈ placed (indexOf (w.ownOf c)),
      Table.get? (indexOf (w.ownOf c)) field.1 = some (.str field.2) :=
    fun field mem => (mem_placed_iff distinct).mp mem
  refine ⟨mapM_indexed sound known listed found, fun e mem => ?_, fun name e w₂ indexed => ?_⟩
  · obtain ⟨path, site, here⟩ := led e mem
    obtain ⟨field, place, rfl⟩ := List.mem_map.mp site
    have indexed : r.indexed c field.1 w₁ = .ok (some e) w₁ := by
      rw [indexed_of_place known₁ (listed field place), bind_of_ok here]
      rfl
    exact ⟨field.1, invoke_byName (operations_of_known r ((step.kept c).operations _ offers))
      (merges w₁ (step.of_finer fun _ _ _ => rfl)) (searchFrom_of_indexed indexed)⟩
  · obtain ⟨place, held, here⟩ := place_of_indexed known₁ indexed
    have site : c.path.join place ∈ sites c (indexOf (w.ownOf c)) :=
      List.mem_map.mpr ⟨(name, place), (mem_placed_iff distinct).mpr held, rfl⟩
    obtain ⟨e', mem, again⟩ := leads _ site
    cases again.symm.trans here
    exact mem

/-- Listing a collection and looking names up in it agree where the collection sees its own index. What
is listed are the entries at the places of the index in the merged view, and if that does not load,
neither does the listing. The index is the own one if the collection has one or nobody in its ancestry
has. Then, if its names are told apart, each that has a place is listed in order, as what it leads to;
so every entry listed is found under some name, and every entry found in the index is listed. -/
theorem listing_agrees (session : Session r w) (held : w.Holds c)
    (offers : r.operations c w = .ok (some Catalog.collection) w₁) :
    (∀ err w₂, r.merged c w₁ = .error err w₂ →
      r.invoke c "all_entries" [] [] w = .error err w₂) ∧
    ∀ view w₂, r.merged c w₁ = .ok view w₂ →
      r.own c w₂ = .ok (w₂.ownOf c) w₂ ∧
      (∀ chain, r.ancestry c w₂ = .ok chain w₂ →
        Table.get? (w₂.ownOf c) indexKey ≠ none ∨
          (∀ a ∈ chain, Table.get? (w₂.ownOf a) indexKey = none) →
        indexOf view = indexOf (w₂.ownOf c)) ∧
      ∃ es w₃, r.invoke c "all_entries" [] [] w = .ok (.list (es.map .entry)) w₃ ∧
        (sites c (indexOf view)).mapM Registry.byPath w₂ = .ok es w₃ ∧
        (indexOf view = indexOf (w₂.ownOf c) → Table.Distinct (indexOf (w₂.ownOf c)) →
          Lists r c (indexOf (w₂.ownOf c)) es w₂ w₃) := by
  obtain ⟨step, sound₁, known⟩ := (operations_along r c).of_ok session.sound trivial offers
  have held₁ : w₁.Holds c := step.grows.holds held
  refine ⟨fun err w₂ fails => invoke_of_unmerged offers rfl fails [] [], fun view w₂ merges => ?_⟩
  obtain ⟨chain, w', ancestry, later, line, loaded, sound₂, rfl⟩ := merged_ok r sound₁ held₁ merges
  obtain ⟨more, rfl⟩ := line.head
  have own : (w₂.cellsOf c).own = some (w₂.ownOf c) := loaded c List.mem_cons_self
  obtain ⟨es, w₃, found⟩ := exists_byPath (sites c (indexOf _)) w₂
  refine ⟨own_of_known r own, ?_, es, w₃, invoke_allEntries offers merges found, found, ?_⟩
  · intro chain walked kept
    cases (ancestry_again r sound₁ held₁ ancestry later).symm.trans walked
    exact indexOf_merges (merges_of_levels sound₂ _) kept
  · intro same distinct
    have steps := ((merged_along r c).of_ok sound₁ trivial merges).1
    rw [same] at found
    exact lists_of_sites sound₂ own ((steps.kept c).operations _ (known held₁))
      (fun _ later => merged_again r sound₁ held₁ merges later) distinct found

end

/-! ### A collection below another -/

namespace Sample

def lending : Registry where
  base := ⟨"."⟩
  config := { collections := [] }
  roots := []
  catalog := .ofList [Catalog.collection]
  builtins := []

def lender : Entry := ⟨0, ⟨"lender"⟩, "lender"⟩

def heir : Entry := ⟨1, ⟨"heir"⟩, "heir"⟩

def indexing (name : String) : Params := [(indexKey, .obj [(name, .str name)])]

def lenderCells : Cells where
  own := some (indexing "x")
  parent := some none
  operations := some none

def heirCells (own : Params) : Cells where
  own := some own
  parent := some (some lender)
  operations := some (some Catalog.collection)

def lent (own : Params) : World where
  disk := ⟨[], []⟩
  cells := [lenderCells, heirCells own]

/-- The same, with an entry that was listed. -/
def listed (own : Params) (e : Entry) : World :=
  { lent own with
    cells := [lenderCells, heirCells own, {}]
    byPath := [(e.path.components, e)] }

theorem holds_heir (own : Params) : (lent own).Holds heir := by
  rw [World.Holds]
  exact Nat.lt_succ_self 1

theorem lent_session {own : Params} (distinct : Table.Distinct own) :
    Session lending (lent own) := by
  have empty : Session lending { disk := ⟨[], []⟩ } :=
    .start (show ofConfig { collections := [] } ⟨"."⟩ (.ofList [Catalog.collection]) []
      { disk := ⟨[], []⟩ } = .ok lending _ from rfl)
  have one : Session lending { disk := ⟨[], []⟩, cells := [lenderCells] } := by
    refine empty.move (.create ⟨"lender"⟩ "lender" lenderCells ?_ ?_)
    · rintro _ ⟨⟩
      rw [Table.Distinct]
      decide
    · rintro _ ⟨⟩
  refine one.move (.create ⟨"heir"⟩ "heir" (heirCells own) ?_ ?_)
  · rintro _ ⟨⟩
    exact distinct
  · rintro _ ⟨⟩
    rw [World.Holds]
    decide

section

variable {own : Params} {w : World} (nearer : w.cellsOf heir = heirCells own)
  (upper : w.cellsOf lender = lenderCells)

include nearer upper

theorem heir_ancestry : lending.ancestry heir w = .ok [heir, lender] w := by
  have line : w.Line heir [heir, lender] := .next (by rw [nearer]; rfl) (.last (by rw [upper]; rfl))
  exact ancestry_of_line _ line

theorem heir_merged : lending.merged heir w =
    .ok (Table.overlay (Table.overlay [] (indexing "x")) own) w := by
  have loaded : w.Loaded [lender, heir] := by
    refine List.forall_mem_cons.mpr ⟨?_, List.forall_mem_singleton.mpr ?_⟩
    · rw [ownOf, upper]
      rfl
    · rw [ownOf, nearer]
      rfl
  have levels := mapM_own_of_loaded lending loaded
  rw [List.map_cons, List.map_singleton, ownOf, ownOf, upper, nearer] at levels
  exact merged_of_ancestry (heir_ancestry nearer upper) levels

end

/-- The heir with an index of its own. -/
def keeping : World := lent (indexing "y")

def lentX : Entry := ⟨2, ⟨"heir/x"⟩, "x"⟩

def ownY : Entry := ⟨2, ⟨"heir/y"⟩, "y"⟩

/-- An heir with an index of its own lists that. -/
theorem heir_lists_own : Session lending keeping ∧ keeping.Holds heir ∧
    lending.operations heir keeping = .ok (some Catalog.collection) keeping ∧
    Table.get? (keeping.ownOf heir) indexKey ≠ none ∧
    Table.Distinct (indexOf (keeping.ownOf heir)) ∧
    lending.invoke heir "all_entries" [] [] keeping =
      .ok (.list [.entry ownY]) (listed (indexing "y") ownY) ∧
    Lists lending heir (indexOf (indexing "y")) [ownY] keeping (listed (indexing "y") ownY) := by
  have session : Session lending keeping := lent_session (List.nodup_singleton _)
  have offers : lending.operations heir keeping = .ok (some Catalog.collection) keeping := rfl
  have has : Table.get? (keeping.ownOf heir) indexKey ≠ none := nofun
  have once : Table.Distinct (indexOf (keeping.ownOf heir)) := List.nodup_singleton _
  obtain ⟨-, listing⟩ := listing_agrees session (holds_heir _) offers
  obtain ⟨-, kept, es, w₃, lists, found, agrees⟩ := listing _ _ (heir_merged rfl rfl)
  have sited : (sites heir (indexOf (indexing "y"))).mapM Registry.byPath keeping =
      .ok [ownY] (listed (indexing "y") ownY) := rfl
  cases sited.symm.trans found
  exact ⟨session, holds_heir _, offers, has, once, lists,
    agrees (kept _ (heir_ancestry rfl rfl) (.inl has)) once⟩

/-- An heir without one lists the index of the lender, at places of its own, and finds none of it. -/
theorem heir_lists_lent : Session lending (lent []) ∧ (lent []).Holds heir ∧
    lending.operations heir (lent []) = .ok (some Catalog.collection) (lent []) ∧
    lending.own heir (lent []) = .ok [] (lent []) ∧ placed (indexOf []) = [] ∧
    lending.invoke heir "all_entries" [] [] (lent []) =
      .ok (.list [.entry lentX]) (listed [] lentX) ∧
    lending.indexed heir "x" (listed [] lentX) = .ok none (listed [] lentX) ∧
    lending.invoke heir "byname" [.str "x"] [] (listed [] lentX) =
      .error (.entryNotFound "x") (listed [] lentX) := by
  have offers : lending.operations heir (lent []) = .ok (some Catalog.collection) (lent []) := rfl
  have sited : (sites heir (indexOf (indexing "x"))).mapM Registry.byPath (lent []) =
      .ok [lentX] (listed [] lentX) := rfl
  have lists := invoke_allEntries offers (heir_merged rfl rfl) sited
  have searched : lending.searchFrom "x" heir [] (listed [] lentX) =
      .ok (none, [heir.path]) (listed [] lentX) := by
    have pursued : lending.pursue "x" (.collection heir) [] [] (listed [] lentX) =
        .ok (.going [] [heir.path]) (listed [] lentX) := rfl
    rw [searchFrom, search, explore, pursued]
    dsimp only
    rw [explore]
    rfl
  exact ⟨lent_session Table.distinct_nil, holds_heir _, offers, rfl, rfl, lists, rfl,
    invoke_byName rfl (heir_merged rfl rfl) searched⟩

end Sample

end Collection
end Lineage
