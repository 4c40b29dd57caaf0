import Lineage.Proofs.Registry.Ancestry
import Lineage.Proofs.Registry.Session

/-!
Inheritance of parameters. The merged view of an entry is read off the own parameters along its
line of ancestors as they are now: the nearest entry that has a key decides. It is the merged view
of the parent with the own parameters laid upon it. A change of one entry is seen by those that
descend from it, as far as none nearer stands before it, and by no others.
-/
namespace Lineage

open World Action

namespace World

/-- The own parameters of an entry as far as they are loaded. -/
def ownOf (w : World) (e : Entry) : Params := (w.cellsOf e).own.getD []

theorem ownOf_of_known {w : World} {e : Entry} {params : Params}
    (h : (w.cellsOf e).own = some params) : w.ownOf e = params := by
  rw [ownOf, h]
  rfl

theorem ownOf_congr (w : World) {e x : Entry} (h : x.id = e.id) : w.ownOf x = w.ownOf e := by
  rw [ownOf, ownOf, cellsOf_congr w h]

/-- All own parameters along a chain are loaded. -/
def Loaded (w : World) (chain : List Entry) : Prop :=
  ∀ e ∈ chain, (w.cellsOf e).own = some (w.ownOf e)

/-- A merged view over a chain, nearest entry first: under each key the value of the first entry
that has it, and the keys as they first appear from the outermost entry down. -/
structure Merges (w : World) (chain : List Entry) (view : Params) : Prop where
  value : ∀ key, Table.get? view key = chain.findSome? fun e => Table.get? (w.ownOf e) key
  keys : Table.keys view = (chain.reverse.flatMap fun e => Table.keys (w.ownOf e)).eraseDups

end World

namespace Registry

/-! ### The merged view -/

theorem mapM_own_ok (r : Registry) {xs : List Entry} {tables : List Params} {w w' : World}
    (hw : w.Sound) (held : heldAll xs w) (h : xs.mapM r.own w = .ok tables w') :
    Extends Cells.nothing w w' ∧ w'.Sound ∧ tables = xs.map w'.ownOf ∧ w'.Loaded xs := by
  induction xs generalizing tables w with
  | nil =>
      cases h
      exact ⟨(extends_course _).refl _, hw, rfl, by simp [Loaded]⟩
  | cons e xs ih =>
      rw [List.mapM_cons] at h
      obtain ⟨params, w₁, ho, h⟩ := bind_eq_ok_iff.mp h
      obtain ⟨rest, w₂, hrest, h⟩ := bind_eq_ok_iff.mp h
      cases h
      obtain ⟨hr, hw₁, -, hknown⟩ := (own_extends r e).of_ok hw trivial ho
      obtain ⟨he, hxs⟩ := List.forall_mem_cons.mp held
      obtain ⟨hr', hw', rfl, hloaded⟩ := ih hw₁ (heldAll_of_grows hr.grows hxs) hrest
      have hown := (hr'.kept e).own params (hknown (hr.grows.holds he))
      refine ⟨(extends_course _).trans hr hr', hw', by rw [List.map_cons, ownOf_of_known hown], ?_⟩
      exact List.forall_mem_cons.mpr ⟨by rw [ownOf_of_known hown, hown], hloaded⟩

theorem merged_apply (r : Registry) (e : Entry) :
    r.merged e = r.ancestry e >>= fun chain =>
      chain.reverse.mapM r.own >>= fun levels => pure (levels.foldl Table.overlay []) := rfl

theorem merged_of_ancestry {r : Registry} {e : Entry} {chain : List Entry} {levels : List Params}
    {w w₁ w' : World} (h : r.ancestry e w = .ok chain w₁)
    (own : chain.reverse.mapM r.own w₁ = .ok levels w') :
    r.merged e w = .ok (levels.foldl Table.overlay []) w' := by
  rw [merged_apply, bind_of_ok h, bind_of_ok own]
  rfl

theorem distinct_ownOf {w : World} (hw : w.Sound) (e : Entry) : Table.Distinct (w.ownOf e) := by
  rw [ownOf]
  cases h : (w.cellsOf e).own with
  | none => exact Table.distinct_nil
  | some params => exact hw.own e params h

theorem merges_of_levels {w : World} (hw : w.Sound) (chain : List Entry) :
    w.Merges chain ((chain.reverse.map w.ownOf).foldl Table.overlay []) where
  value key := by
    have distinct : ∀ t ∈ chain.reverse.map w.ownOf, Table.Distinct t := by
      intro t ht
      obtain ⟨e, -, rfl⟩ := List.mem_map.mp ht
      exact distinct_ownOf hw e
    rw [Table.get?_foldl_overlay _ distinct, ← List.map_reverse, List.reverse_reverse,
      List.findSome?_map]
    rfl
  keys := by rw [Table.keys_foldl_overlay, List.flatMap_map]

/-- A merged view is taken over the ancestry of its entry, which is resolved and loaded then. -/
theorem merged_ok (r : Registry) {e : Entry} {view : Params} {w w' : World} (hw : w.Sound)
    (held : w.Holds e) (h : r.merged e w = .ok view w') :
    ∃ chain w₁, r.ancestry e w = .ok chain w₁ ∧ Extends Cells.nothing w₁ w' ∧ w'.Line e chain ∧
      w'.Loaded chain ∧ w'.Sound ∧ view = (chain.reverse.map w'.ownOf).foldl Table.overlay [] := by
  rw [merged_apply] at h
  obtain ⟨chain, w₁, hchain, h⟩ := bind_eq_ok_iff.mp h
  obtain ⟨levels, w₂, hlevels, h⟩ := bind_eq_ok_iff.mp h
  cases h
  obtain ⟨hline, hheld, -, hw₁, -⟩ := line_of_ancestry r hw held hchain
  obtain ⟨hr, hw', rfl, hloaded⟩ :=
    mapM_own_ok r hw₁ (fun x hx => hheld x (List.mem_reverse.mp hx)) hlevels
  exact ⟨chain, w₁, hchain, hr, hline.extends hr,
    fun x hx => hloaded x (List.mem_reverse.mpr hx), hw', rfl⟩

theorem mapM_own_of_loaded (r : Registry) {xs : List Entry} {w : World} (loaded : w.Loaded xs) :
    xs.mapM r.own w = .ok (xs.map w.ownOf) w := by
  induction xs with
  | nil => rfl
  | cons e xs ih =>
      obtain ⟨he, hxs⟩ := List.forall_mem_cons.mp loaded
      rw [List.mapM_cons, bind_of_ok (own_of_known r he), bind_of_ok (ih hxs)]
      rfl

/-- A view that was merged is merged again, and nothing more is found out then. -/
theorem merged_again (r : Registry) {e : Entry} {view : Params} {w w' w'' : World} (hw : w.Sound)
    (held : w.Holds e) (h : r.merged e w = .ok view w') (later : Extends Cells.nothing w' w'') :
    r.merged e w'' = .ok view w'' := by
  obtain ⟨chain, w₁, hchain, hext, -, loaded, -, rfl⟩ := merged_ok r hw held h
  have known : ∀ x ∈ chain.reverse, (w''.cellsOf x).own = some (w'.ownOf x) :=
    fun x hx => (later.kept x).own _ (loaded x (List.mem_reverse.mp hx))
  have same : chain.reverse.map w''.ownOf = chain.reverse.map w'.ownOf :=
    List.map_congr_left fun x hx => ownOf_of_known (known x hx)
  have again : w''.Loaded chain.reverse := fun x hx => by rw [known x hx, ownOf_of_known (known x hx)]
  rw [← same]
  exact merged_of_ancestry (ancestry_again r hw held hchain ((extends_course _).trans hext later))
    (mapM_own_of_loaded r again)

/-- The view of an entry is the view of its parent with its own parameters laid upon it. -/
theorem merged_of_parent (r : Registry) {e p : Entry} {view : Params} {w w₁ w' : World}
    (hw : w.Sound) (held : w.Holds e) (h : r.merged e w = .ok view w')
    (hp : r.parent e w = .ok (some p) w₁) :
    ∃ above w₂ own, r.merged p w₁ = .ok above w₂ ∧ r.own e w₂ = .ok own w' ∧
      view = Table.overlay above own := by
  rw [merged_apply] at h
  obtain ⟨chain, w₃, hchain, h⟩ := bind_eq_ok_iff.mp h
  obtain ⟨rest, rfl, hrest⟩ := ancestry_of_parent r hw held hp hchain
  rw [List.reverse_cons, List.mapM_append] at h
  obtain ⟨levels, w₄, hlevels, h⟩ := bind_eq_ok_iff.mp h
  obtain ⟨above, w₂, habove, hlevels⟩ := bind_eq_ok_iff.mp hlevels
  obtain ⟨last, w₅, hlast, hlevels⟩ := bind_eq_ok_iff.mp hlevels
  rw [List.mapM_cons, List.mapM_nil] at hlast
  obtain ⟨own, w₆, hown, hlast⟩ := bind_eq_ok_iff.mp hlast
  cases hlast
  cases hlevels
  cases h
  refine ⟨above.foldl Table.overlay [], w₂, own, ?_, hown, ?_⟩
  · rw [merged_apply, bind_of_ok hrest, bind_of_ok habove]
    rfl
  · rw [List.foldl_append]
    rfl

/-! ### Changes of own parameters -/

/-- The ways to give an entry a value under a key. -/
inductive Assigns (r : Registry) (e : Entry) (key : String) (value : Json) : Action Unit → Prop
  | set : Assigns r e key value (r.setParameter e key value)
  | update {data : Params} (distinct : Table.Distinct data)
      (h : Table.get? data key = some value) : Assigns r e key value (r.updateParameters e data)

theorem Assigns.changes {r : Registry} {e : Entry} {key : String} {value : Json}
    {act : Action Unit} (h : Assigns r e key value act) : ∃ f : Params → Params,
      act = (r.own e >>= fun params => changeCells e fun c => { c with own := some (f params) }) ∧
      (∀ params, Table.Distinct params → Table.Distinct (f params)) ∧
      ∀ params, Table.get? (f params) key = some value := by
  cases h with
  | set =>
      exact ⟨fun params => Table.insert params key value, rfl, fun _ h => h.insert key value,
        fun params => Table.get?_insert_self params key value⟩
  | @update data distinct h =>
      refine ⟨fun params => Table.overlay params data, rfl, fun _ h => h.overlay data, ?_⟩
      intro params
      rw [Table.get?_overlay params distinct, h]
      rfl

theorem Assigns.safe {r : Registry} {e : Entry} {key : String} {value : Json} {act : Action Unit}
    (h : Assigns r e key value act) : Safe act := by
  obtain ⟨f, rfl, distinct, -⟩ := h.changes
  exact changeOwn_of_own_safe r e distinct

theorem Assigns.own {r : Registry} {e : Entry} {key : String} {value : Json} {act : Action Unit}
    (h : Assigns r e key value act) {w w' : World} (hw : w.Sound) (held : w.Holds e)
    (hact : act w = .ok () w') :
    ∃ params, (w'.cellsOf e).own = some params ∧ Table.get? params key = some value := by
  obtain ⟨f, rfl, -, hf⟩ := h.changes
  obtain ⟨params, w₁, hown, hchange⟩ := bind_eq_ok_iff.mp hact
  cases hchange
  have hr := ((own_extends r e).of_ok hw trivial hown).1
  exact ⟨f params, by rw [cellsOf_setCells_self (hr.grows.holds held) rfl], hf params⟩

/-- Two worlds that differ in one entry at most. -/
structure AgreeOff (i : Nat) (w w' : World) : Prop where
  disk : w'.disk = w.disk
  length : w'.cells.length = w.cells.length
  cells : ∀ e : Entry, e.id ≠ i → w'.cellsOf e = w.cellsOf e

theorem AgreeOff.refl (i : Nat) (w : World) : AgreeOff i w w := ⟨rfl, rfl, fun _ _ => rfl⟩

theorem AgreeOff.setCells_right {i : Nat} {w w' : World} (h : AgreeOff i w w') {e : Entry}
    (he : e.id = i) (c : Cells) : AgreeOff i w (w'.setCells e c) where
  disk := h.disk
  length := by simpa [setCells] using h.length
  cells x hx := by rw [cellsOf_setCells_ne (by rwa [he]) c, h.cells x hx]

theorem AgreeOff.setCells_both {i : Nat} {w w' : World} (h : AgreeOff i w w') (e : Entry)
    (c : Cells) : AgreeOff i (w.setCells e c) (w'.setCells e c) where
  disk := h.disk
  length := by simpa [setCells] using h.length
  cells x hx := by
    have holds : w'.Holds e ↔ w.Holds e := by rw [Holds, Holds, h.length]
    by_cases he : w.Holds e
    · by_cases hxe : x.id = e.id
      · rw [cellsOf_setCells_self he hxe, cellsOf_setCells_self (holds.mpr he) hxe]
      · rw [cellsOf_setCells_ne hxe, cellsOf_setCells_ne hxe, h.cells x hx]
    · rw [setCells_of_not_holds he, setCells_of_not_holds (fun h' => he (holds.mp h')), h.cells x hx]

theorem own_agreeOff_self (r : Registry) (e : Entry) {w w' : World} {params : Params}
    (h : r.own e w = .ok params w') : AgreeOff e.id w w' := by
  rw [own_eq_once] at h
  cases hk : (w.cellsOf e).own with
  | some known =>
      rw [once_of_known (show Cells.Part.own.known (w.cellsOf e) = some known from hk)] at h
      cases h
      exact .refl _ _
  | none =>
      rw [once_of_unknown (show Cells.Part.own.known (w.cellsOf e) = none from hk)] at h
      rw [readMap_eq_mapOn] at h
      cases hd : mapOn "parameters" e r.config.parameters w.disk with
      | error err =>
          rw [hd] at h
          cases h
      | ok found =>
          rw [hd] at h
          cases h
          exact (AgreeOff.refl _ _).setCells_right rfl _

theorem Assigns.agreeOff {r : Registry} {e : Entry} {key : String} {value : Json}
    {act : Action Unit} (h : Assigns r e key value act) {w w' : World} (hact : act w = .ok () w') :
    AgreeOff e.id w w' := by
  obtain ⟨f, rfl, -, -⟩ := h.changes
  obtain ⟨params, w₁, hown, hchange⟩ := bind_eq_ok_iff.mp hact
  cases hchange
  exact (own_agreeOff_self r e hown).setCells_right rfl _

/-- Own parameters of another entry are the same in worlds that differ in one entry. -/
theorem own_agreeOff (r : Registry) {i : Nat} {w w' : World} (h : AgreeOff i w w') {e : Entry}
    (he : e.id ≠ i) : value (r.own e) w' = value (r.own e) w ∧
      AgreeOff i (after (r.own e) w) (after (r.own e) w') := by
  rw [own_eq_once]
  cases hk : (w.cellsOf e).own with
  | some known =>
      have hk : Cells.Part.own.known (w.cellsOf e) = some known := hk
      have hk' : Cells.Part.own.known (w'.cellsOf e) = some known := by rw [h.cells e he, hk]
      simp only [value, after, once_of_known hk, once_of_known hk']
      exact ⟨trivial, h⟩
  | none =>
      have hk : Cells.Part.own.known (w.cellsOf e) = none := hk
      have hk' : Cells.Part.own.known (w'.cellsOf e) = none := by rw [h.cells e he, hk]
      simp only [value, after, once_of_unknown hk, once_of_unknown hk', readMap_eq_mapOn, h.disk]
      cases mapOn "parameters" e r.config.parameters w.disk with
      | error err => exact ⟨rfl, h⟩
      | ok found =>
          refine ⟨rfl, ?_⟩
          dsimp only [result]
          rw [h.cells e he]
          exact h.setCells_both e _

theorem mapM_own_agreeOff (r : Registry) {i : Nat} {xs : List Entry} (hxs : ∀ e ∈ xs, e.id ≠ i)
    {w w' : World} (h : AgreeOff i w w') :
    value (xs.mapM r.own) w' = value (xs.mapM r.own) w := by
  induction xs generalizing w w' with
  | nil => rfl
  | cons e xs ih =>
      obtain ⟨he, hxs⟩ := List.forall_mem_cons.mp hxs
      obtain ⟨hv, ha⟩ := own_agreeOff r h he
      rw [List.mapM_cons, value_bind, value_bind, hv]
      cases value (r.own e) w with
      | error err => rfl
      | ok params =>
          dsimp only
          rw [value_bind, value_bind, ih hxs ha]
          cases value (xs.mapM r.own) (after (r.own e) w) <;> rfl

theorem Line.agreeOff {i : Nat} {w w' : World} (h : AgreeOff i w w') {e : Entry}
    {chain : List Entry} (hline : w.Line e chain) (hoff : ∀ x ∈ chain, x.id ≠ i) :
    w'.Line e chain := by
  induction hline with
  | last hp => exact .last (by rw [h.cells _ (hoff _ (by simp)), hp])
  | next hp _ ih =>
      obtain ⟨he, hoff⟩ := List.forall_mem_cons.mp hoff
      exact .next (by rw [h.cells _ he, hp]) (ih hoff)

/-- A view over a line of known parents does not see an entry that is not on the line. -/
theorem merged_agreeOff (r : Registry) {i : Nat} {e : Entry} {chain : List Entry} {w w' : World}
    (h : AgreeOff i w w') (hline : w.Line e chain) (hoff : ∀ x ∈ chain, x.id ≠ i) :
    value (r.merged e) w' = value (r.merged e) w := by
  have hwalk := ancestry_of_line r hline
  have hwalk' := ancestry_of_line r (Line.agreeOff h hline hoff)
  rw [merged_apply, value_bind, value_bind]
  obtain ⟨more, rfl⟩ := hline.head
  cases hf : follow [e] more with
  | error err =>
      rw [List.tail_cons, hf] at hwalk hwalk'
      rw [value, value, hwalk, hwalk']
      rfl
  | ok chain =>
      rw [List.tail_cons, hf] at hwalk hwalk'
      obtain ⟨rfl, -⟩ := follow_eq_ok_iff.mp hf
      rw [value, value, after, after, hwalk, hwalk']
      dsimp only [result]
      have hlevels := mapM_own_agreeOff r
        (fun x hx => hoff x (List.mem_reverse.mp hx) : ∀ x ∈ (e :: more).reverse, x.id ≠ i) h
      rw [value_bind, value_bind, show [e] ++ more = e :: more from rfl, hlevels]
      cases value ((e :: more).reverse.mapM r.own) w <;> rfl

theorem parameter_of_ancestor (r : Registry) {d a x : Entry} {key : String} {value : Json}
    {params view : Params} {near far : List Entry} {w w' : World} (hw : w.Sound) (held : w.Holds d)
    (hown : (w.cellsOf a).own = some params) (hvalue : Table.get? params key = some value)
    (h : r.merged d w = .ok view w') (hline : r.ancestry d w' = .ok (near ++ x :: far) w')
    (hx : x.id = a.id) (hnear : ∀ y ∈ near, Table.get? (w'.ownOf y) key = none) :
    r.parameter d key w = .ok (some value) w' := by
  obtain ⟨chain, w₁, hchain, hext, -, -, hw', rfl⟩ := merged_ok r hw held h
  obtain rfl : chain = near ++ x :: far := by
    have again := (ancestry_again r hw held hchain hext).symm.trans hline
    injection again
  have hkept := ((line_of_ancestry r hw held hchain).2.2.1.kept a).trans (hext.kept a)
  have hfound : Table.get? (w'.ownOf x) key = some value := by
    rw [ownOf_congr w' hx, ownOf_of_known (hkept.own params hown), hvalue]
  have hget := (merges_of_levels hw' (near ++ x :: far)).value key
  rw [List.findSome?_append, List.findSome?_eq_none_iff.mpr hnear, List.findSome?_cons,
    hfound] at hget
  rw [parameter, bind_of_ok h, hget]
  rfl

/-! ### The main statement -/

/-- Parameters are inherited from the nearest entry, over the state as it is. What is merged for an
entry is the overlay of its ancestry, resolved and loaded; a value given to an entry is the one that
its descendants find, but for a nearer one; and no entry with another line of ancestors notices. -/
theorem inheritance_nearest_wins {r : Registry} {w : World} (session : Session r w) :
    (∀ e view w', w.Holds e → r.merged e w = .ok view w' →
      ∃ chain, (∃ w₁, r.ancestry e w = .ok chain w₁) ∧ r.ancestry e w' = .ok chain w' ∧
        (∀ x ∈ chain, r.own x w' = .ok (w'.ownOf x) w') ∧ w'.Merges chain view ∧
        ∀ p w₁, r.parent e w = .ok (some p) w₁ → ∃ above w₂ own, r.merged p w₁ = .ok above w₂ ∧
          r.own e w₂ = .ok own w' ∧ view = Table.overlay above own) ∧
    ∀ a key value act w₁, w.Holds a → Assigns r a key value act → act w = .ok () w₁ →
      (∀ d view w₂ near x far, w₁.Holds d → r.merged d w₁ = .ok view w₂ →
        r.ancestry d w₂ = .ok (near ++ x :: far) w₂ → x.id = a.id →
        (∀ y ∈ near, Table.get? (w₂.ownOf y) key = none) →
        r.parameter d key w₁ = .ok (some value) w₂) ∧
      ∀ d chain, w.Line d chain → (∀ x ∈ chain, x.id ≠ a.id) →
        Action.value (r.merged d) w₁ = Action.value (r.merged d) w := by
  have hw := session.sound
  constructor
  · intro e view w' held h
    obtain ⟨chain, w₁, hchain, hext, -, hloaded, hw', rfl⟩ := merged_ok r hw held h
    exact ⟨chain, ⟨w₁, hchain⟩, ancestry_again r hw held hchain hext,
      fun x hx => own_of_known r (hloaded x hx), merges_of_levels hw' chain,
      fun p w₁ hp => merged_of_parent r hw held h hp⟩
  · intro a key value act w₁ held hassigns hact
    have hw₁ := (hassigns.safe.of_ok hw trivial hact).2.1
    obtain ⟨params, hown, hvalue⟩ := hassigns.own hw held hact
    constructor
    · intro d view w₂ near x far hd h hline hx hnear
      exact parameter_of_ancestor r hw₁ hd hown hvalue h hline hx hnear
    · intro d chain hline hoff
      exact merged_agreeOff r (hassigns.agreeOff hact) hline hoff

/-- The lower entry of the sample inherits what it has not itself, also after a change. -/
theorem lower_inherits : Session Sample.registry Sample.world ∧
    (∃ chain, Sample.registry.ancestry Sample.lower Sample.world = .ok chain Sample.world ∧
      Sample.world.Merges chain [("alpha", .int 1), ("beta", .int 2)]) ∧
    let changed := after (Sample.registry.setParameter Sample.upper "alpha" (.int 7)) Sample.world
    Sample.registry.parameter Sample.lower "alpha" changed = .ok (some (.int 7)) changed := by
  obtain ⟨view, change⟩ := inheritance_nearest_wins Sample.session
  have ancestry {w : World} (lower : (w.cellsOf Sample.lower).parent = some (some Sample.upper))
      (upper : (w.cellsOf Sample.upper).parent = some none) :
      Sample.registry.ancestry Sample.lower w = .ok [Sample.lower, Sample.upper] w :=
    ancestry_of_line Sample.registry (.next lower (.last upper))
  refine ⟨Sample.session, ?_, ?_⟩
  · obtain ⟨chain, -, hchain, -, hview, -⟩ := view Sample.lower _ Sample.world Sample.holds_lower
      (merged_of_ancestry (ancestry rfl rfl) rfl)
    exact ⟨chain, hchain, hview⟩
  · intro changed
    have seen := (change Sample.upper "alpha" (.int 7) _ _ Sample.holds_upper .set rfl).1
    have own : [Sample.upper, Sample.lower].mapM Sample.registry.own changed =
        .ok [[("alpha", .int 7), ("beta", .int 1)], [("beta", .int 2)]] changed := rfl
    refine seen Sample.lower _ _ [Sample.lower] Sample.upper [] ?_
      (merged_of_ancestry (ancestry rfl rfl) own) (ancestry rfl rfl) rfl ?_
    · rw [World.Holds]
      decide
    · intro y hy
      obtain rfl := List.mem_singleton.mp hy
      rfl

end Registry
end Lineage
