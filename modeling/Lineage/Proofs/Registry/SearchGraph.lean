import Lineage.Proofs.DepthFirst
import Lineage.Proofs.Registry.Lookups

/-!
The graph that a search goes through. Its vertices are the places of collections, its edges what
their search paths lead to. A search may load collections and make entries on its way, but the graph
stays as it is.
-/
namespace Lineage

open World Action DepthFirst

namespace World

/-- The entry that a path leads to: the one known there, else the one that would be made. -/
def entryAt (w : World) (p : Path) : Entry :=
  (Table.get? w.byPath p.normalize.components).getD
    ⟨w.cells.length, p.normalize, Entry.nameOf p.normalize⟩

theorem entryAt_of_known {w : World} (hw : w.Canonical) {c : Entry} (h : w.Known c) :
    w.entryAt c.path = c := by
  rw [entryAt, hw.normal h, h]
  rfl

theorem entryAt_cases {w : World} (hw : w.Canonical) (p : Path) : w.Known (w.entryAt p) ∨
    Table.get? w.byPath p.normalize.components = none ∧
      w.entryAt p = ⟨w.cells.length, p.normalize, Entry.nameOf p.normalize⟩ := by
  rw [entryAt]
  cases h : Table.get? w.byPath p.normalize.components with
  | none => exact .inr ⟨rfl, rfl⟩
  | some e =>
      obtain ⟨hplace, -⟩ := hw.place _ _ h
      rw [hplace] at h
      exact .inl h

theorem path_entryAt {w : World} (hw : w.Canonical) (p : Path) :
    (w.entryAt p).path = p.normalize := by
  rw [entryAt]
  cases h : Table.get? w.byPath p.normalize.components with
  | none => rfl
  | some e =>
      obtain ⟨hplace, hnormal⟩ := hw.place _ _ h
      exact Path.eq_of_components hnormal (Path.normalize_normalize p) hplace.symm

end World

namespace Registry

/-! ### The graph -/

/-- The own parameters of the collection at a place: as they are loaded, else as the disk has them. -/
def ownAt (r : Registry) (w : World) (p : Path) : Except Error Params :=
  match (w.cellsOf (w.entryAt p)).own with
  | some params => .ok params
  | none => mapOn "parameters" (w.entryAt p) r.config.parameters w.disk

def Loads (r : Registry) (w : World) (p : Path) : Prop := ∃ params, r.ownAt w p = .ok params

/-- None of a collection that does not load. -/
def loadedAt (r : Registry) (w : World) (p : Path) : Params :=
  match r.ownAt w p with
  | .ok params => params
  | .error _ => []

/-- The place that the index of a collection has under a name. -/
def indexPlace (r : Registry) (w : World) (name : String) (p : Path) : Option Path :=
  ((Table.get? (indexOf (r.loadedAt w p)) name).bind Json.str?).map fun place =>
    (p.join place).normalize

/-- The place that an item of the search path of a collection leads to. -/
def itemPlace (r : Registry) (w : World) (p : Path) (item : String) : Option Path :=
  if item.toList.contains '/' then some (p.join item).normalize
  else (r.indexPlace w item p).or ((Table.get? w.byName item).map Entry.path)

/-- The places that the search path of a collection leads to, in order. -/
def neighbours (r : Registry) (w : World) (p : Path) : List Path :=
  (searchItems (r.loadedAt w p)).filterMap (r.itemPlace w p)

/-- Whether the collection at a place has a name in its index. -/
def lists (r : Registry) (w : World) (name : String) (p : Path) : Bool :=
  (r.indexPlace w name p).isSome

/-- A world in which the graph is the same and nothing known is forgotten. -/
structure SameGraph (r : Registry) (w w' : World) : Prop where
  own : ∀ p, r.ownAt w' p = r.ownAt w p
  name : w'.byName = w.byName
  sound : w'.Sound
  canonical : w'.Canonical
  recalls : w.Recalls w'
  loaded : ∀ e params, (w.cellsOf e).own = some params → (w'.cellsOf e).own = some params

variable {r : Registry} {w w' : World}

theorem ownAt_congr {p : Path} (disk : w'.disk = w.disk)
    (path : (w'.entryAt p).path = (w.entryAt p).path)
    (own : (w'.cellsOf (w'.entryAt p)).own = (w.cellsOf (w.entryAt p)).own) :
    r.ownAt w' p = r.ownAt w p := by
  rw [ownAt, ownAt, own, disk]
  have read : mapOn "parameters" (w'.entryAt p) r.config.parameters w.disk
      = mapOn "parameters" (w.entryAt p) r.config.parameters w.disk := by
    rw [mapOn, mapOn, Entry.filePath, Entry.filePath, path]
  rw [read]

namespace SameGraph

theorem refl (sound : w.Sound) (canonical : w.Canonical) : SameGraph r w w :=
  ⟨fun _ => rfl, rfl, sound, canonical, recalls_course.refl w, fun _ _ h => h⟩

theorem trans {w'' : World} (h : SameGraph r w w') (h' : SameGraph r w' w'') :
    SameGraph r w w'' where
  own p := (h'.own p).trans (h.own p)
  name := h'.name.trans h.name
  sound := h'.sound
  canonical := h'.canonical
  recalls := recalls_course.trans h.recalls h'.recalls
  loaded e params hp := h'.loaded e params (h.loaded e params hp)

theorem loads (h : SameGraph r w w') {p : Path} : r.Loads w' p ↔ r.Loads w p := by
  rw [Loads, Loads, h.own]

theorem loadedAt (h : SameGraph r w w') (p : Path) : r.loadedAt w' p = r.loadedAt w p := by
  rw [Registry.loadedAt, Registry.loadedAt, h.own]

theorem indexPlace (h : SameGraph r w w') (name : String) (p : Path) :
    r.indexPlace w' name p = r.indexPlace w name p := by
  rw [Registry.indexPlace, Registry.indexPlace, h.loadedAt]

theorem itemPlace (h : SameGraph r w w') (p : Path) (item : String) :
    r.itemPlace w' p item = r.itemPlace w p item := by
  rw [Registry.itemPlace, Registry.itemPlace, h.indexPlace, h.name]

end SameGraph

/-! ### Lookups -/

theorem ownAt_setCells (sound : w.Sound) (canonical : w.Canonical) {c : Entry} (known : w.Known c)
    {params : Params} (unloaded : (w.cellsOf c).own = none)
    (h : mapOn "parameters" c r.config.parameters w.disk = .ok params) (p : Path) :
    r.ownAt (w.setCells c { w.cellsOf c with own := some params }) p = r.ownAt w p := by
  have held := sound.holds_of_known known
  have entry : (w.setCells c { w.cellsOf c with own := some params }).entryAt p = w.entryAt p := by
    simp [entryAt, setCells]
  by_cases hid : (w.entryAt p).id = c.id
  · have same : w.entryAt p = c := by
      rcases entryAt_cases canonical p with hp | ⟨-, hp⟩
      · exact canonical.alone _ _ hp known hid
      · rw [hp] at hid
        exact absurd hid.symm (Nat.ne_of_lt held)
    rw [ownAt, ownAt, entry, same, cellsOf_setCells_self held rfl, unloaded]
    exact h.symm
  · refine ownAt_congr rfl (by rw [entry]) ?_
    rw [entry, cellsOf_setCells_ne hid]

theorem ownAt_enroll {p : Path}
    (new : Table.get? w.byPath p.normalize.components = none) (q : Path) :
    r.ownAt (w.enroll p.normalize (Entry.nameOf p.normalize)) q = r.ownAt w q := by
  by_cases hq : p.normalize.components = q.normalize.components
  · have same : p.normalize = q.normalize :=
      Path.eq_of_components p.normalize_normalize q.normalize_normalize hq
    have entry : (w.enroll p.normalize (Entry.nameOf p.normalize)).entryAt q = w.entryAt q := by
      rw [entryAt, entryAt, ← same, new, World.enroll, Table.get?_insert_self]
      rfl
    exact ownAt_congr rfl (by rw [entry]) (by rw [entry, cellsOf_enroll])
  · have table : Table.get? (w.enroll p.normalize (Entry.nameOf p.normalize)).byPath
        q.normalize.components = Table.get? w.byPath q.normalize.components := by
      rw [World.enroll, Table.get?_insert, if_neg hq]
    cases h : Table.get? w.byPath q.normalize.components with
    | some e =>
        have entry : (w.enroll p.normalize (Entry.nameOf p.normalize)).entryAt q = w.entryAt q := by
          rw [entryAt, entryAt, table, h]
          rfl
        exact ownAt_congr rfl (by rw [entry]) (by rw [entry, cellsOf_enroll])
    | none =>
        -- The entry that would be made at the other place gets another number, but has no cells yet.
        have blank {w : World} (h : Table.get? w.byPath q.normalize.components = none) :
            w.entryAt q = ⟨w.cells.length, q.normalize, Entry.nameOf q.normalize⟩ ∧
              w.cellsOf (w.entryAt q) = {} := by
          have entry : w.entryAt q = ⟨w.cells.length, q.normalize, Entry.nameOf q.normalize⟩ := by
            rw [entryAt, h]
            rfl
          exact ⟨entry, cellsOf_of_not_holds (by rw [entry]; exact Nat.lt_irrefl _)⟩
        obtain ⟨entry, cells⟩ := blank h
        obtain ⟨entry', cells'⟩ := blank (table.trans h)
        exact ownAt_congr rfl (by rw [entry, entry']) (by rw [cells, cells'])

/-- To load the own parameters of a collection changes nothing that can be seen of the graph. -/
theorem own_same (sound : w.Sound) (canonical : w.Canonical) {c : Entry} (known : w.Known c)
    {params : Params} (h : r.ownAt w c.path = .ok params) :
    ∃ w', r.own c w = .ok params w' ∧ SameGraph r w w' ∧ (w'.cellsOf c).own = some params := by
  rw [ownAt, entryAt_of_known canonical known] at h
  rw [own_apply]
  cases hc : (w.cellsOf c).own with
  | some found =>
      rw [hc] at h
      cases h
      exact ⟨w, rfl, .refl sound canonical, hc⟩
  | none =>
      rw [hc] at h
      dsimp only at h ⊢
      rw [h]
      have held := sound.holds_of_known known
      have distinct : Table.Distinct params := by
        have hr := (readMap_along "parameters" c r.config.parameters).of_ok sound trivial
          (show readMap "parameters" c r.config.parameters w = .ok params w by
            rw [readMap_eq_mapOn, h]
            rfl)
        exact hr.2.2
      refine ⟨_, rfl, ⟨fun p => ?_, rfl, ?_, ?_, recalls_of_tables rfl rfl, fun e own he => ?_⟩, ?_⟩
      · exact ownAt_setCells sound canonical known hc h p
      · exact sound.setCells c (fun _ hp => Option.some.inj hp ▸ distinct) fun p hp => sound.parent c p hp
      · exact canonical.of_tables rfl rfl
      · rcases cellsOf_setCells_cases w c e { w.cellsOf c with own := some params } with ⟨hid, -⟩ | he'
        · rw [cellsOf_congr w hid, hc] at he
          cases he
        · rw [he', he]
      · rw [cellsOf_setCells_self held rfl]

theorem byPath_same (sound : w.Sound) (canonical : w.Canonical) (p : Path) :
    ∃ e w', byPath p w = .ok e w' ∧ e.path = p.normalize ∧ w'.Known e ∧ SameGraph r w w' := by
  rcases entryAt_cases canonical p with known | ⟨new, -⟩
  · have path := path_entryAt canonical p
    refine ⟨w.entryAt p, w, byPath_of_known ?_, path, known, .refl sound canonical⟩
    rw [← path]
    exact known
  · refine ⟨_, _, byPath_of_unknown new, rfl, known_enroll w _ _,
      ⟨fun q => ?_, rfl, ?_, ?_, ?_, fun e params he => ?_⟩⟩
    · exact ownAt_enroll new q
    · exact sound.enroll _ _
    · exact canonical.enroll sound p.normalize_normalize new _
    · exact recalls_enroll new _
    · rw [cellsOf_enroll, he]

theorem loadedAt_of_ok {p : Path} {params : Params} (h : r.ownAt w p = .ok params) :
    r.loadedAt w p = params := by
  rw [loadedAt, h]

/-- The index of a loaded collection has an entry that is known under a name. -/
def Indexes (w : World) (c : Entry) (name : String) (e : Entry) : Prop :=
  ∃ params place, (w.cellsOf c).own = some params ∧
    (Table.get? (indexOf params) name).bind Json.str? = some place ∧
    Table.get? w.byPath (c.filePath place).normalize.components = some e

theorem indexed_of_indexes {c e : Entry} {name : String} (h : Indexes w c name e) :
    r.indexed c name w = .ok (some e) w := by
  obtain ⟨params, place, hown, hplace, he⟩ := h
  have own : r.own c w = .ok params w := by rw [own_apply, hown]
  rw [indexed, bind_of_ok own, hplace]
  dsimp only
  rw [bind_of_ok (byPath_of_known he)]
  rfl

/-- A lookup in an index finds the entry at the place that the index has, which is known then. -/
theorem indexed_same (sound : w.Sound) (canonical : w.Canonical) {c : Entry} (known : w.Known c)
    (loads : r.Loads w c.path) (name : String) :
    ∃ found w', r.indexed c name w = .ok found w' ∧ SameGraph r w w' ∧
      found.map Entry.path = r.indexPlace w name c.path ∧
      ∀ e ∈ found, w'.Known e ∧ Indexes w' c name e := by
  obtain ⟨params, h⟩ := loads
  obtain ⟨w₁, hown, same, cell⟩ := own_same sound canonical known h
  rw [indexed, bind_of_ok hown, indexPlace, loadedAt_of_ok h]
  cases hp : (Table.get? (indexOf params) name).bind Json.str? with
  | none => exact ⟨none, w₁, rfl, same, rfl, fun e he => nomatch he⟩
  | some place =>
      obtain ⟨e, w₂, hpath, path, known', same'⟩ :=
        byPath_same (r := r) same.sound same.canonical (c.filePath place)
      refine ⟨some e, w₂, bind_of_ok hpath _, same.trans same', ?_, fun x hx => ?_⟩
      · rw [Option.map_some, Option.map_some, path]
        rfl
      · cases hx
        refine ⟨known', params, place, same'.loaded c params cell, hp, ?_⟩
        rw [← path]
        exact known'

theorem searched_same (sound : w.Sound) (canonical : w.Canonical) {c : Entry} (known : w.Known c)
    (loads : r.Loads w c.path) (item : String) :
    ∃ found w', r.searched c item w = .ok found w' ∧ SameGraph r w w' ∧
      found.map Entry.path = r.itemPlace w c.path item ∧ ∀ e ∈ found, w'.Known e := by
  rw [searched, itemPlace]
  split
  · obtain ⟨e, w', hpath, path, known', same⟩ :=
      byPath_same (r := r) sound canonical (c.filePath item)
    refine ⟨some e, w', bind_of_ok hpath _, same, ?_, fun x hx => ?_⟩
    · rw [Option.map_some, path]
      rfl
    · cases hx
      exact known'
  · obtain ⟨found, w', hindexed, same, place, knownIfAny⟩ :=
      indexed_same sound canonical known loads item
    rw [bind_of_ok hindexed, ← place]
    cases found with
    | some e => exact ⟨some e, w', rfl, same, rfl, fun x hx => (knownIfAny x hx).1⟩
    | none =>
        refine ⟨_, w', cached_apply item w', same, ?_, fun e he => same.canonical.name item e he⟩
        rw [same.name]
        rfl

/-! ### Leads -/

/-- A lead that can be followed. -/
def Lead.Open (r : Registry) (w : World) : Lead → Prop
  | .collection c => w.Known c
  | .item c _ => w.Known c ∧ r.Loads w c.path

/-- The place that a lead leads to. -/
def Lead.place (r : Registry) (w : World) : Lead → Option Path
  | .collection c => some c.path
  | .item c text => r.itemPlace w c.path text

theorem SameGraph.lead (h : SameGraph r w w') {lead : Lead} (hl : lead.Open r w) :
    lead.Open r w' := by
  cases lead with
  | collection c => exact h.recalls.known hl
  | item c text => exact ⟨h.recalls.known hl.1, h.loads.mpr hl.2⟩

theorem SameGraph.place (h : SameGraph r w w') : Lead.place r w' = Lead.place r w := by
  funext lead
  cases lead with
  | collection c => rfl
  | item c text => exact h.itemPlace c.path text

theorem leadsTo_same (sound : w.Sound) (canonical : w.Canonical) {lead : Lead}
    (hl : lead.Open r w) :
    ∃ found w', r.leadsTo lead w = .ok found w' ∧ SameGraph r w w' ∧
      found.map Entry.path = lead.place r w ∧ ∀ e ∈ found, w'.Known e := by
  cases lead with
  | collection c =>
      exact ⟨some c, w, rfl, .refl sound canonical, rfl, fun e he => Option.some.inj he ▸ hl⟩
  | item c text => exact searched_same sound canonical hl.1 hl.2 text

end Registry
end Lineage
