import Lineage.Proofs.Disk.Replace
import Lineage.Proofs.Registry.Ancestry
import Lineage.Proofs.Registry.Roots
import Lineage.Proofs.Registry.Search

/-!
Name resolution and earlier lookups. Lookups load nothing but what the documents hold, and two worlds
that only lookups have changed answer a search alike as long as its leads lead to the same places. One
kind of lead may come to lead further: an item of a search path that is no path, stands in no index
and was no name at first, once an entry of its name has been found. As long as none of these has been
found, names are resolved as on the fresh registry.
-/
namespace Lineage

open World Action DepthFirst

/-- Who is not known by now was not known before. -/
theorem World.Recalls.unknown {w w' : World} (h : w.Recalls w') {name : String}
    (unknown : Table.get? w'.byName name = none) : Table.get? w.byName name = none := by
  cases known : Table.get? w.byName name with
  | none => rfl
  | some e =>
      rw [h.name name e known] at unknown
      cases unknown

namespace Registry

variable {r : Registry} {w w' w₁ w₁' : World} {name : String}

/-! ### Worlds that only lookups have changed -/

/-- Whom a search can come by: the roots, and who is known by path or by name. -/
def Comes (r : Registry) (w : World) (e : Entry) : Prop := e ∈ r.roots ∨ w.Listed e

/-- Whoever can be come by has a normal path, shares a number with nobody elsewhere, and has loaded
nothing but what the document there holds. -/
structure Unspoilt (r : Registry) (w : World) : Prop where
  sound : w.Sound
  held : ∀ root ∈ r.roots, w.Holds root
  placed : ∀ place e, Table.get? w.byPath place = some e → place = e.path.components
  normal : ∀ e, r.Comes w e → e.path.normalize = e.path
  alone : ∀ e e', r.Comes w e → r.Comes w e' → e.id = e'.id → e.path = e'.path
  loaded : ∀ e params, r.Comes w e → (w.cellsOf e).own = some params →
    mapOn "parameters" e r.config.parameters w.disk = .ok params

theorem mapOn_congr {e e' : Entry} (path : e.path = e'.path) (what : String) (place : DocumentPlace)
    (d : Disk) : mapOn what e place d = mapOn what e' place d := by
  rw [mapOn, mapOn, Entry.filePath, Entry.filePath, path]

namespace Unspoilt

theorem holds (h : r.Unspoilt w) {e : Entry} (met : r.Comes w e) : w.Holds e :=
  met.elim (h.held e) h.sound.holds_of_listed

theorem path_of_placed (h : r.Unspoilt w) {p : Path} {e : Entry}
    (placed : Table.get? w.byPath p.normalize.components = some e) : e.path = p.normalize :=
  Path.eq_of_components (h.normal e (.inr (.inl ⟨_, placed⟩))) p.normalize_normalize
    (h.placed _ _ placed).symm

/-- What is loaded at a place is what the document there holds. -/
theorem ownAt_eq (h : r.Unspoilt w) (p : Path) :
    r.ownAt w p = mapOn "parameters" ⟨0, p.normalize, ""⟩ r.config.parameters w.disk := by
  rw [ownAt, entryAt]
  cases there : Table.get? w.byPath p.normalize.components with
  | some e =>
      have path : e.path = Entry.path ⟨0, p.normalize, ""⟩ := h.path_of_placed there
      rw [Option.getD_some, ← mapOn_congr path]
      cases own : (w.cellsOf e).own with
      | some params => exact (h.loaded e params (.inr (.inl ⟨_, there⟩)) own).symm
      | none => rfl
  | none =>
      rw [Option.getD_none, cellsOf_of_not_holds (Nat.lt_irrefl _)]
      exact mapOn_congr rfl ..

theorem ownAt_path (h : r.Unspoilt w) {c : Entry} (met : r.Comes w c) :
    r.ownAt w c.path = mapOn "parameters" c r.config.parameters w.disk := by
  rw [h.ownAt_eq, h.normal c met]
  exact mapOn_congr rfl ..

end Unspoilt

/-- What a lookup in an unspoilt world leaves as it was. -/
structure Keeps (r : Registry) (w w' : World) : Prop where
  unspoilt : r.Unspoilt w'
  disk : w'.disk = w.disk
  recalls : w.Recalls w'
  name : w'.byName = w.byName

namespace Keeps

theorem refl (h : r.Unspoilt w) : r.Keeps w w := ⟨h, rfl, recalls_course.refl w, rfl⟩

theorem trans {w'' : World} (h : r.Keeps w w') (h' : r.Keeps w' w'') : r.Keeps w w'' :=
  ⟨h'.unspoilt, h'.disk.trans h.disk, recalls_course.trans h.recalls h'.recalls,
    h'.name.trans h.name⟩

theorem comes (h : r.Keeps w w') {e : Entry} (met : r.Comes w e) : r.Comes w' e := by
  rcases met with root | ⟨place, found⟩ | ⟨name, found⟩
  · exact .inl root
  · exact .inr (.inl ⟨place, h.recalls.path place e found⟩)
  · exact .inr (.inr ⟨name, h.recalls.name name e found⟩)

theorem ownAt (h : r.Keeps w w') (unspoilt : r.Unspoilt w) (p : Path) :
    r.ownAt w' p = r.ownAt w p := by
  rw [h.unspoilt.ownAt_eq, unspoilt.ownAt_eq, h.disk]

end Keeps

theorem own_keeps (h : r.Unspoilt w) {c : Entry} (met : r.Comes w c) :
    ∃ w', r.own c w = result (r.ownAt w c.path) w' ∧ r.Keeps w w' := by
  rw [h.ownAt_path met, own_apply]
  cases own : (w.cellsOf c).own with
  | some params =>
      rw [h.loaded c params met own]
      exact ⟨w, rfl, .refl h⟩
  | none =>
      cases read : mapOn "parameters" c r.config.parameters w.disk with
      | error err => exact ⟨w, rfl, .refl h⟩
      | ok params =>
          have distinct : Table.Distinct params :=
            ((own_along r c).of_ok h.sound trivial (by rw [own_apply, own, read])).2.2.1
          refine ⟨_, rfl, ⟨?_, ?_, h.placed, h.normal, h.alone, fun e own' hc he => ?_⟩, rfl,
            recalls_of_tables rfl rfl, rfl⟩
          · exact h.sound.setCells c (fun _ hp => Option.some.inj hp ▸ distinct)
              fun p hp => h.sound.parent c p hp
          · exact fun root hroot => holds_setCells.mpr (h.held root hroot)
          · have hc : r.Comes w e := hc
            rcases cellsOf_setCells_cases w c e { w.cellsOf c with own := some params } with
              ⟨same, cells⟩ | cells
            · rw [cells] at he
              cases he
              exact (mapOn_congr (h.alone e c hc met same) ..).trans read
            · rw [cells] at he
              exact h.loaded e own' hc he

theorem comes_enroll {place : Path} {name : String} {e : Entry}
    (h : r.Comes (w.enroll place name) e) :
    r.Comes w e ∨ e = ⟨w.cells.length, place, name⟩ := by
  rcases h with root | ⟨key, found⟩ | found
  · exact .inl (.inl root)
  · rw [World.enroll, Table.get?_insert] at found
    split at found
    · exact .inr (Option.some.inj found).symm
    · exact .inl (.inr (.inl ⟨key, found⟩))
  · exact .inl (.inr (.inr found))

theorem Unspoilt.enroll (h : r.Unspoilt w) (p : Path) (name : String) :
    r.Unspoilt (w.enroll p.normalize name) where
  sound := h.sound.enroll _ _
  held root hroot := Nat.lt_of_lt_of_le (h.held root hroot) (by simp [World.enroll])
  placed key e found := by
    rw [World.enroll, Table.get?_insert] at found
    split at found
    · rename_i hkey
      cases found
      exact hkey.symm
    · exact h.placed key e found
  normal e met := by
    rcases comes_enroll met with met | rfl
    · exact h.normal e met
    · exact p.normalize_normalize
  alone e e' met met' same := by
    rcases comes_enroll met with met | rfl <;> rcases comes_enroll met' with met' | rfl
    · exact h.alone e e' met met' same
    · exact absurd same (Nat.ne_of_lt (h.holds met))
    · exact absurd same.symm (Nat.ne_of_lt (h.holds met'))
    · rfl
  loaded e params met own := by
    rw [cellsOf_enroll] at own
    rcases comes_enroll met with met | rfl
    · exact h.loaded e params met own
    · rw [cellsOf_of_not_holds (Nat.lt_irrefl _)] at own
      cases own

theorem byPath_keeps (h : r.Unspoilt w) (p : Path) :
    ∃ e w', byPath p w = .ok e w' ∧ e.path = p.normalize ∧ r.Comes w' e ∧ r.Keeps w w' := by
  cases there : Table.get? w.byPath p.normalize.components with
  | some e =>
      exact ⟨e, w, byPath_of_known there, h.path_of_placed there, .inr (.inl ⟨_, there⟩), .refl h⟩
  | none =>
      exact ⟨_, _, byPath_of_unknown there, rfl, .inr (.inl ⟨_, known_enroll w _ _⟩), h.enroll p _,
        rfl, recalls_enroll there _, rfl⟩

/-! ### Two worlds side by side -/

/-- Two worlds in which leads from the places in `P` lead to the same places, again in `P`. -/
structure Twin (r : Registry) (P : Path → Prop) (w w' : World) : Prop where
  left : r.Unspoilt w
  right : r.Unspoilt w'
  disk : w'.disk = w.disk
  items : ∀ p, P p → ∀ item ∈ searchItems (r.loadedAt w p), r.itemPlace w' p item = r.itemPlace w p item
  closed : ∀ p, P p → ∀ q ∈ r.neighbours w p, P q

theorem loadedAt_congr {p : Path} (h : r.ownAt w' p = r.ownAt w p) :
    r.loadedAt w' p = r.loadedAt w p := by
  rw [loadedAt, loadedAt, h]

theorem indexPlace_congr {p : Path} (h : r.ownAt w' p = r.ownAt w p) (name : String) :
    r.indexPlace w' name p = r.indexPlace w name p := by
  rw [indexPlace, indexPlace, loadedAt_congr h]

theorem Keeps.itemPlace (h : r.Keeps w w') (unspoilt : r.Unspoilt w) (p : Path) (item : String) :
    r.itemPlace w' p item = r.itemPlace w p item := by
  rw [Registry.itemPlace, Registry.itemPlace, indexPlace_congr (h.ownAt unspoilt p), h.name]

namespace Twin

variable {P : Path → Prop}

theorem self (h : r.Unspoilt w) : r.Twin (fun _ => True) w w :=
  ⟨h, h, rfl, fun _ _ _ _ => rfl, fun _ _ _ _ => trivial⟩

theorem ownAt (h : r.Twin P w w') (p : Path) : r.ownAt w' p = r.ownAt w p := by
  rw [h.right.ownAt_eq, h.left.ownAt_eq, h.disk]

theorem symm (h : r.Twin P w w') : r.Twin P w' w where
  left := h.right
  right := h.left
  disk := h.disk.symm
  items p hp item hitem := by
    rw [loadedAt_congr (h.ownAt p)] at hitem
    exact (h.items p hp item hitem).symm
  closed p hp q hq := by
    obtain ⟨item, hitem, place⟩ := List.mem_filterMap.mp hq
    rw [loadedAt_congr (h.ownAt p)] at hitem
    rw [h.items p hp item hitem] at place
    exact h.closed p hp q (List.mem_filterMap.mpr ⟨item, hitem, place⟩)

theorem keeps (h : r.Twin P w w') (k : r.Keeps w w₁) (k' : r.Keeps w' w₁') : r.Twin P w₁ w₁' where
  left := k.unspoilt
  right := k'.unspoilt
  disk := k'.disk.trans (h.disk.trans k.disk.symm)
  items p hp item hitem := by
    rw [loadedAt_congr (k.ownAt h.left p)] at hitem
    rw [k'.itemPlace h.right, k.itemPlace h.left, h.items p hp item hitem]
  closed p hp q hq := by
    obtain ⟨item, hitem, place⟩ := List.mem_filterMap.mp hq
    rw [loadedAt_congr (k.ownAt h.left p)] at hitem
    rw [k.itemPlace h.left] at place
    exact h.closed p hp q (List.mem_filterMap.mpr ⟨item, hitem, place⟩)

end Twin

/-- Two entries at one place, each one that its own world can come by. -/
structure Abreast (r : Registry) (w w' : World) (e e' : Entry) : Prop where
  path : e.path = e'.path
  left : r.Comes w e
  right : r.Comes w' e'

theorem Abreast.keeps {e e' : Entry} (h : r.Abreast w w' e e') (k : r.Keeps w w₁)
    (k' : r.Keeps w' w₁') : r.Abreast w₁ w₁' e e' :=
  ⟨h.path, k.comes h.left, k'.comes h.right⟩

/-- Both lookups fail with one error, or both answer and the answers have `Q`; in neither world is
anything lost. -/
inductive Agrees {α : Type} (r : Registry) (w w' : World) (Q : World → World → α → α → Prop) :
    EStateM.Result Error World α → EStateM.Result Error World α → Prop
  | ok {w₁ w₁' a a'} (k : r.Keeps w w₁) (k' : r.Keeps w' w₁') (h : Q w₁ w₁' a a') :
      Agrees r w w' Q (.ok a w₁) (.ok a' w₁')
  | error {w₁ w₁' e} (k : r.Keeps w w₁) (k' : r.Keeps w' w₁') :
      Agrees r w w' Q (.error e w₁) (.error e w₁')

namespace Agrees

variable {α β : Type} {Q : World → World → α → α → Prop}

theorem pure (h : r.Unspoilt w) (h' : r.Unspoilt w') {a a' : α} (hq : Q w w' a a') :
    Agrees r w w' Q ((pure a : Action α) w) ((pure a' : Action α) w') :=
  .ok (.refl h) (.refl h') hq

theorem later {out out' : EStateM.Result Error World α} (k : r.Keeps w w₁) (k' : r.Keeps w' w₁')
    (h : Agrees r w₁ w₁' Q out out') : Agrees r w w' Q out out' := by
  cases h with
  | ok k₁ k₁' h => exact .ok (k.trans k₁) (k'.trans k₁') h
  | error k₁ k₁' => exact .error (k.trans k₁) (k'.trans k₁')

theorem imp {Q' : World → World → α → α → Prop} {out out' : EStateM.Result Error World α}
    (h : Agrees r w w' Q out out') (hq : ∀ w₁ w₁' a a', Q w₁ w₁' a a' → Q' w₁ w₁' a a') :
    Agrees r w w' Q' out out' := by
  cases h with
  | ok k k' h => exact .ok k k' (hq _ _ _ _ h)
  | error k k' => exact .error k k'

theorem bind {act act' : Action α} {next next' : α → Action β} {Q' : World → World → β → β → Prop}
    (h : Agrees r w w' Q (act w) (act' w'))
    (hn : ∀ w₁ w₁' a a', r.Keeps w w₁ → r.Keeps w' w₁' → Q w₁ w₁' a a' →
      Agrees r w₁ w₁' Q' (next a w₁) (next' a' w₁')) :
    Agrees r w w' Q' ((act >>= next) w) ((act' >>= next') w') := by
  rw [bind_apply, bind_apply]
  generalize act w = out, act' w' = out' at h ⊢
  cases h with
  | ok k k' h => exact (hn _ _ _ _ k k' h).later k k'
  | error k k' => exact .error k k'

end Agrees

section

variable {P : Path → Prop} {c c' : Entry}

theorem own_agrees (twin : r.Twin P w w') (h : r.Abreast w w' c c') :
    Agrees r w w' (fun _ _ a a' => a' = a ∧ r.ownAt w c.path = .ok a) (r.own c w) (r.own c' w') := by
  obtain ⟨w₁, left, k⟩ := own_keeps twin.left h.left
  obtain ⟨w₁', right, k'⟩ := own_keeps twin.right h.right
  rw [← h.path, twin.ownAt] at right
  rw [left, right]
  cases r.ownAt w c.path with
  | ok params => exact .ok k k' ⟨rfl, rfl⟩
  | error err => exact .error k k'

theorem byPath_agrees (twin : r.Twin P w w') (p : Path) :
    Agrees r w w' (fun w₁ w₁' e e' => r.Abreast w₁ w₁' e e' ∧ e.path = p.normalize) (byPath p w)
      (byPath p w') := by
  obtain ⟨e, w₁, left, path, met, k⟩ := byPath_keeps twin.left p
  obtain ⟨e', w₁', right, path', met', k'⟩ := byPath_keeps twin.right p
  rw [left, right]
  exact .ok k k' ⟨⟨path.trans path'.symm, met, met'⟩, path⟩

/-- Nothing was found in either world, or entries at one place. -/
def Found (r : Registry) (w w' : World) : Option Entry → Option Entry → Prop :=
  Option.Rel (r.Abreast w w')

theorem indexed_agrees (twin : r.Twin P w w') (h : r.Abreast w w' c c') (name : String) :
    Agrees r w w' (fun w₁ w₁' f f' => r.Found w₁ w₁' f f' ∧
      f.map Entry.path = r.indexPlace w name c.path) (r.indexed c name w) (r.indexed c' name w') := by
  refine .bind (own_agrees twin h) fun w₁ w₁' a a' k k' ha => ?_
  obtain ⟨rfl, own⟩ := ha
  rw [indexPlace, loadedAt_of_ok own]
  have twin₁ := twin.keeps k k'
  cases (Table.get? (indexOf a') name).bind Json.str? with
  | none => exact .pure twin₁.left twin₁.right ⟨.none, rfl⟩
  | some place =>
      dsimp only
      have file : c'.filePath place = c.filePath place := by
        rw [Entry.filePath, Entry.filePath, h.path]
      rw [file]
      refine .bind (byPath_agrees twin₁ (c.filePath place)) fun w₂ w₂' e e' k k' he => ?_
      have twin₂ := twin₁.keeps k k'
      exact .pure twin₂.left twin₂.right ⟨.some he.1, congrArg some he.2⟩

theorem searched_agrees (twin : r.Twin P w w') (h : r.Abreast w w' c c') (hp : P c.path)
    {item : String} (hitem : item ∈ searchItems (r.loadedAt w c.path)) :
    Agrees r w w' (fun w₁ w₁' f f' => r.Found w₁ w₁' f f' ∧
      f.map Entry.path = r.itemPlace w c.path item) (r.searched c item w) (r.searched c' item w') := by
  have same := twin.items c.path hp item hitem
  rw [searched, searched]
  rw [itemPlace, itemPlace, indexPlace_congr (twin.ownAt c.path)] at same
  rw [itemPlace]
  split
  · have file : c'.filePath item = c.filePath item := by
      rw [Entry.filePath, Entry.filePath, h.path]
    rw [file]
    refine .bind (byPath_agrees twin (c.filePath item)) fun w₁ w₁' e e' k k' he => ?_
    have twin₁ := twin.keeps k k'
    exact .pure twin₁.left twin₁.right ⟨.some he.1, congrArg some he.2⟩
  · rename_i plain
    rw [if_neg plain, if_neg plain] at same
    refine .bind (indexed_agrees twin h item) fun w₁ w₁' f f' k k' hf => ?_
    obtain ⟨found, place⟩ := hf
    have twin₁ := twin.keeps k k'
    rw [← place] at same ⊢
    cases found with
    | some he => exact .pure twin₁.left twin₁.right ⟨.some he, rfl⟩
    | none =>
        -- Neither index has the item, so it stands for the same name in both worlds.
        rw [Option.map_none, Option.none_or, Option.none_or, ← k.name, ← k'.name] at same
        rw [Option.map_none, Option.none_or, ← k.name]
        refine .ok (.refl twin₁.left) (.refl twin₁.right) ⟨?_, rfl⟩
        cases left : Table.get? w₁.byName item <;> cases right : Table.get? w₁'.byName item <;>
          rw [left, right] at same
        · exact .none
        · cases same
        · cases same
        · exact .some ⟨(Option.some.inj same).symm, .inr (.inr ⟨item, left⟩), .inr (.inr ⟨item, right⟩)⟩

/-! ### Searches side by side -/

/-- Leads of the same kind, from entries at one place in `P`. -/
inductive Lead.Abreast (r : Registry) (P : Path → Prop) (w w' : World) : Lead → Lead → Prop
  | collection {c c' : Entry} (h : r.Abreast w w' c c') (hp : P c.path) :
      Lead.Abreast r P w w' (.collection c) (.collection c')
  | item {c c' : Entry} {text : String} (h : r.Abreast w w' c c') (hp : P c.path)
      (listed : text ∈ searchItems (r.loadedAt w c.path)) :
      Lead.Abreast r P w w' (.item c text) (.item c' text)

def LeadsAbreast (r : Registry) (P : Path → Prop) (w w' : World) : List Lead → List Lead → Prop :=
  List.Forall₂ (Lead.Abreast r P w w')

theorem LeadsAbreast.keeps {leads leads' : List Lead} (h : r.LeadsAbreast P w w' leads leads')
    (unspoilt : r.Unspoilt w) (k : r.Keeps w w₁) (k' : r.Keeps w' w₁') :
    r.LeadsAbreast P w₁ w₁' leads leads' := by
  refine h.imp fun lead lead' hl => ?_
  cases hl with
  | collection h hp => exact .collection (h.keeps k k') hp
  | item h hp listed =>
      exact .item (h.keeps k k') hp (by rwa [loadedAt_congr (k.ownAt unspoilt _)])

theorem LeadsAbreast.symm {leads leads' : List Lead} (h : r.LeadsAbreast P w w' leads leads')
    (twin : r.Twin P w w') : r.LeadsAbreast P w' w leads' leads := by
  have back {c c' : Entry} (h : r.Abreast w w' c c') : r.Abreast w' w c' c :=
    ⟨h.path.symm, h.right, h.left⟩
  refine (h.imp fun lead lead' hl => ?_).flip
  cases hl with
  | collection h hp => exact .collection (back h) (h.path ▸ hp)
  | item h hp listed =>
      refine .item (back h) (h.path ▸ hp) ?_
      rwa [← h.path, loadedAt_congr (twin.ownAt _)]

/-- Searches that have found entries at one place, or go on with the same leads. -/
inductive Search.Abreast (r : Registry) (P : Path → Prop) (w w' : World) : Search → Search → Prop
  | found {e e' visited} (h : r.Abreast w w' e e') :
      Search.Abreast r P w w' (.found e visited) (.found e' visited)
  | going {leads leads' visited} (h : r.LeadsAbreast P w w' leads leads') :
      Search.Abreast r P w w' (.going leads visited) (.going leads' visited)

theorem leadsTo_agrees (twin : r.Twin P w w') {lead lead' : Lead}
    (h : Lead.Abreast r P w w' lead lead') :
    Agrees r w w' (fun w₁ w₁' f f' => r.Found w₁ w₁' f f' ∧ ∀ e ∈ f, P e.path) (r.leadsTo lead w)
      (r.leadsTo lead' w') := by
  cases h with
  | collection h hp =>
      refine .pure twin.left twin.right ⟨.some h, fun e he => ?_⟩
      cases he
      exact hp
  | @item c c' text h hp listed =>
      refine (searched_agrees twin h hp listed).imp fun w₁ w₁' f f' hf => ⟨hf.1, fun e he => ?_⟩
      cases he
      exact twin.closed c.path hp e.path (List.mem_filterMap.mpr ⟨text, listed, hf.2.symm⟩)

theorem visit_agrees (twin : r.Twin P w w') (name : String) (h : r.Abreast w w' c c') (hp : P c.path)
    {rest rest' : List Lead} (hrest : r.LeadsAbreast P w w' rest rest') (visited : List Path) :
    Agrees r w w' (Search.Abreast r P) (r.visit name c rest visited w)
      (r.visit name c' rest' visited w') := by
  rw [visit, visit, ← h.path]
  refine .bind (indexed_agrees twin h name) fun w₁ w₁' f f' k k' hf => ?_
  have twin₁ := twin.keeps k k'
  cases hf.1 with
  | some he => exact .pure twin₁.left twin₁.right (.found he)
  | none =>
      dsimp only
      refine .bind (own_agrees twin₁ (h.keeps k k')) fun w₂ w₂' a a' k₂ k₂' ha => ?_
      obtain ⟨rfl, own⟩ := ha
      have twin₂ := twin₁.keeps k₂ k₂'
      have own₂ := (k₂.ownAt twin₁.left c.path).trans own
      refine .pure twin₂.left twin₂.right (.going (List.rel_append ?_ ?_))
      · refine List.forall₂_map_left_iff.mpr (List.forall₂_map_right_iff.mpr ?_)
        refine List.forall₂_same.mpr fun text htext => ?_
        exact .item ((h.keeps k k').keeps k₂ k₂') hp (by rwa [loadedAt_of_ok own₂])
      · exact (hrest.keeps twin.left k k').keeps twin₁.left k₂ k₂'

theorem pursue_agrees (twin : r.Twin P w w') (name : String) {lead lead' : Lead}
    {rest rest' : List Lead} (hlead : Lead.Abreast r P w w' lead lead')
    (hrest : r.LeadsAbreast P w w' rest rest') (visited : List Path) :
    Agrees r w w' (Search.Abreast r P) (r.pursue name lead rest visited w)
      (r.pursue name lead' rest' visited w') := by
  rw [pursue, pursue]
  refine .bind (leadsTo_agrees twin hlead) fun w₁ w₁' f f' k k' hf => ?_
  have twin₁ := twin.keeps k k'
  have hrest₁ := hrest.keeps twin.left k k'
  obtain ⟨found, inside⟩ := hf
  cases found with
  | none => exact .pure twin₁.left twin₁.right (.going hrest₁)
  | @some c c' h =>
      dsimp only
      rw [← h.path]
      split
      · exact .pure twin₁.left twin₁.right (.going hrest₁)
      · exact visit_agrees twin₁ name h (inside c rfl) hrest₁ visited

/-- What searches that come to an end have in common. -/
def SameFinding (r : Registry) (w w' : World) (f f' : Finding) : Prop :=
  r.Found w w' f.1 f'.1 ∧ f.2 = f'.2

/-- If a search comes to an end, then so does one with the same leads in the other world. -/
theorem explore_agrees {leads : List Lead} {visited : List Path}
    {out : EStateM.Result Error World Finding} (h : r.explore name leads visited w = some out)
    (twin : r.Twin P w w') {leads' : List Lead} (hleads : r.LeadsAbreast P w w' leads leads') :
    ∃ out', r.explore name leads' visited w' = some out' ∧
      Agrees r w w' r.SameFinding out out' := by
  refine explore.partial_correctness r name (motive := fun leads visited w out =>
    ∀ w' leads', r.Twin P w w' → r.LeadsAbreast P w w' leads leads' →
      ∃ out', r.explore name leads' visited w' = some out' ∧ Agrees r w w' r.SameFinding out out')
    (fun explore ih leads visited w out h w' leads' twin hleads => ?_) leads visited w out h w' leads'
    twin hleads
  cases hleads with
  | nil =>
      cases h
      refine ⟨.ok (none, visited) w', by rw [Registry.explore], ?_⟩
      exact .ok (.refl twin.left) (.refl twin.right) ⟨.none, rfl⟩
  | @cons lead lead' rest rest' hlead hrest =>
      have step := pursue_agrees twin name hlead hrest visited
      dsimp only at h
      rw [Registry.explore]
      generalize r.pursue name lead rest visited w = next,
        r.pursue name lead' rest' visited w' = next' at h step ⊢
      cases step with
      | error k k' =>
          cases h
          exact ⟨_, rfl, .error k k'⟩
      | ok k k' hnext =>
          cases hnext with
          | found he =>
              cases h
              exact ⟨_, rfl, .ok k k' ⟨.some he, rfl⟩⟩
          | going hleads =>
              obtain ⟨out', ends, agrees⟩ := ih _ _ _ _ h _ _ (twin.keeps k k') hleads
              exact ⟨out', ends, agrees.later k k'⟩

theorem search_agrees (name : String) (twin : r.Twin P w w') {leads leads' : List Lead}
    (hleads : r.LeadsAbreast P w w' leads leads') (visited : List Path) :
    Agrees r w w' r.SameFinding (r.search name leads visited w)
      (r.search name leads' visited w') := by
  rw [search, search]
  cases h : r.explore name leads visited w with
  | some out =>
      obtain ⟨out', h', agrees⟩ := explore_agrees h twin hleads
      rw [h']
      exact agrees
  | none =>
      cases h' : r.explore name leads' visited w' with
      | none => exact .error (.refl twin.left) (.refl twin.right)
      | some out' =>
          obtain ⟨out, ends, -⟩ := explore_agrees h' twin.symm (hleads.symm twin)
          rw [h] at ends
          cases ends

end

/-! ### From the start on -/

/-- A registry starts in an unspoilt world. -/
theorem unspoilt_of_start {config : Config} {base : Path} {catalog : Catalog}
    {builtins : List Namespace} {disk : Disk}
    (start : ofConfig config base catalog builtins { disk } = .ok r w) : r.Unspoilt w := by
  have sound := (ofConfig_safe config base catalog builtins _ (sound_empty disk) trivial).2.1
  rw [after_of_ok start] at sound
  obtain ⟨roots, w₁, made, rooted⟩ := mapM_createRoot_ok base config.collections { disk }
  rw [ofConfig, bind_of_ok made] at start
  cases start
  have root : ∀ e, Comes ⟨base, config, roots, catalog, builtins⟩ w e → e ∈ roots := by
    rintro e (h | ⟨place, h⟩ | ⟨name, h⟩)
    · exact h
    · rw [rooted.path, Table.get?_nil, Option.or_none] at h
      exact (mem_of_lastWith h).1
    · rw [rooted.name, Table.get?_nil, Option.or_none] at h
      exact (mem_of_lastWith h).1
  refine ⟨sound, rooted.holds, fun place e h => ?_, fun e met => ?_, fun e e' met met' same => ?_,
    fun e params _ own => ?_⟩
  · rw [rooted.path, Table.get?_nil, Option.or_none] at h
    exact (mem_of_lastWith h).2.symm
  · have made := rooted.made ▸ List.mem_map_of_mem (f := fun e : Entry => (e.path, e.name)) (root e met)
    obtain ⟨spec, -, he⟩ := List.mem_map.mp made
    rw [← (Prod.mk.inj he).1]
    exact Path.normalize_normalize _
  · have nodup : (roots.map Entry.id).Nodup := rooted.ids ▸ List.nodup_range'
    rw [List.inj_on_of_nodup_map nodup (root e met) (root e' met') same]
  · rw [cellsOf, rooted.cells] at own
    simp only [List.nil_append, List.getElem?_replicate] at own
    split at own <;> cases own

/-- The place of the entry that a name is resolved to, if there is one. -/
def resolves (r : Registry) (w : World) (name : String) : Except Error (Option Path) :=
  (value (r.byName name) w).map (Option.map Entry.path)

theorem resolves_of_known {e : Entry} (h : Table.get? w.byName name = some e) :
    r.resolves w name = .ok (some e.path) := by
  rw [resolves, value, byName_of_cached h]
  rfl

theorem resolves_of_unknown (unknown : Table.get? w.byName name = none) : r.resolves w name =
    (value (r.search name (r.roots.map .collection) []) w).map fun f => f.1.map Entry.path := by
  rw [resolves, value, value, byName_of_unknown unknown]
  rcases r.search name (r.roots.map .collection) [] w with ⟨⟨_ | e, visited⟩, w'⟩ | ⟨err, w'⟩ <;> rfl

theorem leads_of_roots {P : Path → Prop} (roots : ∀ root ∈ r.roots, P root.path) (w w' : World) :
    r.LeadsAbreast P w w' (r.roots.map .collection) (r.roots.map .collection) := by
  refine List.forall₂_map_left_iff.mpr (List.forall₂_map_right_iff.mpr ?_)
  exact List.forall₂_same.mpr fun root h => .collection ⟨rfl, .inl h, .inl h⟩ (roots root h)

/-- In worlds where the roots lead to the same places, a name that neither knows is resolved alike. -/
theorem resolves_twin {P : Path → Prop} (twin : r.Twin P w w') (roots : ∀ root ∈ r.roots, P root.path)
    (unknown : Table.get? w.byName name = none) (unknown' : Table.get? w'.byName name = none) :
    r.resolves w' name = r.resolves w name := by
  rw [resolves_of_unknown unknown, resolves_of_unknown unknown', value, value]
  have agrees := search_agrees name twin (leads_of_roots roots w w') []
  generalize r.search name (r.roots.map .collection) [] w = out,
    r.search name (r.roots.map .collection) [] w' = out' at agrees
  cases agrees with
  | error k k' => rfl
  | @ok _ _ f f' k k' same =>
      obtain ⟨found, visited⟩ := f
      obtain ⟨found', visited'⟩ := f'
      cases same.1 with
      | none => rfl
      | some h => simp [Except.map, h.path]

/-- What a world has come to know by a lookup: nothing, or whom a name is resolved to. -/
structure Learns (r : Registry) (w w' : World) : Prop where
  unspoilt : r.Unspoilt w'
  disk : w'.disk = w.disk
  recalls : w.Recalls w'
  new : ∀ name e, Table.get? w'.byName name = some e → Table.get? w.byName name = none →
    r.resolves w name = .ok (some e.path)

theorem Keeps.learns (h : r.Keeps w w') : r.Learns w w' where
  unspoilt := h.unspoilt
  disk := h.disk
  recalls := h.recalls
  new name e known unknown := by
    rw [h.name, unknown] at known
    cases known

theorem Unspoilt.knowName (h : r.Unspoilt w) (name : String) {e : Entry} (met : r.Comes w e) :
    r.Unspoilt { w with byName := Table.insert w.byName name e } := by
  have back : ∀ x, r.Comes { w with byName := Table.insert w.byName name e } x → r.Comes w x := by
    rintro x (root | found | ⟨key, found⟩)
    · exact .inl root
    · exact .inr (.inl found)
    · rw [Table.get?_insert] at found
      split at found
      · cases found
        exact met
      · exact .inr (.inr ⟨key, found⟩)
  refine ⟨h.sound.knowName name (h.holds met), h.held, h.placed, fun x hx => h.normal x (back x hx), ?_,
    fun x params hx => h.loaded x params (back x hx)⟩
  exact fun x x' hx hx' => h.alone x x' (back x hx) (back x' hx')

theorem byName_learns (h : r.Unspoilt w) (name : String) :
    r.Learns w (after (r.byName name) w) := by
  cases known : Table.get? w.byName name with
  | some e =>
      rw [after_of_ok (byName_of_cached known)]
      exact (Keeps.refl h).learns
  | none =>
      have leads := leads_of_roots (r := r) (P := fun _ => True) (fun _ _ => trivial) w w
      have agrees := search_agrees name (.self h) leads []
      have found := resolves_of_unknown (r := r) known
      have answer := byName_of_unknown (r := r) known
      rw [value] at found
      rw [after]
      generalize r.search name (r.roots.map .collection) [] w = out at agrees answer found
      cases agrees with
      | error k _ =>
          rw [answer]
          exact k.learns
      | @ok w₁ _ f _ k _ same =>
          obtain ⟨_ | e, visited⟩ := f
          · rw [answer]
            exact k.learns
          · have met : r.Comes w₁ e := by
              cases same.1 with
              | some he => exact he.left
            rw [answer]
            refine ⟨k.unspoilt.knowName name met, k.disk, ?_, fun key x hx unknown => ?_⟩
            · exact recalls_course.trans k.recalls (recalls_knowName (k.name ▸ known) e)
            · rw [Table.get?_insert, k.name, unknown] at hx
              split at hx
              · rename_i hkey
                cases hx
                rw [← hkey, found]
                rfl
              · cases hx

/-- What a lookup does to a world. -/
inductive Looks (r : Registry) (w : World) : World → Prop
  | byName (name : String) : Looks r w (after (r.byName name) w)
  | byPath (p : Path) : Looks r w (after (Registry.byPath p) w)
  | search (name : String) (c : Entry) (visited : List Path) (met : r.Comes w c) :
      Looks r w (after (r.searchFrom name c visited) w)
  | indexed (c : Entry) (name : String) (met : r.Comes w c) : Looks r w (after (r.indexed c name) w)

theorem Agrees.after {α : Type} {Q : World → World → α → α → Prop} {act : Action α}
    (h : Agrees r w w Q (act w) (act w)) : r.Keeps w (after act w) := by
  rw [Action.after]
  generalize act w = out at h
  cases h with
  | ok k _ _ => exact k
  | error k _ => exact k

theorem Looks.learns (h : r.Looks w w') (unspoilt : r.Unspoilt w) : r.Learns w w' := by
  have twin := Twin.self unspoilt
  have abreast {c : Entry} (met : r.Comes w c) : r.Abreast w w c c := ⟨rfl, met, met⟩
  cases h with
  | byName name => exact byName_learns unspoilt name
  | byPath p => exact (byPath_agrees twin p).after.learns
  | search name c visited met =>
      have leads : r.LeadsAbreast (fun _ => True) w w [.collection c] [.collection c] :=
        .cons (.collection (abreast met) trivial) .nil
      exact (search_agrees name twin leads visited).after.learns
  | indexed c name met => exact (indexed_agrees twin (abreast met) name).after.learns

/-- An item of a search path that leads nowhere, in a collection that the roots lead to. -/
def Dangles (r : Registry) (w : World) (item : String) : Prop :=
  ∃ root ∈ r.roots, ∃ p, r.Reachable w [] root.path p ∧ item ∈ searchItems (r.loadedAt w p) ∧
    r.itemPlace w p item = none

/-- As long as no dangling item is known by name, the roots lead to the same places. -/
theorem twin_of_unfound (h : r.Unspoilt w) (h' : r.Unspoilt w') (disk : w'.disk = w.disk)
    (recalls : w.Recalls w')
    (unfound : ∀ item, r.Dangles w item → Table.get? w'.byName item = none) :
    r.Twin (fun p => ∃ root ∈ r.roots, r.Reachable w [] root.path p) w w' where
  left := h
  right := h'
  disk := disk
  items p hp item hitem := by
    have own : r.ownAt w' p = r.ownAt w p := by rw [h.ownAt_eq, h'.ownAt_eq, disk]
    rw [itemPlace, itemPlace, indexPlace_congr own]
    split
    · rfl
    rename_i plain
    cases index : r.indexPlace w item p with
    | some q => rfl
    | none =>
        rw [Option.none_or, Option.none_or]
        cases known : Table.get? w.byName item with
        | some e => rw [recalls.name item e known]
        | none =>
            obtain ⟨root, hroot, reach⟩ := hp
            have dangles : r.Dangles w item :=
              ⟨root, hroot, p, reach, hitem, by rw [itemPlace, if_neg plain, index, known]; rfl⟩
            rw [unfound item dangles]
  closed := by
    rintro p ⟨root, hroot, reach⟩ q hq
    exact ⟨root, hroot, reach.trans (.step reach.unseen.2 hq (.here (by simp [Path.isIn])))⟩

/-- Lookups one after the other. -/
def Lookups (r : Registry) : World → World → Prop := Relation.ReflTransGen (Looks r)

theorem Lookups.keep (run : r.Lookups w w') (h : r.Unspoilt w) :
    r.Unspoilt w' ∧ w'.disk = w.disk ∧ w.Recalls w' := by
  induction run with
  | refl => exact ⟨h, rfl, recalls_course.refl w⟩
  | tail _ look ih =>
      obtain ⟨unspoilt, disk, recalls⟩ := ih
      have learns := look.learns unspoilt
      exact ⟨learns.unspoilt, learns.disk.trans disk, recalls_course.trans recalls learns.recalls⟩

theorem resolves_unknown_alike (run : r.Lookups w w') (h : r.Unspoilt w)
    (unfound : ∀ item, r.Dangles w item → Table.get? w'.byName item = none)
    (unknown : Table.get? w'.byName name = none) : r.resolves w' name = r.resolves w name := by
  obtain ⟨h', disk, recalls⟩ := run.keep h
  refine resolves_twin (twin_of_unfound h h' disk recalls unfound) ?_ (recalls.unknown unknown) unknown
  exact fun root hroot => ⟨root, hroot, .here (by simp [Path.isIn])⟩

/-- Whoever is known by a name is whom the name was resolved to at first. -/
theorem resolves_of_learned (run : r.Lookups w w') (h : r.Unspoilt w)
    (unfound : ∀ item, r.Dangles w item → Table.get? w'.byName item = none) {e : Entry}
    (known : Table.get? w'.byName name = some e) : r.resolves w name = .ok (some e.path) := by
  induction run generalizing name e with
  | refl => exact resolves_of_known known
  | @tail w₁ w₂ run look ih =>
      have learns := look.learns (Lookups.keep run h).1
      have unfound₁ := fun item dangles => learns.recalls.unknown (unfound item dangles)
      cases before : Table.get? w₁.byName name with
      | some x =>
          rw [learns.recalls.name name x before] at known
          cases known
          exact ih unfound₁ before
      | none =>
          rw [← resolves_unknown_alike run h unfound₁ before]
          exact learns.new name e known before

/-- Names are resolved as on the fresh registry, whatever was looked up before, as long as no item of
a search path that led nowhere has been found by its name meanwhile. -/
theorem resolution_forgets_lookups {config : Config} {base : Path} {catalog : Catalog}
    {builtins : List Namespace} {disk : Disk} {w₀ : World}
    (start : ofConfig config base catalog builtins { disk } = .ok r w₀) (run : r.Lookups w₀ w)
    (unfound : ∀ item, r.Dangles w₀ item → Table.get? w.byName item = none) (name : String) :
    r.resolves w name = r.resolves w₀ name := by
  have fresh := unspoilt_of_start start
  cases known : Table.get? w.byName name with
  | some e =>
      rw [resolves_of_known known]
      exact (resolves_of_learned run fresh unfound known).symm
  | none => exact resolves_unknown_alike run fresh unfound known

/-! ### A pursuit that comes to a new collection -/

section

variable {c e : Entry} {rest : List Lead} {visited : List Path}

theorem pursue_of_listed (new : ¬ c.path.isIn visited = true)
    (index : r.indexed c name w = .ok (some e) w₁) :
    r.pursue name (.collection c) rest visited w = .ok (.found e (visited ++ [c.path])) w₁ := by
  have leads : r.leadsTo (.collection c) w = .ok (some c) w := rfl
  rw [pursue, bind_of_ok leads]
  dsimp only
  rw [if_neg new, visit, bind_of_ok index]
  rfl

theorem pursue_of_unlisted {params : Params} {w₂ : World} (new : ¬ c.path.isIn visited = true)
    (index : r.indexed c name w = .ok none w₁) (own : r.own c w₁ = .ok params w₂) :
    r.pursue name (.collection c) rest visited w =
      .ok (.going ((searchItems params).map (.item c) ++ rest) (visited ++ [c.path])) w₂ := by
  have leads : r.leadsTo (.collection c) w = .ok (some c) w := rfl
  rw [pursue, bind_of_ok leads]
  dsimp only
  rw [if_neg new, visit, bind_of_ok index]
  dsimp only
  rw [bind_of_ok own]
  rfl

end

namespace Sample

def ownA : Params := [("collections_searchpath", .arr [.str "sub"])]

def ownB : Params := [("name_2_path", .obj [("sub", .str "inner")])]

def ownInner : Params := [("name_2_path", .obj [("deep", .str "leaf")])]

/-- A search path of the first collection names what only the second has in its index. -/
def shelvesDisk : Disk where
  cwd := []
  nodes := [(["a"], .dir), (["a", "parameters.json"], .file (DocumentFormat.json.write (.obj ownA))),
    (["b"], .dir), (["b", "parameters.json"], .file (DocumentFormat.json.write (.obj ownB))),
    (["b", "inner"], .dir),
    (["b", "inner", "parameters.json"], .file (DocumentFormat.json.write (.obj ownInner)))]

def shelves : Config where
  collections := [⟨"a", ⟨"a"⟩⟩, ⟨"b", ⟨"b"⟩⟩]

def shelfA : Entry := ⟨0, ⟨"a"⟩, "a"⟩

def shelfB : Entry := ⟨1, ⟨"b"⟩, "b"⟩

def shelvesWorld : World where
  disk := shelvesDisk
  cells := [{}, {}]
  byPath := [([.name "a"], shelfA), ([.name "b"], shelfB)]
  byName := [("a", shelfA), ("b", shelfB)]

def shelvesRegistry : Registry := ⟨⟨""⟩, shelves, [shelfA, shelfB], [], []⟩

theorem shelves_start : ofConfig shelves ⟨""⟩ [] [] { disk := shelvesDisk } =
    .ok shelvesRegistry shelvesWorld := rfl

/-- An entry with the own parameters of its document. -/
def loaded (w : World) (e : Entry) (params : Params) : World := w.setCells e { own := some params }

theorem own_of_stat {e : Entry} {w : World} {params : Params} (new : w.cellsOf e = {})
    (stat : w.disk.stat (e.path.join "parameters.json") =
      .ok (.file (DocumentFormat.json.write (.obj params))))
    (json : DocumentFormat.ofPath (e.path.join "parameters.json") = .json)
    (legible : (Json.obj params).Legible 127) :
    shelvesRegistry.own e w = .ok params (loaded w e params) := by
  have load : w.disk.load (e.path.join "parameters.json") [] = .ok (.obj params, true) :=
    Disk.load_written stat json legible rfl
  rw [own_of_document shelvesRegistry (by rw [new]) load, new]
  rfl

def shelfInner : Entry := ⟨2, ⟨"b/inner"⟩, "inner"⟩

def leaf : Entry := ⟨3, ⟨"b/inner/leaf"⟩, "leaf"⟩

/-- The first collection is loaded. -/
def worldA : World := loaded shelvesWorld shelfA ownA

/-- Both collections are loaded. -/
def worldAB : World := loaded worldA shelfB ownB

/-- What the item means has been found. -/
def worldFound : World :=
  { worldAB.enroll ⟨"b/inner"⟩ "inner" with byName := Table.insert worldAB.byName "sub" shelfInner }

theorem own_a : shelvesRegistry.own shelfA shelvesWorld = .ok ownA worldA :=
  own_of_stat rfl (by rfl) (by rfl) (.field (.arr (List.forall_mem_singleton.mpr .str)))

theorem own_b : shelvesRegistry.own shelfB worldA = .ok ownB worldAB :=
  own_of_stat rfl (by rfl) (by rfl) (.field (.field .str))

theorem own_inner : shelvesRegistry.own shelfInner worldFound =
    .ok ownInner (loaded worldFound shelfInner ownInner) :=
  own_of_stat rfl (by rfl) (by rfl) (.field (.field .str))

/-- The first collection lists nothing and leads to its item, which is passed over as long as nothing is
known by its name. -/
theorem explore_shelves (name : String) {next : Search}
    (h : shelvesRegistry.pursue name (.collection shelfB) [] [⟨"a"⟩] worldA = .ok next w) :
    shelvesRegistry.explore name (shelvesRegistry.roots.map .collection) [] shelvesWorld =
      shelvesRegistry.goOn name w next := by
  have index : shelvesRegistry.indexed shelfA name shelvesWorld = .ok none worldA := by
    rw [indexed, bind_of_ok own_a]
    rfl
  have first : shelvesRegistry.pursue name (.collection shelfA) [.collection shelfB] [] shelvesWorld =
      .ok (.going [.item shelfA "sub", .collection shelfB] [⟨"a"⟩]) worldA :=
    pursue_of_unlisted (by decide) index (own_of_known _ rfl)
  have item : shelvesRegistry.pursue name (.item shelfA "sub") [.collection shelfB] [⟨"a"⟩] worldA =
      .ok (.going [.collection shelfB] [⟨"a"⟩]) worldA := rfl
  have roots : shelvesRegistry.roots.map Lead.collection = [.collection shelfA, .collection shelfB] := rfl
  rw [roots, explore_cons first, goOn, explore_cons item, goOn, explore_cons h]

/-- On the fresh registry the roots do not lead to the name. -/
theorem deep_unknown : shelvesRegistry.byName "deep" shelvesWorld = .ok none worldAB := by
  have index : shelvesRegistry.indexed shelfB "deep" worldA = .ok none worldAB := by
    rw [indexed, bind_of_ok own_b]
    rfl
  have pursue : shelvesRegistry.pursue "deep" (.collection shelfB) [] [⟨"a"⟩] worldA =
      .ok (.going [] [⟨"a"⟩, ⟨"b"⟩]) worldAB :=
    pursue_of_unlisted (by decide) index (own_of_known _ rfl)
  have search : shelvesRegistry.search "deep" (shelvesRegistry.roots.map .collection) []
      shelvesWorld = .ok (none, [⟨"a"⟩, ⟨"b"⟩]) worldAB := by
    rw [search_eq_ok, explore_shelves "deep" pursue, goOn, explore]
  rw [byName_of_unknown (by decide), search]

theorem sub_found : shelvesRegistry.byName "sub" shelvesWorld = .ok (some shelfInner) worldFound := by
  have index : shelvesRegistry.indexed shelfB "sub" worldA =
      .ok (some shelfInner) (worldAB.enroll ⟨"b/inner"⟩ "inner") := by
    rw [indexed, bind_of_ok own_b]
    rfl
  have pursue : shelvesRegistry.pursue "sub" (.collection shelfB) [] [⟨"a"⟩] worldA =
      .ok (.found shelfInner [⟨"a"⟩, ⟨"b"⟩]) (worldAB.enroll ⟨"b/inner"⟩ "inner") :=
    pursue_of_listed (by decide) index
  have search : shelvesRegistry.search "sub" (shelvesRegistry.roots.map .collection) []
      shelvesWorld =
        .ok (some shelfInner, [⟨"a"⟩, ⟨"b"⟩]) (worldAB.enroll ⟨"b/inner"⟩ "inner") := by
    rw [search_eq_ok, explore_shelves "sub" pursue, goOn]
  rw [byName_of_unknown (by decide), search]
  rfl

/-- Once the item has been found by its name, the first collection leads to what lists the name. -/
theorem deep_found : shelvesRegistry.resolves worldFound "deep" = .ok (some ⟨"b/inner/leaf"⟩) := by
  have unlisted : shelvesRegistry.indexed shelfA "deep" worldFound = .ok none worldFound := rfl
  have first : shelvesRegistry.pursue "deep" (.collection shelfA) [.collection shelfB] [] worldFound =
      .ok (.going [.item shelfA "sub", .collection shelfB] [⟨"a"⟩]) worldFound :=
    pursue_of_unlisted (by decide) unlisted (own_of_known _ rfl)
  have index : shelvesRegistry.indexed shelfInner "deep" worldFound =
      .ok (some leaf) ((loaded worldFound shelfInner ownInner).enroll ⟨"b/inner/leaf"⟩ "leaf") := by
    rw [indexed, bind_of_ok own_inner]
    rfl
  have item : shelvesRegistry.pursue "deep" (.item shelfA "sub") [.collection shelfB] [⟨"a"⟩]
      worldFound = .ok (.found leaf [⟨"a"⟩, ⟨"b/inner"⟩])
        ((loaded worldFound shelfInner ownInner).enroll ⟨"b/inner/leaf"⟩ "leaf") := by
    have leads : shelvesRegistry.leadsTo (.item shelfA "sub") worldFound =
        shelvesRegistry.leadsTo (.collection shelfInner) worldFound := rfl
    have new : ¬ shelfInner.path.isIn [⟨"a"⟩] = true := by decide
    rw [pursue, bind_apply, leads, ← bind_apply]
    exact pursue_of_listed new index
  have roots : shelvesRegistry.roots.map Lead.collection = [.collection shelfA, .collection shelfB] := rfl
  rw [resolves_of_unknown (by decide), roots, value, search, explore_cons first, goOn,
    explore_cons item, goOn]
  rfl

/-- One name is resolved to nothing on the fresh registry, and to an entry after another name has been
looked up. -/
theorem resolution_remembers_lookup :
    ofConfig shelves ⟨""⟩ [] [] { disk := shelvesDisk } = .ok shelvesRegistry shelvesWorld ∧
    shelvesRegistry.Lookups shelvesWorld worldFound ∧
    shelvesRegistry.resolves shelvesWorld "deep" = .ok none ∧
    shelvesRegistry.resolves worldFound "deep" = .ok (some ⟨"b/inner/leaf"⟩) := by
  refine ⟨shelves_start, ?_, ?_, deep_found⟩
  · exact .single (after_of_ok sub_found ▸ .byName "sub")
  · rw [resolves, value, deep_unknown]
    rfl

/-- To find by its path what the item would mean does not make it known by its name. -/
theorem deep_unknown_after_path : ∃ inner w,
    ofConfig shelves ⟨""⟩ [] [] { disk := shelvesDisk } = .ok shelvesRegistry shelvesWorld ∧
    byPath ⟨"b/inner"⟩ worldAB = .ok inner w ∧ shelvesRegistry.Lookups shelvesWorld w ∧
    (∀ item, shelvesRegistry.Dangles shelvesWorld item → Table.get? w.byName item = none) ∧
    shelvesRegistry.resolves w "deep" = .ok none := by
  have made : byPath ⟨"b/inner"⟩ worldAB = .ok shelfInner (worldAB.enroll ⟨"b/inner"⟩ "inner") := rfl
  have search : shelvesRegistry.Looks shelvesWorld worldAB := after_of_ok deep_unknown ▸ .byName "deep"
  have make : shelvesRegistry.Looks worldAB (worldAB.enroll ⟨"b/inner"⟩ "inner") :=
    after_of_ok made ▸ .byPath ⟨"b/inner"⟩
  have run : shelvesRegistry.Lookups shelvesWorld (worldAB.enroll ⟨"b/inner"⟩ "inner") :=
    .tail (.single search) make
  have unfound : ∀ item, shelvesRegistry.Dangles shelvesWorld item →
      Table.get? (worldAB.enroll ⟨"b/inner"⟩ "inner").byName item = none := by
    rintro item ⟨-, -, p, -, -, place⟩
    -- No new name is known, and an item that is known leads somewhere.
    rw [itemPlace] at place
    split at place
    · cases place
    · exact Option.map_eq_none_iff.mp (Option.or_eq_none_iff.mp place).2
  refine ⟨_, _, shelves_start, made, run, unfound, ?_⟩
  rw [resolution_forgets_lookups shelves_start run unfound, resolves, value, deep_unknown]
  rfl

end Sample

end Registry
end Lineage
