import Mathlib.Logic.Relation
import Lineage.Proofs.Registry.Session

/-!
The identity of entries. A registry whose collections are at places of their own has one entry for
each place that comes to be known, whichever way it is looked up, and has it for good. So there are
never two entries that hold parameters of one place.
-/
namespace Lineage

open World Action

namespace World

/-- Who is known stays so, and a faithful world stays faithful. -/
structure Remembers (w w' : World) : Prop extends Recalls w w' where
  faithful : w.Faithful → w'.Faithful

theorem frame_remembers : Frame Remembers where
  refl w := ⟨recalls_course.refl w, fun h => h⟩
  trans h h' := ⟨recalls_course.trans h.toRecalls h'.toRecalls, fun hf => h'.faithful (h.faithful hf)⟩
  lookup h := ⟨h.recalls, h.faithful⟩
  disk _ _ := ⟨recalls_of_tables rfl rfl, fun h => h.of_tables rfl rfl h.parent⟩

theorem bears_remembers (e : Entry) : Bears Remembers e := by
  intro w params
  exact ⟨recalls_of_tables rfl rfl, fun h => h.setCells e fun p hp => h.parent e p hp⟩

theorem faithful_empty (disk : Disk) : ({ disk } : World).Faithful where
  place place e h := by simp at h
  alone e e' h := by simp [Known] at h
  name name e h := by simp at h
  parent e p h := by simp [cellsOf] at h

end World

namespace Registry

variable {r : Registry}

/-- Uses of a registry one after the other. -/
def Later (r : Registry) : World → World → Prop := Relation.ReflTransGen (Use r)

theorem Later.follows {R : World → World → Prop} (frame : Frame R) (bears : ∀ e, Bears R e)
    {w w' : World} (h : Later r w w') (hw : w.Sound) : R w w' ∧ w'.Sound := by
  induction h with
  | refl => exact ⟨frame.refl w, hw⟩
  | tail _ h ih =>
      obtain ⟨hr, hs⟩ := h.follows frame ih.2 fun e _ => bears e
      exact ⟨frame.trans ih.1 hr, hs⟩

theorem Later.remembers {w w' : World} (h : Later r w w') (hw : w.Sound) :
    w.Remembers w' ∧ w'.Sound :=
  h.follows frame_remembers bears_remembers hw

/-! ### The start -/

def rootPlace (base : Path) (spec : CollectionSpec) : Path := (base.join spec.path.text).normalize

theorem createRoot_apply (base : Path) (spec : CollectionSpec) (w : World) :
    createRoot base spec w =
      let root : Entry := ⟨w.cells.length, rootPlace base spec, spec.name⟩
      let w' := w.enroll (rootPlace base spec) spec.name
      .ok root { w' with byName := Table.insert w'.byName spec.name root } := by
  rw [createRoot]
  rfl

/-- Collections at new places that are all different become the entries of their places. -/
theorem mapM_createRoot {base : Path} {specs : List CollectionSpec} {roots : List Entry}
    {w w' : World} (hw : w.Sound) (hf : w.Faithful)
    (new : ∀ spec ∈ specs, Table.get? w.byPath (rootPlace base spec).components = none)
    (distinct : (specs.map (rootPlace base)).Nodup)
    (h : specs.mapM (createRoot base) w = .ok roots w') :
    w'.Sound ∧ w'.Faithful ∧ (∀ e, w.Known e → w'.Known e) ∧ ∀ root ∈ roots, w'.Known root := by
  induction specs generalizing roots w with
  | nil =>
      cases h
      exact ⟨hw, hf, fun _ he => he, fun root hroot => nomatch hroot⟩
  | cons spec specs ih =>
      rw [List.mapM_cons] at h
      obtain ⟨root, w₁, hroot, h⟩ := bind_eq_ok_iff.mp h
      obtain ⟨rest, w₂, hrest, h⟩ := bind_eq_ok_iff.mp h
      cases h
      rw [createRoot_apply] at hroot
      cases hroot
      rw [List.map_cons, List.nodup_cons] at distinct
      obtain ⟨hnew, new⟩ := List.forall_mem_cons.mp new
      have normal : (rootPlace base spec).normalize = rootPlace base spec := Path.normalize_normalize _
      have apart : ∀ s ∈ specs, (rootPlace base spec).components ≠ (rootPlace base s).components := by
        intro s hs he
        have same := Path.eq_of_components normal (Path.normalize_normalize _) he
        exact distinct.1 (same ▸ List.mem_map_of_mem hs)
      have sound := hw.enroll (rootPlace base spec) spec.name
      have faithful := hf.enroll hw normal hnew spec.name
      have known := known_enroll w (rootPlace base spec) spec.name
      have still : ∀ s ∈ specs, Table.get? (w.enroll (rootPlace base spec) spec.name).byPath
          (rootPlace base s).components = none := by
        intro s hs
        rw [World.enroll, Table.get?_insert, if_neg (apart s hs)]
        exact new s hs
      obtain ⟨hs, hf, hknown, hroots⟩ := ih (sound.knowName spec.name (sound.holds_of_known known))
        (faithful.knowName spec.name known) still distinct.2 hrest
      refine ⟨hs, hf, fun e he => hknown e ((recalls_enroll hnew spec.name).known he), fun root hroot => ?_⟩
      rcases List.mem_cons.mp hroot with rfl | hroot
      · exact hknown _ known
      · exact hroots root hroot

/-- A registry starts in a faithful world that knows its roots. -/
theorem ofConfig_faithful {config : Config} {base : Path} {catalog : Catalog}
    {builtins : List Namespace} {disk : Disk} {w : World}
    (start : ofConfig config base catalog builtins { disk } = .ok r w)
    (distinct : (config.collections.map (rootPlace base)).Nodup) :
    w.Sound ∧ w.Faithful ∧ ∀ root ∈ r.roots, w.Known root := by
  obtain ⟨roots, w₁, h, hr⟩ := bind_eq_ok_iff.mp start
  cases hr
  obtain ⟨hs, hf, -, hroots⟩ := mapM_createRoot (sound_empty disk) (faithful_empty disk)
    (fun spec _ => rfl) distinct h
  exact ⟨hs, hf, hroots⟩

/-! ### Ways to find an entry -/

/-- A path is looked up, by whatever way, and leads to an entry. A way that starts from no path leads
to an entry at the path that it has. -/
inductive Finds (r : Registry) (w : World) : Path → Entry → World → Prop
  | root {e} (h : e ∈ r.roots) : Finds r w e.path e w
  | byPath {p e w'} (h : Registry.byPath p w = .ok e w') : Finds r w p e w'
  | indexed {c name params place e w₁ w'} (own : r.own c w = .ok params w₁)
      (index : (Table.get? (indexOf params) name).bind Json.str? = some place)
      (h : r.indexed c name w = .ok (some e) w') : Finds r w (c.filePath place) e w'
  | cached {name e w'} (h : Registry.cached name w = .ok (some e) w') : Finds r w e.path e w'
  | byName {name e w'} (h : r.byName name w = .ok (some e) w') : Finds r w e.path e w'
  | search {name c visited visited' e w'}
      (h : r.searchFrom name c visited w = .ok (some e, visited') w') : Finds r w e.path e w'
  | parent {child e w'} (held : w.Holds child) (h : r.parent child w = .ok (some e) w') :
      Finds r w e.path e w'
  | reference {child reference e w'} (slash : reference.toList.contains '/' = true)
      (h : r.parentNamed child reference w = .ok (some e) w') :
      Finds r w ((child.path.parent?.getD child.path).join reference) e w'

theorem byPath_known {p : Path} {e : Entry} {w w' : World} (hf : w.Faithful)
    (h : byPath p w = .ok e w') : w'.Known e ∧ e.path = p.normalize := by
  cases hp : Table.get? w.byPath p.normalize.components with
  | some x =>
      rw [byPath_of_known hp] at h
      cases h
      obtain ⟨hplace, hnormal⟩ := hf.place _ _ hp
      rw [hplace] at hp
      exact ⟨hp, Path.eq_of_components hnormal (Path.normalize_normalize p) hplace.symm⟩
  | none =>
      rw [byPath_of_unknown hp] at h
      cases h
      exact ⟨known_enroll w _ _, rfl⟩

/-- However an entry is found, it is the one that is known at its path. -/
theorem Finds.known {p : Path} {e : Entry} {w w' : World} (h : Finds r w p e w') (hw : w.Sound)
    (hf : w.Faithful) (roots : ∀ root ∈ r.roots, w.Known root) :
    w'.Known e ∧ e.path = p.normalize ∧ Later r w w' := by
  have listed {γ : Type} {view : Cells → γ} {w' : World} (hr : Extends view w w')
      {e : Entry} (h : w'.Listed e) : w'.Known e ∧ e.path = e.path.normalize := by
    have known := (hr.faithful hf).known_of_listed h
    exact ⟨known, ((hr.faithful hf).normal known).symm⟩
  have used {w' : World} (h : Use r w w') : Later r w w' := .single h
  cases h with
  | root h => exact ⟨roots e h, (hf.normal (roots e h)).symm, .refl⟩
  | byPath h =>
      obtain ⟨known, path⟩ := byPath_known hf h
      exact ⟨known, path, used (after_of_ok h ▸ .request (.byPath p))⟩
  | @indexed c name params place _ w₁ _ own index h =>
      have later : Later r w w' := used (after_of_ok h ▸ .indexed c name)
      rw [Registry.indexed, bind_of_ok own, index] at h
      obtain ⟨found, w₂, hp, h⟩ := bind_eq_ok_iff.mp h
      cases h
      obtain ⟨hr, -⟩ := (own_along r c).of_ok hw trivial own
      obtain ⟨known, path⟩ := byPath_known (hr.faithful hf) hp
      exact ⟨known, path, later⟩
  | @cached name _ _ h =>
      have later : Later r w w' := used (after_of_ok h ▸ .request (.cached name))
      obtain ⟨hr, -, found⟩ := (cached_along name).of_ok hw trivial h
      obtain ⟨known, path⟩ := listed hr.1 (.inr ⟨name, found.symm⟩)
      exact ⟨known, path, later⟩
  | @byName name _ _ h =>
      obtain ⟨hr, -, found⟩ := (byName_along r name).of_ok hw trivial h
      obtain ⟨known, path⟩ := listed hr (found _ rfl)
      exact ⟨known, path, used (after_of_ok h ▸ .request (.byName name))⟩
  | @search name c visited _ _ _ h =>
      obtain ⟨hr, -, found⟩ := (searchFrom_along r name c visited).of_ok hw trivial h
      obtain ⟨known, path⟩ := listed hr.1 (found _ rfl)
      exact ⟨known, path, used (after_of_ok h ▸ .search name c visited)⟩
  | @parent child _ _ held h =>
      obtain ⟨hr, -, -, cell⟩ := (parent_along r child).of_ok hw trivial h
      have faithful := hr.faithful hf
      have known := faithful.parent child e (cell (hr.grows.holds held))
      exact ⟨known, (faithful.normal known).symm, used (after_of_ok h ▸ .request (.parent child))⟩
  | @reference child reference _ _ slash h =>
      have ne : reference ≠ "" := by
        rintro rfl
        cases slash
      rw [parentNamed, if_neg ne, if_pos slash] at h
      obtain ⟨found, w₁, hp, h⟩ := bind_eq_ok_iff.mp h
      cases h
      obtain ⟨known, path⟩ := byPath_known hf hp
      exact ⟨known, path, used (after_of_ok hp ▸ .request (.byPath _))⟩

theorem byName_kept {name : String} {e : Entry} {w w' : World}
    (h : r.byName name w = .ok (some e) w') : Table.get? w'.byName name = some e := by
  cases hn : Table.get? w.byName name with
  | some x =>
      rw [byName_of_cached hn] at h
      cases h
      exact hn
  | none =>
      obtain ⟨-, -, -, -, kept⟩ := byName_eq_ok hn h
      exact kept e rfl

/-! ### The main statement -/

/-- One place has one entry. In every world that a registry with collections at different places
comes to: entries are cached under their own normal paths; roots, named entries and parents are the
cached entries of their paths; what is cached stays; two lookups of one place find one entry, now or
later and whichever ways they take; and a name that was found is the same entry from then on. -/
theorem one_entry_per_place {config : Config} {base : Path} {catalog : Catalog}
    {builtins : List Namespace} {disk : Disk} {w₀ : World}
    (start : ofConfig config base catalog builtins { disk } = .ok r w₀)
    (distinct : (config.collections.map (rootPlace base)).Nodup) {w : World}
    (run : Later r w₀ w) :
    (∀ place e, Table.get? w.byPath place = some e →
      place = e.path.components ∧ e.path.normalize = e.path) ∧
    (∀ root ∈ r.roots, w.Known root) ∧
    (∀ name e, Table.get? w.byName name = some e → w.Known e) ∧
    (∀ child p, (w.cellsOf child).parent = some (some p) → w.Known p) ∧
    (∀ place e, Table.get? w.byPath place = some e →
      ∀ w', Later r w w' → Table.get? w'.byPath place = some e) ∧
    (∀ p e u, Finds r w p e u → ∀ w', Later r u w' → byPath e.path w' = .ok e w' ∧
      ∀ q x u', Finds r w' q x u' → q.normalize = p.normalize → x = e) ∧
    ∀ name e u, r.byName name w = .ok (some e) u →
      ∀ w', Later r u w' → r.byName name w' = .ok (some e) w' := by
  obtain ⟨sound₀, faithful₀, roots₀⟩ := ofConfig_faithful start distinct
  obtain ⟨remembers, sound⟩ := run.remembers sound₀
  have faithful := remembers.faithful faithful₀
  have roots : ∀ root ∈ r.roots, w.Known root := fun root h => remembers.known (roots₀ root h)
  refine ⟨faithful.place, roots, faithful.name, faithful.parent, ?_, ?_, ?_⟩
  · intro place e h w' later
    exact (later.remembers sound).1.path place e h
  · intro p e u found w' later
    obtain ⟨known, path, first⟩ := found.known sound faithful roots
    obtain ⟨remembers, sound⟩ := first.remembers sound
    obtain ⟨remembers', sound'⟩ := later.remembers sound
    have faithful' := remembers'.faithful (remembers.faithful faithful)
    have known' := remembers'.known known
    constructor
    · refine byPath_of_known ?_
      rw [faithful'.normal known']
      exact known'
    · intro q x u' found' same
      have roots' := fun root h => remembers'.known (remembers.known (roots root h))
      obtain ⟨knownx, pathx, second⟩ := found'.known sound' faithful' roots'
      have still := (second.remembers sound').1.known known'
      rw [Known, pathx, same, ← path] at knownx
      exact Option.some.inj (knownx.symm.trans still)
  · intro name e u found w' later
    have sound := ((byName_along r name).of_ok sound trivial found).2.1
    exact byName_of_cached ((later.remembers sound).1.name name e (byName_kept found))

namespace Sample

def twoCollections : Config where
  collections := [⟨"first", ⟨"a"⟩⟩, ⟨"second", ⟨"lib/../b"⟩⟩]

/-- The collection found by its name is the one at a winding path to it, also when another entry has
been made in between. -/
theorem first_collection_found : ∃ r w first other u,
    ofConfig twoCollections ⟨"base"⟩ [] [] { disk := ⟨[], []⟩ } = .ok r w ∧
    (twoCollections.collections.map (rootPlace ⟨"base"⟩)).Nodup ∧
    r.byName "first" w = .ok (some first) w ∧ byPath ⟨"c"⟩ w = .ok other u ∧
    byPath ⟨"base/a"⟩ u = .ok first u ∧
    ∀ x u', byPath ⟨"base/x/../a/."⟩ u = .ok x u' → x = first := by
  obtain ⟨r, w, start⟩ : ∃ r w,
      ofConfig twoCollections ⟨"base"⟩ [] [] { disk := ⟨[], []⟩ } = .ok r w := ⟨_, _, rfl⟩
  have distinct : (twoCollections.collections.map (rootPlace ⟨"base"⟩)).Nodup := by decide
  have finds := (one_entry_per_place start distinct .refl).2.2.2.2.2.1
  have found {e : Entry} (h : r.byName "first" w = .ok (some e) w) : Finds r w e.path e w := .byName h
  cases start
  obtain ⟨here, there⟩ := finds _ _ _ (found rfl) _ (.single (.request (.byPath ⟨"c"⟩)))
  exact ⟨_, _, _, _, _, rfl, distinct, rfl, rfl, here,
    fun x u' h => there ⟨"base/x/../a/."⟩ x u' (.byPath h) (by decide)⟩

end Sample

end Registry
end Lineage
