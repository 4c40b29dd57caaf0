import Lineage.Proofs.Registry.Lookups

/-!
What lookups add to a world. An entry that was not there before was made at its place, which is
normal, and is the only one of its number. It knows nothing but what its documents say; where there
is none, it has no parameters, no metadata and no parent.
-/
namespace Lineage

open World Action

/-- There is no document at a place of an entry. -/
def Entry.Bare (e : Entry) (place : DocumentPlace) (d : Disk) : Prop :=
  d.exists? (e.filePath place.file) = false

namespace Registry

/-- Nothing is known of an entry for which it has no document. -/
structure Blank (r : Registry) (d : Disk) (e : Entry) (c : Cells) : Prop where
  own : e.Bare r.config.parameters d → ∀ params, c.own = some params → params = []
  metadata : e.Bare r.metadataPlace d → ∀ fields, c.metadata = some fields → fields = []
  parent : e.Bare r.metadataPlace d → ∀ found, c.parent = some found → found = none

theorem blank_empty (r : Registry) (d : Disk) (e : Entry) : r.Blank d e {} :=
  ⟨by simp, by simp, by simp⟩

/-- An entry that an earlier world has, or the one that is known at its path by now. -/
def Met (w₀ w : World) (e : Entry) : Prop := w₀.Holds e ∨ w.Known e

/-- A world that lookups have come to from `w₀`. -/
structure Since (r : Registry) (w₀ w : World) : Prop where
  sound : w.Sound
  disk : w.disk = w₀.disk
  grows : w₀.Grows w
  old : ∀ e, w.Listed e → w₀.Holds e → w₀.Listed e
  listed : ∀ e, w.Listed e → Met w₀ w e
  parent : ∀ e p, (w.cellsOf e).parent = some (some p) → Met w₀ w p
  normal : ∀ e, w.Known e → ¬ w₀.Holds e → e.path.normalize = e.path
  alone : ∀ e e', w.Known e → w.Known e' → ¬ w₀.Holds e → e.id = e'.id → e = e'
  blank : ∀ e, w.Known e → ¬ w₀.Holds e → r.Blank w₀.disk e (w.cellsOf e)

variable {r : Registry} {w₀ w w' : World} {e : Entry}

theorem Met.recalls (h : Met w₀ w e) (recalls : w.Recalls w') : Met w₀ w' e :=
  h.imp_right recalls.known

namespace Since

theorem refl (sound : w.Sound) : r.Since w w where
  sound := sound
  disk := rfl
  grows := Nat.le_refl _
  old _ listed _ := listed
  listed _ listed := .inl (sound.holds_of_listed listed)
  parent e p h := .inl (sound.parent e p h)
  normal _ known new := absurd (sound.holds_of_known known) new
  alone _ _ known _ new := absurd (sound.holds_of_known known) new
  blank _ known new := absurd (sound.holds_of_known known) new

theorem known (_ : r.Since w₀ w) (met : Met w₀ w e) (new : ¬ w₀.Holds e) : w.Known e :=
  met.resolve_left new

theorem holds (h : r.Since w₀ w) (met : Met w₀ w e) : w.Holds e :=
  met.elim h.grows.holds h.sound.holds_of_known

/-! ### Steps -/

theorem enroll {place : Path} (h : r.Since w₀ w) (normal : place.normalize = place)
    (new : Table.get? w.byPath place.components = none) (name : String) :
    r.Since w₀ (w.enroll place name) := by
  have recalls := recalls_enroll new name
  have listed : ∀ e, (w.enroll place name).Listed e →
      e = ⟨w.cells.length, place, name⟩ ∨ w.Listed e := by
    rintro e (⟨key, he⟩ | ⟨key, he⟩)
    · rw [World.enroll, Table.get?_insert] at he
      split at he
      · exact .inl (Option.some.inj he).symm
      · exact .inr (.inl ⟨key, he⟩)
    · exact .inr (.inr ⟨key, he⟩)
  have known : ∀ e, (w.enroll place name).Known e →
      e = ⟨w.cells.length, place, name⟩ ∨ w.Known e := by
    intro e he
    rw [Known, World.enroll, Table.get?_insert] at he
    split at he
    · exact .inl (Option.some.inj he).symm
    · exact .inr he
  have newcomer : ¬ w₀.Holds ⟨w.cells.length, place, name⟩ := Nat.not_lt.mpr h.grows
  have apart : ∀ e, w.Known e → e.id ≠ w.cells.length :=
    fun e he => Nat.ne_of_lt (h.sound.holds_of_known he)
  exact {
    sound := h.sound.enroll place name
    disk := h.disk
    grows := Nat.le_trans h.grows (by simp [World.enroll])
    old := fun e he held => by
      rcases listed e he with rfl | he
      · exact absurd held newcomer
      · exact h.old e he held
    listed := fun e he => by
      rcases listed e he with rfl | he
      · exact .inr (known_enroll w place name)
      · exact (h.listed e he).recalls recalls
    parent := fun e p hp => (h.parent e p (cellsOf_enroll w place name e ▸ hp)).recalls recalls
    normal := fun e he new => by
      rcases known e he with rfl | he
      · exact normal
      · exact h.normal e he new
    alone := fun e e' he he' new same => by
      rcases known e he with rfl | he <;> rcases known e' he' with rfl | he'
      · rfl
      · exact absurd same.symm (apart e' he')
      · exact absurd same (apart e he)
      · exact h.alone e e' he he' new same
    blank := fun e he new => by
      rw [cellsOf_enroll]
      rcases known e he with rfl | he
      · rw [cellsOf_of_not_holds (Nat.lt_irrefl _)]
        exact blank_empty r w₀.disk _
      · exact h.blank e he new }

theorem setCells {c : Cells} (h : r.Since w₀ w) (met : Met w₀ w e) (sound : (w.setCells e c).Sound)
    (parent : ∀ p, c.parent = some (some p) → Met w₀ w p)
    (blank : ¬ w₀.Holds e → r.Blank w₀.disk e c) : r.Since w₀ (w.setCells e c) where
  sound := sound
  disk := h.disk
  grows := Nat.le_trans h.grows (by simp [World.setCells])
  old := h.old
  listed := h.listed
  parent x p hp := by
    rcases cellsOf_setCells_cases w e x c with ⟨-, hc⟩ | hc
    · exact parent p (hc ▸ hp)
    · exact h.parent x p (hc ▸ hp)
  normal := h.normal
  alone := h.alone
  blank x known new := by
    rcases cellsOf_setCells_cases w e x c with ⟨same, hc⟩ | hc
    · have newcomer : ¬ w₀.Holds e := fun held => new (by rwa [Holds, same])
      obtain rfl := h.alone x e known (h.known met newcomer) new same
      rw [hc]
      exact blank new
    · rw [hc]
      exact h.blank x known new

theorem knowName {name : String} (h : r.Since w₀ w) (listed : w.Listed e) :
    r.Since w₀ { w with byName := Table.insert w.byName name e } := by
  have before : ∀ x, ({ w with byName := Table.insert w.byName name e } : World).Listed x →
      w.Listed x := by
    rintro x (⟨key, hx⟩ | ⟨key, hx⟩)
    · exact .inl ⟨key, hx⟩
    · rw [Table.get?_insert] at hx
      split at hx
      · exact Option.some.inj hx ▸ listed
      · exact .inr ⟨key, hx⟩
  exact {
    sound := h.sound.knowName name (h.sound.holds_of_listed listed)
    disk := h.disk
    grows := h.grows
    old := fun x hx => h.old x (before x hx)
    listed := fun x hx => h.listed x (before x hx)
    parent := h.parent
    normal := h.normal
    alone := h.alone
    blank := h.blank }

end Since

/-! ### Parts of entries -/

theorem once_since {β : Type} {part : Cells.Part β} {find : Action β} {b : β}
    (h : r.Since w₀ w) (met : Met w₀ w e) (ok : once part e find w = .ok b w') (sound : w'.Sound)
    (finds : ∀ w₁, find w = .ok b w₁ → r.Since w₀ w₁ ∧ w.Recalls w₁ ∧
      (∀ p, (part.keep b (w₁.cellsOf e)).parent = some (some p) → Met w₀ w₁ p) ∧
      (r.Blank w₀.disk e (w₁.cellsOf e) → ¬ w₀.Holds e →
        r.Blank w₀.disk e (part.keep b (w₁.cellsOf e)))) :
    r.Since w₀ w' ∧ part.known (w'.cellsOf e) = some b ∧
      (¬ w₀.Holds e → r.Blank w₀.disk e (w'.cellsOf e)) := by
  cases hk : part.known (w.cellsOf e) with
  | some found =>
      rw [once_of_known hk] at ok
      cases ok
      exact ⟨h, hk, fun new => h.blank e (h.known met new) new⟩
  | none =>
      rw [once_of_unknown hk] at ok
      cases hf : find w with
      | error err w₁ => rw [hf] at ok; cases ok
      | ok found w₁ =>
          rw [hf] at ok
          cases ok
          obtain ⟨h₁, recalls, parent, blank⟩ := finds w₁ hf
          have met₁ := met.recalls recalls
          have cells := cellsOf_setCells_self (h₁.holds met₁) rfl (part.keep b (w₁.cellsOf e))
          have blank : ¬ w₀.Holds e → r.Blank w₀.disk e (part.keep b (w₁.cellsOf e)) :=
            fun new => blank (h₁.blank e (h₁.known met₁ new) new) new
          rw [cells]
          exact ⟨h₁.setCells met₁ sound parent blank, part.known_keep _ _, blank⟩

theorem readMap_of_bare {what : String} {place : DocumentPlace} {fields : Params}
    (bare : e.Bare place w.disk) (ok : readMap what e place w = .ok fields w') : fields = [] := by
  have load : w.disk.load (e.filePath place.file) place.path = .ok (.obj [], false) := by
    rw [Disk.load, show w.disk.exists? (e.filePath place.file) = false from bare]
    rfl
  have read : mapOn what e place w.disk = .ok [] := by
    rw [mapOn, load]
    rfl
  rw [readMap_eq_mapOn, read] at ok
  cases ok
  rfl

theorem readMap_world {what : String} {place : DocumentPlace} {fields : Params}
    (ok : readMap what e place w = .ok fields w') : w' = w := by
  rw [readMap_eq_mapOn] at ok
  exact (ok_eq_result.mp ok.symm).2.symm

/-- A new entry without a document has no own parameters. -/
theorem own_since {params : Params} (h : r.Since w₀ w) (met : Met w₀ w e)
    (ok : r.own e w = .ok params w') : r.Since w₀ w' ∧
      (¬ w₀.Holds e → e.Bare r.config.parameters w₀.disk → params = []) := by
  have sound := ((own_along r e).of_ok h.sound trivial ok).2.1
  rw [own_eq_once] at ok
  obtain ⟨since, known, blank⟩ := once_since h met ok sound fun w₁ found => by
    obtain rfl := readMap_world found
    refine ⟨h, recalls_course.refl _, fun p => h.parent e p, fun blank new => ?_⟩
    refine ⟨fun bare params hp => ?_, blank.metadata, blank.parent⟩
    cases hp
    exact readMap_of_bare (h.disk ▸ bare) found
  exact ⟨since, fun new bare => (blank new).own bare _ known⟩

theorem metadata_since {fields : Params} (h : r.Since w₀ w) (met : Met w₀ w e)
    (ok : r.metadata e w = .ok fields w') : r.Since w₀ w' ∧
      (¬ w₀.Holds e → e.Bare r.metadataPlace w₀.disk → fields = []) := by
  have sound := ((metadata_along r e).of_ok h.sound trivial ok).2.1
  rw [metadata_eq_once] at ok
  obtain ⟨since, known, blank⟩ := once_since h met ok sound fun w₁ found => by
    have keeps (h₁ : r.Since w₀ w₁)
        (none : ¬ w₀.Holds e → e.Bare r.metadataPlace w₀.disk → fields = []) :
        (∀ p, (Cells.Part.metadata.keep fields (w₁.cellsOf e)).parent = some (some p) →
          Met w₀ w₁ p) ∧ (r.Blank w₀.disk e (w₁.cellsOf e) → ¬ w₀.Holds e →
            r.Blank w₀.disk e (Cells.Part.metadata.keep fields (w₁.cellsOf e))) := by
      refine ⟨fun p => h₁.parent e p, fun blank new => ?_⟩
      refine ⟨blank.own, fun bare fields hf => ?_, blank.parent⟩
      cases hf
      exact none new bare
    split at found
    · rename_i same
      obtain ⟨h₁, none⟩ := own_since h met found
      have hr := ((own_along r e).of_ok h.sound trivial found).1
      exact ⟨h₁, hr.recalls, keeps h₁ (same ▸ none)⟩
    · obtain rfl := readMap_world found
      exact ⟨h, recalls_course.refl _, keeps h fun _ bare => readMap_of_bare (h.disk ▸ bare) found⟩
  exact ⟨since, fun new bare => (blank new).metadata bare _ known⟩

theorem metadataValue_since {key : String} {value : Option Json} (h : r.Since w₀ w)
    (met : Met w₀ w e) (ok : r.metadataValue e key w = .ok value w') : r.Since w₀ w' ∧
      (¬ w₀.Holds e → e.Bare r.metadataPlace w₀.disk → value = none) := by
  obtain ⟨fields, w₁, found, ok⟩ := bind_eq_ok_iff.mp ok
  cases ok
  obtain ⟨since, blank⟩ := metadata_since h met found
  refine ⟨since, fun new bare => ?_⟩
  rw [blank new bare]
  rfl

/-! ### Entries by path and by name -/

theorem byPath_since {p : Path} (h : r.Since w₀ w) (ok : byPath p w = .ok e w') :
    r.Since w₀ w' := by
  cases hp : Table.get? w.byPath p.normalize.components with
  | some x =>
      rw [byPath_of_known hp] at ok
      cases ok
      exact h
  | none =>
      rw [byPath_of_unknown hp] at ok
      cases ok
      exact h.enroll p.normalize_normalize hp _

theorem indexed_since {c : Entry} {name : String} {found : Option Entry} (h : r.Since w₀ w)
    (met : Met w₀ w c) (ok : r.indexed c name w = .ok found w') : r.Since w₀ w' := by
  obtain ⟨params, w₁, own, ok⟩ := bind_eq_ok_iff.mp ok
  have h₁ := (own_since h met own).1
  cases hp : (Table.get? (indexOf params) name).bind Json.str? with
  | none =>
      rw [hp] at ok
      cases ok
      exact h₁
  | some place =>
      rw [hp] at ok
      obtain ⟨e, w₂, path, ok⟩ := bind_eq_ok_iff.mp ok
      cases ok
      exact byPath_since h₁ path

theorem searched_since {c : Entry} {item : String} {found : Option Entry} (h : r.Since w₀ w)
    (met : Met w₀ w c) (ok : r.searched c item w = .ok found w') : r.Since w₀ w' := by
  rw [searched] at ok
  split at ok
  · obtain ⟨e, w₁, path, ok⟩ := bind_eq_ok_iff.mp ok
    cases ok
    exact byPath_since h path
  · obtain ⟨e, w₁, index, ok⟩ := bind_eq_ok_iff.mp ok
    have h₁ := indexed_since h met index
    cases e with
    | some e =>
        cases ok
        exact h₁
    | none =>
        dsimp only at ok
        rw [cached_apply] at ok
        cases ok
        exact h₁

/-! ### Searches -/

/-- The collection that a lead starts from. -/
def Lead.start : Lead → Entry
  | .collection c | .item c _ => c

theorem leadsTo_since {lead : Lead} {found : Option Entry} (h : r.Since w₀ w)
    (met : Met w₀ w lead.start) (ok : r.leadsTo lead w = .ok found w') :
    r.Since w₀ w' ∧ ∀ c ∈ found, c = lead.start ∨ w'.Listed c := by
  cases lead with
  | collection c =>
      cases ok
      exact ⟨h, fun e he => .inl (Option.some.inj he).symm⟩
  | item c text =>
      have listed := ((searched_along r c text).of_ok h.sound trivial ok).2.2
      exact ⟨searched_since h met ok, fun e he => .inr (listed e he)⟩

/-- What following a lead comes to: it is passed over, or a collection is visited that was not
visited before, and has the name or further leads. A new collection without a document has none. -/
inductive Pursued (r : Registry) (w₀ w' : World) (lead : Lead) (rest : List Lead)
    (visited : List Path) : Search → Prop
  | passed : Pursued r w₀ w' lead rest visited (.going rest visited)
  | found {c e} (comes : c = lead.start ∨ w'.Listed c) (new : c.path.isIn visited = false) :
      Pursued r w₀ w' lead rest visited (.found e (visited ++ [c.path]))
  | onward {c params} (comes : c = lead.start ∨ w'.Listed c) (new : c.path.isIn visited = false)
      (blank : ¬ w₀.Holds c → c.Bare r.config.parameters w₀.disk → params = []) :
      Pursued r w₀ w' lead rest visited
        (.going ((searchItems params).map (.item c) ++ rest) (visited ++ [c.path]))

theorem pursue_since {name : String} {lead : Lead} {rest : List Lead} {visited : List Path}
    {next : Search} (h : r.Since w₀ w) (met : Met w₀ w lead.start)
    (ok : r.pursue name lead rest visited w = .ok next w') :
    r.Since w₀ w' ∧ r.Pursued w₀ w' lead rest visited next := by
  obtain ⟨found, w₁, leads, ok⟩ := bind_eq_ok_iff.mp ok
  obtain ⟨h₁, comes⟩ := leadsTo_since h met leads
  have hr := ((leadsTo_along r lead).of_ok h.sound trivial leads).1.1
  cases found with
  | none =>
      cases ok
      exact ⟨h₁, .passed⟩
  | some c =>
      have comes := comes c rfl
      have met₁ : Met w₀ w₁ c := by
        rcases comes with rfl | listed
        · exact met.recalls hr.recalls
        · exact h₁.listed c listed
      have listed {w' : World} (hr : w₁.Recalls w') : c = lead.start ∨ w'.Listed c :=
        comes.imp_right fun listed => listed.imp (fun ⟨key, hk⟩ => ⟨key, hr.path _ _ hk⟩)
          fun ⟨key, hk⟩ => ⟨key, hr.name _ _ hk⟩
      dsimp only at ok
      split at ok
      · cases ok
        exact ⟨h₁, .passed⟩
      · rename_i new
        have new := Bool.eq_false_iff.mpr new
        obtain ⟨found, w₂, index, ok⟩ := bind_eq_ok_iff.mp ok
        have h₂ := indexed_since h₁ met₁ index
        have hr₂ := ((indexed_along r c name).of_ok h₁.sound trivial index).1.1
        cases found with
        | some e =>
            cases ok
            exact ⟨h₂, .found (listed hr₂.recalls) new⟩
        | none =>
            obtain ⟨params, w₃, own, ok⟩ := bind_eq_ok_iff.mp ok
            cases ok
            obtain ⟨h₃, blank⟩ := own_since h₂ (met₁.recalls hr₂.recalls) own
            have hr₃ := ((own_along r c).of_ok h₂.sound trivial own).1
            exact ⟨h₃, .onward (listed (recalls_course.trans hr₂.recalls hr₃.recalls)) new blank⟩

/-- The collections that a search goes on from have been met as well. -/
theorem Pursued.met {lead : Lead} {rest leads : List Lead} {visited visited' : List Path}
    (h : r.Since w₀ w') (pursued : r.Pursued w₀ w' lead rest visited (.going leads visited'))
    (met : ∀ l ∈ lead :: rest, Met w₀ w' l.start) : ∀ l ∈ leads, Met w₀ w' l.start := by
  obtain ⟨first, others⟩ := List.forall_mem_cons.mp met
  cases pursued with
  | passed => exact others
  | onward comes _ _ =>
      intro l hl
      rcases List.mem_append.mp hl with hl | hl
      · obtain ⟨item, -, rfl⟩ := List.mem_map.mp hl
        rcases comes with rfl | listed
        · exact first
        · exact h.listed _ listed
      · exact others l hl

theorem search_since {name : String} {leads : List Lead} {visited : List Path} {finding : Finding}
    (h : r.Since w₀ w) (met : ∀ lead ∈ leads, Met w₀ w lead.start)
    (ok : r.search name leads visited w = .ok finding w') : r.Since w₀ w' := by
  rw [search_eq_loop] at ok
  refine (loop_rule (M := fun _ => True) (S := fun _ w => r.Since w₀ w)
    (I := fun s w => r.Since w₀ w ∧ ∀ lead ∈ s.1, Met w₀ w lead.start) (fun _ _ _ => trivial)
    (fun s w hs => ⟨trivial, fun next w' ok => ?_⟩) ⟨h, met⟩).2 finding w' ok
  obtain ⟨h, met⟩ := hs
  obtain ⟨leads, visited⟩ := s
  cases leads with
  | nil =>
      cases ok
      exact h
  | cons lead rest =>
      obtain ⟨next, w₁, hp, ok⟩ := bind_eq_ok_iff.mp ok
      obtain ⟨h₁, pursued⟩ := pursue_since h (met lead List.mem_cons_self) hp
      have hr := ((pursue_along r name lead rest visited).of_ok h.sound trivial hp).1.1
      cases next with
      | found e visited =>
          cases ok
          exact h₁
      | going leads visited =>
          cases ok
          exact ⟨h₁, pursued.met h₁ fun l hl => (met l hl).recalls hr.recalls⟩

/-! ### Parents -/

theorem byName_since {name : String} {found : Option Entry}
    (roots : ∀ root ∈ r.roots, w₀.Holds root) (h : r.Since w₀ w)
    (ok : r.byName name w = .ok found w') : r.Since w₀ w' := by
  cases hn : Table.get? w.byName name with
  | some e =>
      rw [byName_of_cached hn] at ok
      cases ok
      exact h
  | none =>
      have met : ∀ lead ∈ r.roots.map Lead.collection, Met w₀ w lead.start :=
        List.forall_mem_map.mpr fun root hroot => .inl (roots root hroot)
      rw [byName_of_unknown hn] at ok
      split at ok <;> rename_i hs
      · cases ok
        have listed := ((search_along r name _ _).of_ok h.sound trivial hs).2.2
        exact (search_since h met hs).knowName (listed _ rfl)
      · cases ok
        exact search_since h met hs
      · cases ok

theorem parentNamed_since {reference : String} {found : Option Entry}
    (roots : ∀ root ∈ r.roots, w₀.Holds root) (h : r.Since w₀ w)
    (ok : r.parentNamed e reference w = .ok found w') : r.Since w₀ w' := by
  rw [parentNamed] at ok
  split at ok
  · cases ok
    exact h
  · split at ok
    · obtain ⟨p, w₁, path, ok⟩ := bind_eq_ok_iff.mp ok
      cases ok
      exact byPath_since h path
    · exact byName_since roots h ok

theorem findParent_since {found : Option Entry} (roots : ∀ root ∈ r.roots, w₀.Holds root)
    (h : r.Since w₀ w) (met : Met w₀ w e) (ok : r.findParent e w = .ok found w') :
    r.Since w₀ w' ∧ (¬ w₀.Holds e → e.Bare r.metadataPlace w₀.disk → found = none) := by
  obtain ⟨value, w₁, hv, ok⟩ := bind_eq_ok_iff.mp ok
  obtain ⟨h₁, blank⟩ := metadataValue_since h met hv
  split at ok
  · cases ok
    exact ⟨h₁, fun _ _ => rfl⟩
  · cases ok
    exact ⟨h₁, fun _ _ => rfl⟩
  · refine ⟨parentNamed_since roots h₁ ok, fun new bare => ?_⟩
    cases blank new bare
  · cases ok

/-- A new entry without a document has no parent. -/
theorem parent_since {found : Option Entry} (roots : ∀ root ∈ r.roots, w₀.Holds root)
    (h : r.Since w₀ w) (met : Met w₀ w e) (ok : r.parent e w = .ok found w') :
    r.Since w₀ w' ∧ (¬ w₀.Holds e → e.Bare r.metadataPlace w₀.disk → found = none) := by
  have sound := ((parent_along r e).of_ok h.sound trivial ok).2.1
  rw [parent_eq_once] at ok
  obtain ⟨since, known, blank⟩ := once_since h met ok sound fun w₁ hf => by
    obtain ⟨hr, -, listed⟩ := (findParent_along r e).of_ok h.sound trivial hf
    obtain ⟨h₁, none⟩ := findParent_since roots h met hf
    refine ⟨h₁, hr.recalls, fun p hp => ?_, fun blank new => ?_⟩
    · cases hp
      exact h₁.listed p (listed p rfl)
    · refine ⟨blank.own, blank.metadata, fun bare found hp => ?_⟩
      cases hp
      exact none new bare
  exact ⟨since, fun new bare => (blank new).parent bare _ known⟩

theorem operations_since {found : Option Namespace} (h : r.Since w₀ w) (met : Met w₀ w e)
    (ok : r.operations e w = .ok found w') : r.Since w₀ w' := by
  have sound := ((operations_along r e).of_ok h.sound trivial ok).2.1
  rw [operations_eq_once] at ok
  refine (once_since h met ok sound fun w₁ hf => ?_).1
  obtain ⟨value, w₂, hv, hf⟩ := bind_eq_ok_iff.mp hf
  have hr := ((metadataValue_along r e _).of_ok h.sound trivial hv).1
  have same : w₁ = w₂ := by
    split at hf
    · cases hf
      rfl
    · cases hf
      rfl
    · cases hf
      rfl
    · cases hf
  subst same
  have h₁ := (metadataValue_since h met hv).1
  exact ⟨h₁, hr.recalls, fun p => h₁.parent e p,
    fun blank _ => ⟨blank.own, blank.metadata, blank.parent⟩⟩

end Registry
end Lineage
