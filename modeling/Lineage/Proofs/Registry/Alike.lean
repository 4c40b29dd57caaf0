import Lineage.Proofs.Registry.Hosts
import Lineage.Proofs.Registry.Numbers

/-!
Worlds that answer alike. To load the parameters, the metadata or the operations of an entry early
makes no difference to any later lookup: whatever is loaded later reads as it would have. So two
worlds that only such loading sets apart give the same answers, and lookups keep them that way. An
entry is told by its number here, and whoever can be come by must have one to itself.
-/
namespace Lineage

open World Action

/-! ### What the parts of an entry read as -/

namespace Registry

def ownIn (r : Registry) (x : Entry) (c : Cells) (d : Disk) : Except Error Params :=
  match c.own with
  | some params => .ok params
  | none => mapOn "parameters" x r.config.parameters d

def metadataIn (r : Registry) (x : Entry) (c : Cells) (d : Disk) : Except Error Params :=
  match c.metadata with
  | some fields => .ok fields
  | none =>
    if r.metadataPlace = r.config.parameters then r.ownIn x c d
    else mapOn "meta" x r.metadataPlace d

/-- The operations that metadata give an entry. -/
def operationsNamed (r : Registry) (x : Entry) (fields : Params) : Except Error (Option Namespace) :=
  match Table.get? fields r.config.operationsKey with
  | none | some .null => .ok none
  | some (.str name) => .ok (Table.get? r.catalog name)
  | some other =>
    .error (.malformed <|
      s!"'{r.config.operationsKey}' of entry '{x.name}' must name a namespace, found "
        ++ other.compact)

def operationsIn (r : Registry) (x : Entry) (c : Cells) (d : Disk) :
    Except Error (Option Namespace) :=
  match c.operations with
  | some found => .ok found
  | none => r.metadataIn x c d >>= r.operationsNamed x

/-- Cells in which the parts of an entry read the same. -/
structure SameParts (r : Registry) (d : Disk) (x : Entry) (c c' : Cells) : Prop where
  own : r.ownIn x c' d = r.ownIn x c d
  metadata : r.metadataIn x c' d = r.metadataIn x c d
  operations : r.operationsIn x c' d = r.operationsIn x c d

namespace SameParts

variable {r : Registry} {d : Disk} {x : Entry} {c c' c'' : Cells}

theorem refl : r.SameParts d x c c := ⟨rfl, rfl, rfl⟩

theorem symm (h : r.SameParts d x c c') : r.SameParts d x c' c :=
  ⟨h.own.symm, h.metadata.symm, h.operations.symm⟩

theorem trans (h : r.SameParts d x c c') (h' : r.SameParts d x c' c'') : r.SameParts d x c c'' :=
  ⟨h'.own.trans h.own, h'.metadata.trans h.metadata, h'.operations.trans h.operations⟩

theorem withParent (found : Option (Option Entry)) :
    r.SameParts d x c { c with parent := found } := ⟨rfl, rfl, rfl⟩

theorem keepOwn {params : Params} (read : r.ownIn x c d = .ok params) :
    r.SameParts d x c { c with own := some params } := by
  have own : r.ownIn x { c with own := some params } d = r.ownIn x c d := read.symm
  have metadata : r.metadataIn x { c with own := some params } d = r.metadataIn x c d := by
    rw [metadataIn, metadataIn, own]
  exact ⟨own, metadata, by rw [operationsIn, operationsIn, metadata]⟩

theorem keepMetadata {fields : Params} (read : r.metadataIn x c d = .ok fields) :
    r.SameParts d x c { c with metadata := some fields } := by
  have metadata : r.metadataIn x { c with metadata := some fields } d = r.metadataIn x c d :=
    read.symm
  exact ⟨rfl, metadata, by rw [operationsIn, operationsIn, metadata]⟩

theorem keepOperations {found : Option Namespace} (read : r.operationsIn x c d = .ok found) :
    r.SameParts d x c { c with operations := some found } :=
  ⟨rfl, rfl, read.symm⟩

end SameParts

/-- An action that reads a part of an entry and at most keeps what it has read on the way. -/
structure Reading {α : Type} (r : Registry) (x : Entry) (act : Action α)
    (read : Cells → Disk → Except Error α) : Prop where
  apply : ∀ w, w.Holds x → ∃ c, act w = result (read (w.cellsOf x) w.disk) (w.setCells x c) ∧
    r.SameParts w.disk x (w.cellsOf x) c ∧ c.parent = (w.cellsOf x).parent
  same : ∀ d c c', r.SameParts d x c c' → read c' d = read c d

end Registry

namespace World

theorem setCells_cellsOf (w : World) (x : Entry) : w.setCells x (w.cellsOf x) = w := by
  have : w.cells.set x.id (w.cellsOf x) = w.cells := by
    refine List.ext_getElem (by simp) fun i _ hi => ?_
    rw [List.getElem_set]
    split
    · rename_i same
      subst same
      simp [cellsOf, hi]
    · rfl
  rw [setCells, this]

theorem setCells_setCells (w : World) (x : Entry) (c c' : Cells) :
    (w.setCells x c).setCells x c' = w.setCells x c' := by
  simp [setCells]

end World

namespace Registry

theorem own_reading (r : Registry) (x : Entry) : r.Reading x (r.own x) (r.ownIn x) where
  same _ _ _ h := h.own
  apply w _ := by
    rw [own_apply, ownIn]
    cases known : (w.cellsOf x).own with
    | some params =>
        refine ⟨w.cellsOf x, ?_, .refl, rfl⟩
        rw [setCells_cellsOf]
        rfl
    | none =>
        dsimp only
        cases read : mapOn "parameters" x r.config.parameters w.disk with
        | error err =>
            refine ⟨w.cellsOf x, ?_, .refl, rfl⟩
            rw [setCells_cellsOf]
            rfl
        | ok params => exact ⟨_, rfl, .keepOwn (by rw [ownIn, known, read]), rfl⟩

/-- Reading a map of an entry keeps nothing. -/
theorem readMap_reading (r : Registry) (x : Entry) (what : String) (place : DocumentPlace) :
    r.Reading x (readMap what x place) fun _ d => mapOn what x place d where
  same _ _ _ _ := rfl
  apply w _ := by
    refine ⟨w.cellsOf x, ?_, .refl, rfl⟩
    rw [readMap_eq_mapOn, setCells_cellsOf]

/-- A part that is found out once is read, if what finds it out is. -/
theorem Reading.once {r : Registry} {x : Entry} {β : Type} {part : Cells.Part β} {find : Action β}
    {read readPart : Cells → Disk → Except Error β} (h : r.Reading x find read)
    (same : ∀ d c c', r.SameParts d x c c' → readPart c' d = readPart c d)
    (known : ∀ b c d, part.known c = some b → readPart c d = .ok b)
    (unknown : ∀ c d, part.known c = none → readPart c d = read c d)
    (keep : ∀ b c d, readPart c d = .ok b → r.SameParts d x c (part.keep b c))
    (parent : ∀ b c, (part.keep b c).parent = c.parent) :
    r.Reading x (Registry.once part x find) readPart where
  same := same
  apply w held := by
    cases hk : part.known (w.cellsOf x) with
    | some b =>
        refine ⟨w.cellsOf x, ?_, .refl, rfl⟩
        rw [once_of_known hk, known b _ _ hk, setCells_cellsOf]
        rfl
    | none =>
        obtain ⟨c, hfind, parts, sameParent⟩ := h.apply w held
        rw [once_of_unknown hk, hfind, ← unknown _ _ hk]
        cases hread : readPart (w.cellsOf x) w.disk with
        | error err => exact ⟨c, rfl, parts, sameParent⟩
        | ok b =>
            rw [← same _ _ _ parts] at hread
            refine ⟨part.keep b c, ?_, parts.trans (keep b c _ hread), (parent b c).trans sameParent⟩
            dsimp only [result]
            rw [cellsOf_setCells_self held rfl, setCells_setCells]

theorem metadata_reading (r : Registry) (x : Entry) :
    r.Reading x (r.metadata x) (r.metadataIn x) := by
  have unknown (c : Cells) (d : Disk) (hk : c.metadata = none) : r.metadataIn x c d =
      if r.metadataPlace = r.config.parameters then r.ownIn x c d
      else mapOn "meta" x r.metadataPlace d := by
    rw [metadataIn, hk]
  have find : r.Reading x
      (if r.metadataPlace = r.config.parameters then r.own x else readMap "meta" x r.metadataPlace)
      (fun c d => if r.metadataPlace = r.config.parameters then r.ownIn x c d
        else mapOn "meta" x r.metadataPlace d) := by
    split
    · exact own_reading r x
    · exact readMap_reading r x _ _
  rw [metadata_eq_once]
  exact find.once (fun _ _ _ h => h.metadata)
    (fun b c d hk => by rw [metadataIn, show c.metadata = some b from hk])
    unknown (fun _ _ _ => .keepMetadata) fun _ _ => rfl

theorem findOperations_reading (r : Registry) (x : Entry) :
    r.Reading x (r.findOperations x) fun c d => r.metadataIn x c d >>= r.operationsNamed x where
  same _ _ _ h := by rw [h.metadata]
  apply w held := by
    obtain ⟨c, hmeta, parts⟩ := (metadata_reading r x).apply w held
    refine ⟨c, ?_, parts⟩
    rw [findOperations, metadataValue, bind_assoc, bind_apply, hmeta]
    cases r.metadataIn x (w.cellsOf x) w.disk with
    | error err => rfl
    | ok fields =>
        show _ = result (r.operationsNamed x fields) _
        rw [operationsNamed]
        dsimp only [result]
        rw [pure_bind]
        cases Table.get? fields r.config.operationsKey with
        | none => rfl
        | some value => cases value <;> rfl

theorem operations_reading (r : Registry) (x : Entry) :
    r.Reading x (r.operations x) (r.operationsIn x) := by
  rw [operations_eq_once]
  exact (findOperations_reading r x).once (fun _ _ _ h => h.operations)
    (fun b c d hk => by rw [operationsIn, show c.operations = some b from hk])
    (fun c d hk => by rw [operationsIn, show c.operations = none from hk])
    (fun _ _ _ => .keepOperations) fun _ _ => rfl

/-! ### Worlds side by side -/

/-- The entry that a lookup starts from, and whom it can come by. -/
def Near (r : Registry) (e : Entry) (w : World) (x : Entry) : Prop :=
  w.Shown (fun y => y = e ∨ y ∈ r.roots) x

/-- Whoever is near is an entry of the world, with a number to itself. -/
def Tells (r : Registry) (e : Entry) (w : World) : Prop :=
  w.Numbers fun y => y = e ∨ y ∈ r.roots

/-- A later world, where whoever was near still is and reads the same. -/
structure Reads (r : Registry) (e : Entry) (w u : World) : Prop where
  disk : u.disk = w.disk
  near : ∀ x, r.Near e w x → r.Near e u x
  parts : ∀ x, r.Near e w x → r.SameParts w.disk x (w.cellsOf x) (u.cellsOf x)

/-- A later world in which nobody's parent has been found either. -/
structure Peeks (r : Registry) (e : Entry) (w u : World) : Prop extends Reads r e w u where
  parent : ∀ x, (u.cellsOf x).parent = (w.cellsOf x).parent

/-- And nobody has come to be known by name. -/
structure Seeks (r : Registry) (e : Entry) (w u : World) : Prop extends Peeks r e w u where
  byName : u.byName = w.byName

/-- Worlds that only the loading of entries sets apart, and in which whoever is near reads the
same. -/
structure Alike (r : Registry) (e : Entry) (w w' : World) : Prop where
  disk : w'.disk = w.disk
  size : w'.cells.length = w.cells.length
  byPath : w'.byPath = w.byPath
  byName : w'.byName = w.byName
  parent : ∀ x, (w'.cellsOf x).parent = (w.cellsOf x).parent
  parts : ∀ x, r.Near e w x → r.SameParts w.disk x (w.cellsOf x) (w'.cellsOf x)

variable {r : Registry} {e x : Entry} {w w' u : World}

/-- An entry in hand or come by, and whoever is near it, has a number to itself. -/
theorem Genuine.tells {S : Entry → Prop} (h : r.Genuine S w) (shown : w.Shown S e) : r.Tells e w := by
  refine (h.numbers.2.give shown).mono fun y hy => ?_
  rcases hy with rfl | root
  · exact .inr rfl
  · exact .inl (h.roots y root)

theorem Near.self : r.Near e w e := .given (.inl rfl)

theorem Near.root (h : x ∈ r.roots) : r.Near e w x := .given (.inr h)

theorem Near.alike (h : r.Alike e w w') (near : r.Near e w x) : r.Near e w' x :=
  near.keep (recalls_of_tables h.byPath h.byName) fun y _ hp => (h.parent y).trans hp

namespace Alike

theorem refl : r.Alike e w w := ⟨rfl, rfl, rfl, rfl, fun _ => rfl, fun _ _ => .refl⟩

theorem symm (h : r.Alike e w w') : r.Alike e w' w where
  disk := h.disk.symm
  size := h.size.symm
  byPath := h.byPath.symm
  byName := h.byName.symm
  parent x := (h.parent x).symm
  parts x near :=
    have near : r.Near e w x := near.keep (recalls_of_tables h.byPath.symm h.byName.symm)
      fun y _ hp => (h.parent y).symm.trans hp
    h.disk ▸ (h.parts x near).symm

theorem trans (h : r.Alike e w w') (h' : r.Alike e w' u) : r.Alike e w u where
  disk := h'.disk.trans h.disk
  size := h'.size.trans h.size
  byPath := h'.byPath.trans h.byPath
  byName := h'.byName.trans h.byName
  parent x := (h'.parent x).trans (h.parent x)
  parts x near := (h.parts x near).trans (h.disk ▸ h'.parts x (near.alike h))

theorem seeks (h : r.Alike e w w') : r.Seeks e w w' :=
  ⟨⟨⟨h.disk, fun _ => .alike h, h.parts⟩, h.parent⟩, h.byName⟩

theorem tells (h : r.Alike e w w') (tells : r.Tells e w) : r.Tells e w' :=
  tells.of_shown (Nat.le_of_eq h.size.symm) fun _ => Near.alike h.symm

end Alike

theorem reads_course (r : Registry) (e : Entry) : Course (r.Reads e) where
  refl _ := Alike.refl.seeks.toReads
  trans h h' := ⟨h'.disk.trans h.disk, fun x near => h'.near x (h.near x near),
    fun x near => (h.parts x near).trans (h.disk ▸ h'.parts x (h.near x near))⟩

theorem peeks_course (r : Registry) (e : Entry) : Course (r.Peeks e) where
  refl _ := Alike.refl.seeks.toPeeks
  trans h h' := ⟨(reads_course r e).trans h.toReads h'.toReads,
    fun x => (h'.parent x).trans (h.parent x)⟩

theorem seeks_course (r : Registry) (e : Entry) : Course (r.Seeks e) where
  refl _ := Alike.refl.seeks
  trans h h' := ⟨(peeks_course r e).trans h.toPeeks h'.toPeeks, h'.byName.trans h.byName⟩

/-- Two lookups that come to the same, from worlds that are alike: both fail with one error, or both
answer the same and the answer has `Q`. They go along `R` to worlds that are alike. -/
inductive Paired {α : Type} (r : Registry) (e : Entry) (R : World → World → Prop) (w : World)
    (Q : α → World → Prop) : EStateM.Result Error World α → EStateM.Result Error World α → Prop
  | ok {u u' a} (tells : r.Tells e u) (along : R w u) (alike : r.Alike e u u') (h : Q a u) :
      Paired r e R w Q (.ok a u) (.ok a u')
  | error {u u' err} (tells : r.Tells e u) (along : R w u) (alike : r.Alike e u u') :
      Paired r e R w Q (.error err u) (.error err u')

/-- An action that worlds which are alike answer alike, where the first of them has `P`. -/
def Even {α : Type} (r : Registry) (e : Entry) (R : World → World → Prop) (P : World → Prop)
    (act : Action α) (Q : α → World → Prop) : Prop :=
  ∀ w w', r.Tells e w → r.Alike e w w' → P w → r.Paired e R w Q (act w) (act w')

section

variable {α β : Type} {R : World → World → Prop} {P : World → Prop} {Q : α → World → Prop}

theorem Paired.later (course : Course R) {out out' : EStateM.Result Error World α} (along : R w u)
    (h : r.Paired e R u Q out out') : r.Paired e R w Q out out' := by
  cases h with
  | ok tells along' alike h => exact .ok tells (course.trans along along') alike h
  | error tells along' alike => exact .error tells (course.trans along along') alike

theorem Paired.imp {R' : World → World → Prop} {Q' : α → World → Prop}
    {out out' : EStateM.Result Error World α} (h : r.Paired e R w Q out out')
    (hR : ∀ u, R w u → R' w u) (hQ : ∀ a u, Q a u → Q' a u) : r.Paired e R' w Q' out out' := by
  cases h with
  | ok tells along alike h => exact .ok tells (hR _ along) alike (hQ _ _ h)
  | error tells along alike => exact .error tells (hR _ along) alike

namespace Even

theorem pure (course : Course R) {a : α} (h : ∀ w, P w → Q a w) : r.Even e R P (pure a) Q :=
  fun w _ tells alike hp => .ok tells (course.refl w) alike (h w hp)

theorem throw (course : Course R) (err : Error) : r.Even e R P (throw err : Action α) Q :=
  fun w _ tells alike _ => .error tells (course.refl w) alike

theorem weaken {P' : World → Prop} {Q' : α → World → Prop} {act : Action α} (h : r.Even e R P act Q)
    (hP : ∀ w, P' w → P w) (hQ : ∀ a w, Q a w → Q' a w) : r.Even e R P' act Q' :=
  fun w w' tells alike hp => (h w w' tells alike (hP w hp)).imp (fun _ h => h) hQ

theorem mono {R' : World → World → Prop} {act : Action α} (h : r.Even e R P act Q)
    (hR : ∀ w u, R w u → R' w u) : r.Even e R' P act Q :=
  fun w w' tells alike hp => (h w w' tells alike hp).imp (hR w) fun _ _ h => h

/-- What comes second starts where the first has come to from a world with `P`. -/
theorem bind (course : Course R) {act : Action α} {next : α → Action β} {Q' : β → World → Prop}
    (h : r.Even e R P act Q)
    (hn : ∀ a w, P w → r.Even e R (fun u => R w u ∧ Q a u) (next a) Q') :
    r.Even e R P (act >>= next) Q' := by
  intro w w' tells alike hp
  have first := h w w' tells alike hp
  rw [bind_apply, bind_apply]
  generalize act w = out, act w' = out' at first ⊢
  cases first with
  | ok tells along alike hq => exact (hn _ w hp _ _ tells alike ⟨along, hq⟩).later course along
  | error tells along alike => exact .error tells along alike

/-- Loops answer alike if their steps do, each in a state that the one before has led to. -/
theorem loop (course : Course R) {σ : Type} {step : Round σ α} {I : σ → World → Prop}
    (h : ∀ s, r.Even e R (I s) (step s) fun next u => next.elim (I · u) (Q · u)) (s : σ) :
    r.Even e R (I s) (loop step s) Q := by
  have ends {s : σ} {w : World} {out : EStateM.Result Error World α} (run : step.run s w = some out) :
      ∀ w', r.Tells e w → r.Alike e w w' → I s w →
        ∃ out', step.run s w' = some out' ∧ r.Paired e R w Q out out' := by
    refine run_induct (motive := fun s w out => ∀ w', r.Tells e w → r.Alike e w w' → I s w →
      ∃ out', step.run s w' = some out' ∧ r.Paired e R w Q out out') (fun s w => ?_) run
    have one := h s w
    cases hs : step s w with
    | error err u =>
        intro w' tells alike hi
        have first := hs ▸ one w' tells alike hi
        generalize hs' : step s w' = out' at first
        cases first with
        | error tells along alike => exact ⟨_, run_of_error hs', .error tells along alike⟩
    | ok next u =>
        cases next with
        | inr a =>
            intro w' tells alike hi
            have first := hs ▸ one w' tells alike hi
            generalize hs' : step s w' = out' at first
            cases first with
            | ok tells along alike hq => exact ⟨_, run_of_inr hs', .ok tells along alike hq⟩
        | inl t =>
            intro out ih w' tells alike hi
            have first := hs ▸ one w' tells alike hi
            generalize hs' : step s w' = out' at first
            cases first with
            | ok tells along alike hi =>
                obtain ⟨out', run, paired⟩ := ih _ tells alike hi
                exact ⟨out', (run_of_inl hs').trans run, paired.later course along⟩
  have endsBack {s : σ} {w' : World} {out' : EStateM.Result Error World α}
      (run : step.run s w' = some out') :
      ∀ w, r.Tells e w → r.Alike e w w' → I s w → ∃ out, step.run s w = some out := by
    refine run_induct (motive := fun s w' _ => ∀ w, r.Tells e w → r.Alike e w w' → I s w →
      ∃ out, step.run s w = some out) (fun s w' => ?_) run
    have one (w : World) := h s w w'
    cases hs' : step s w' with
    | error err u' =>
        intro w tells alike hi
        have first := hs' ▸ one w tells alike hi
        generalize hs : step s w = out at first
        cases first with
        | error _ _ _ => exact ⟨_, run_of_error hs⟩
    | ok next u' =>
        cases next with
        | inr a =>
            intro w tells alike hi
            have first := hs' ▸ one w tells alike hi
            generalize hs : step s w = out at first
            cases first with
            | ok _ _ _ _ => exact ⟨_, run_of_inr hs⟩
        | inl t =>
            intro out' ih w tells alike hi
            have first := hs' ▸ one w tells alike hi
            generalize hs : step s w = out at first
            cases first with
            | ok tells _ alike hi =>
                obtain ⟨out, run⟩ := ih _ tells alike hi
                exact ⟨out, (run_of_inl hs).trans run⟩
  intro w w' tells alike hi
  cases run : step.run s w with
  | some out =>
      obtain ⟨out', run', paired⟩ := ends run w' tells alike hi
      rwa [loop_of_some run, loop_of_some run']
  | none =>
      have run' : step.run s w' = none := by
        refine Option.eq_none_iff_forall_not_mem.mpr fun out' hout => ?_
        obtain ⟨out, some⟩ := endsBack hout w tells alike hi
        rw [run] at some
        cases some
      rw [Action.loop, Action.loop, run, run']
      exact .error tells (course.refl w) alike

end Even
end

end Registry
end Lineage
