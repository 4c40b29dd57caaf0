import Mathlib.Logic.Relation
import Lineage.Proofs.Registry.Session
import Lineage.Proofs.Registry.Verdicts

/-!
The stability of what is resolved. Metadata, parents and operations of an entry are found out once
and stay; own parameters are loaded once and then change only by an edit of their entry. So an
ancestry that was walked is the ancestry for good, and so is the verdict on an operation.
-/
namespace Lineage

open World Action

/-- What is found out stays, and own parameters that are loaded stay loaded. -/
structure Cells.Settled (c c' : Cells) : Prop where
  metadata : ∀ fields, c.metadata = some fields → c'.metadata = some fields
  parent : ∀ found, c.parent = some found → c'.parent = some found
  operations : ∀ found, c.operations = some found → c'.operations = some found
  loaded : c.own.isSome = true → c'.own.isSome = true

theorem Cells.Settled.refl (c : Cells) : Cells.Settled c c :=
  ⟨fun _ h => h, fun _ h => h, fun _ h => h, fun h => h⟩

theorem Cells.Settled.of_empty (c : Cells) : Cells.Settled {} c where
  metadata _ h := by cases h
  parent _ h := by cases h
  operations _ h := by cases h
  loaded h := by cases h

theorem Cells.Kept.settled {c c' : Cells} (h : Cells.Kept c c') : Cells.Settled c c' where
  metadata := h.metadata
  parent := h.parent
  operations := h.operations
  loaded hl := by
    obtain ⟨params, hp⟩ := Option.isSome_iff_exists.mp hl
    rw [h.own params hp]
    rfl

namespace World

/-- A world in which all that another had resolved still is. -/
structure Steady (w w' : World) : Prop where
  grows : w.Grows w'
  settled : ∀ e, Cells.Settled (w.cellsOf e) (w'.cellsOf e)

/-- The own parameters of an entry, if loaded, stay the same. -/
def KeepsOwn (e : Entry) (w w' : World) : Prop :=
  ∀ params, (w.cellsOf e).own = some params → (w'.cellsOf e).own = some params

theorem frame_steady : Frame Steady where
  refl _ := ⟨Nat.le_refl _, fun _ => .refl _⟩
  trans h h' := ⟨Nat.le_trans h.grows h'.grows, fun e =>
    ⟨fun f hf => (h'.settled e).metadata f ((h.settled e).metadata f hf),
      fun f hf => (h'.settled e).parent f ((h.settled e).parent f hf),
      fun f hf => (h'.settled e).operations f ((h.settled e).operations f hf),
      fun hl => (h'.settled e).loaded ((h.settled e).loaded hl)⟩⟩
  lookup h := ⟨h.grows, fun e => (h.kept e).settled⟩
  disk _ _ := ⟨Nat.le_refl _, fun _ => .refl _⟩

theorem frame_keepsOwn (e : Entry) : Frame (KeepsOwn e) where
  refl _ _ h := h
  trans h h' params hp := h' params (h params hp)
  lookup h := (h.kept e).own
  disk _ _ _ h := h

theorem bears_steady (e : Entry) : Bears Steady e := by
  intro w params
  refine ⟨by simp [Grows, setCells], fun x => ?_⟩
  rcases cellsOf_setCells_cases w e x { w.cellsOf e with own := some params } with ⟨hx, hc⟩ | hc
  · rw [hc, cellsOf_congr w hx]
    exact ⟨fun _ h => h, fun _ h => h, fun _ h => h, fun _ => rfl⟩
  · rw [hc]
    exact .refl _

theorem bears_keepsOwn {e x : Entry} (h : x.id ≠ e.id) : Bears (KeepsOwn x) e := by
  intro w params own hown
  rwa [cellsOf_setCells_ne h]

end World

namespace Registry

variable {r : Registry}

/-- Adding an entry leaves the cells of those before it alone. -/
theorem create_cells (path : Path) (name : String) (cells : Cells) (w : World) (e : Entry) :
    (after (create path name cells) w).cellsOf e = w.cellsOf e ∨ w.cellsOf e = {} := by
  by_cases h : w.Holds e
  · refine .inl ((cellsOf_append w cells e).trans (if_neg (Nat.ne_of_lt h)))
  · exact .inr (cellsOf_of_not_holds h)

theorem Move.steady {w w' : World} (h : Move r w w') (hw : w.Sound) : w.Steady w' := by
  rcases h.use_or with h | ⟨path, name, cells, -, -, rfl⟩ | ⟨e, -, rfl⟩
  · exact (h.follows frame_steady hw fun e _ => bears_steady e).1
  · refine ⟨by simp [Grows, after, Registry.create], fun e => ?_⟩
    rcases create_cells path name cells w e with hc | hc
    · rw [hc]
      exact .refl _
    · rw [hc]
      exact .of_empty _
  · exact ⟨Nat.le_refl _, fun _ => .refl _⟩

/-- Loaded own parameters are the same after a move, but for one that edits their entry. -/
theorem Move.keepsOwn {w w' : World} (h : Move r w w') (hw : w.Sound) (e : Entry)
    (unedited : ∀ x, x.id = e.id → ¬ Edits r x w w') : KeepsOwn e w w' := by
  rcases h.use_or with h | ⟨path, name, cells, -, -, rfl⟩ | ⟨e, -, rfl⟩
  · refine (h.follows (frame_keepsOwn e) hw fun x hx => bears_keepsOwn fun hid => ?_).1
    exact unedited x hid.symm hx
  · intro params hp
    rcases create_cells path name cells w e with hc | hc
    · rw [hc, hp]
    · rw [hc] at hp
      cases hp
  · exact fun params hp => hp

theorem steady_of_moves {w w' : World} (h : Relation.ReflTransGen (Move r) w w') (hw : w.Sound) :
    w.Steady w' ∧ w'.Sound := by
  induction h with
  | refl => exact ⟨frame_steady.refl w, hw⟩
  | tail _ h ih => exact ⟨frame_steady.trans ih.1 (h.steady ih.2), (h.grows_sound ih.2).2⟩

/-! ### Failures -/

/-- A part of an entry that could not be found out is as unknown as before. -/
theorem once_of_error {β γ : Type} (part : Cells.Part β) {view : Cells → γ} {e : Entry}
    {find : Action β} {Q : β → World → Prop}
    (unfound : ∀ c c', view c = view c' → part.known c = part.known c')
    (h : Along (Extends view) any find Q) {w w' : World} (hw : w.Sound) {err : Error}
    (failed : once part e find w = .error err w') : part.known (w'.cellsOf e) = none := by
  cases hk : part.known (w.cellsOf e) with
  | some b =>
      rw [once_of_known hk] at failed
      cases failed
  | none =>
      rw [once_of_unknown hk] at failed
      have hr := (h w hw trivial).1
      cases hf : find w with
      | ok b w₁ =>
          rw [hf] at failed
          cases failed
      | error err' w₁ =>
          rw [hf] at failed
          cases failed
          rw [after_of_error hf] at hr
          rw [unfound _ _ (hr.same e), hk]

theorem unresolved_of_error {w w' : World} (hw : w.Sound) (e : Entry) {err : Error} :
    (r.own e w = .error err w' → (w'.cellsOf e).own = none) ∧
    (r.metadata e w = .error err w' → (w'.cellsOf e).metadata = none) ∧
    (r.parent e w = .error err w' → (w'.cellsOf e).parent = none) ∧
    (r.operations e w = .error err w' → (w'.cellsOf e).operations = none) := by
  rw [own_eq_once, metadata_eq_once, parent_eq_once, operations_eq_once]
  refine ⟨?_, ?_, ?_, ?_⟩
  · exact once_of_error .own (fun _ _ h => congrArg Cells.own h)
      (readMap_along _ e _) hw
  · exact once_of_error .metadata (fun _ _ h => congrArg Prod.fst h)
      (findMetadata_along r e) hw
  · exact once_of_error .parent (fun _ _ h => congrArg Prod.fst h)
      (findParent_along r e) hw
  · exact once_of_error .operations (fun _ _ h => congrArg Prod.snd h)
      (findOperations_along r e) hw

/-! ### Walks made again -/

theorem ancestry_of_steady {e : Entry} {chain : List Entry} {w w₁ w' : World} (hw : w.Sound)
    (held : w.Holds e) (h : r.ancestry e w = .ok chain w₁) (later : w₁.Steady w') :
    r.ancestry e w' = .ok chain w' := by
  obtain ⟨line, -, -, -, new⟩ := line_of_ancestry r hw held h
  have line' := line.keep fun x => (later.settled x).parent
  obtain ⟨more, rfl⟩ := line'.head
  rw [ancestry_of_line r line', follow_eq_ok_iff.mpr ⟨rfl, new⟩]
  rfl

theorem reach_of_steady {e : Entry} {method : String} {verdict : Except Error Reached}
    {w w₁ w' : World} (hw : w.Sound) (held : w.Holds e)
    (h : r.reach e method w = result verdict w₁) (final : IsVerdict verdict)
    (later : w₁.Steady w') : r.reach e method w' = result verdict w' := by
  obtain ⟨more, judges⟩ := judges_of_reach hw held h final
  exact reach_of_judges
    (judges.keep (fun x => (later.settled x).operations) fun x => (later.settled x).parent)

/-! ### The main statement -/

/-- Lazy state is resolved once. Whatever happens later in a session: resolved metadata, parents and
operations stay, and loaded own parameters stay loaded; own parameters that are loaded stay the same
but for steps that edit their entry; what fails to load leaves its part unresolved; a chain that was
returned is returned for ever; and so is an operation that was reached, or that there is none, or
that the ancestry is cyclic. -/
theorem lazy_state_stable {w : World} (session : Session r w) {e : Entry} (held : w.Holds e) :
    (∀ w', Relation.ReflTransGen (Move r) w w' → Cells.Settled (w.cellsOf e) (w'.cellsOf e)) ∧
    (∀ w' params, Move r w w' → (w.cellsOf e).own = some params →
      (w'.cellsOf e).own = some params ∨ ∃ x, x.id = e.id ∧ Edits r x w w') ∧
    (∀ err w', (r.own e w = .error err w' → (w'.cellsOf e).own = none) ∧
      (r.metadata e w = .error err w' → (w'.cellsOf e).metadata = none) ∧
      (r.parent e w = .error err w' → (w'.cellsOf e).parent = none) ∧
      (r.operations e w = .error err w' → (w'.cellsOf e).operations = none)) ∧
    (∀ chain w₁ w', r.ancestry e w = .ok chain w₁ → Relation.ReflTransGen (Move r) w₁ w' →
      r.ancestry e w' = .ok chain w') ∧
    ∀ method verdict w₁ w', r.reach e method w = Action.result verdict w₁ → IsVerdict verdict →
      Relation.ReflTransGen (Move r) w₁ w' → r.reach e method w' = Action.result verdict w' := by
  have hw := session.sound
  refine ⟨?_, ?_, ?_, ?_, ?_⟩
  · intro w' later
    exact (steady_of_moves later hw).1.settled e
  · intro w' params move hown
    by_cases edited : ∃ x, x.id = e.id ∧ Edits r x w w'
    · exact .inr edited
    · exact .inl (move.keepsOwn hw e (fun x hx hedits => edited ⟨x, hx, hedits⟩) params hown)
  · intro err w'
    exact unresolved_of_error hw e
  · intro chain w₁ w' h later
    have hw₁ := (line_of_ancestry r hw held h).2.2.2.1
    exact ancestry_of_steady hw held h (steady_of_moves later hw₁).1
  · intro method verdict w₁ w' h final later
    have hw₁ : w₁.Sound := by
      have hs := (reach_along r e method w hw trivial).2.1
      rwa [after_of_result h] at hs
    exact reach_of_steady hw held h final (steady_of_moves later hw₁).1

/-- The lower entry of the sample stays below the upper one when it is given the name of another
parent and a file turns up in its place. -/
theorem lower_keeps_parent :
    let renamed := after (Sample.registry.setParameter Sample.lower "parent_entry_name" (.str "x"))
      Sample.world
    let later : World := { renamed with disk := ⟨[], [(["lower"], .file "")]⟩ }
    Session Sample.registry Sample.world ∧ Sample.world.Holds Sample.lower ∧
      Sample.registry.ancestry Sample.lower later = .ok [Sample.lower, Sample.upper] later ∧
      Sample.registry.reach Sample.lower "echo" later
        = .ok ⟨Sample.echo "echo", Sample.upper, ["lower", "upper"]⟩ later ∧
      Sample.registry.reach Sample.lower "none" later
        = .error (.operationNotFound "none" ["lower", "upper"]) later := by
  obtain ⟨-, -, -, ancestry, reach⟩ := lazy_state_stable Sample.session Sample.holds_lower
  have moves : Relation.ReflTransGen (Move Sample.registry) Sample.world
      { after (Sample.registry.setParameter Sample.lower "parent_entry_name" (.str "x"))
        Sample.world with disk := ⟨[], [(["lower"], .file "")]⟩ } :=
    .tail (.single (.request (.setParameter Sample.lower "parent_entry_name" (.str "x")))) (.disk _)
  refine ⟨Sample.session, Sample.holds_lower, ancestry _ _ _ ?_ moves,
    reach "echo" (.ok _) _ _ ?_ trivial moves, reach "none" (.error _) _ _ ?_ rfl moves⟩
  · have line : Sample.world.Line Sample.lower [Sample.lower, Sample.upper] :=
      .next rfl (.last rfl)
    exact ancestry_of_line Sample.registry line
  · have judges : Sample.world.Judges "echo" [] Sample.lower [Sample.upper]
        (.ok ⟨Sample.echo "echo", Sample.upper, ["lower", "upper"]⟩) :=
      .next rfl rfl rfl rfl (.found rfl rfl)
    exact reach_of_judges judges
  · have judges : Sample.world.Judges "none" [] Sample.lower [Sample.upper]
        (.error (.operationNotFound "none" ["lower", "upper"])) :=
      .next rfl rfl rfl rfl (.missing rfl rfl rfl)
    exact reach_of_judges judges

end Registry
end Lineage
