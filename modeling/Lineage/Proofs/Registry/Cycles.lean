import Lineage.Proofs.Disk.Replace
import Lineage.Proofs.Registry.WalkEnds

/-!
What a walk along the ancestry answers. The parents of an entry, asked for one after the other, go on
until an entry has none, or until one stands at a place that was passed before. The walk answers the
entries passed in the first case, and reports a cycle in the second. Where neither comes, as in entries
that share one document, the walk has no answer.
-/
namespace Lineage

open World Action
open Component (IsName)
open Loop (Finishes)

namespace Registry

/-- Asked for their parents in turn, an entry and those after it lead by way of `more` to the last. -/
inductive Ascent (r : Registry) : World → Entry → List Entry → Entry → World → Prop
  | here {w : World} {e : Entry} : Ascent r w e [] e w
  | up {w w₁ w' : World} {e p last : Entry} {more : List Entry}
      (parent : r.parent e w = .ok (some p) w₁) (further : Ascent r w₁ p more last w') :
      Ascent r w e (p :: more) last w'

/-- No two entries of a chain are at one place. -/
def Apart (chain : List Entry) : Prop := (chain.map fun e => e.path.components).Nodup

/-- An entry of the chain is at the place of this one. -/
def Revisits (chain : List Entry) (e : Entry) : Prop :=
  ∃ x ∈ chain, e.path.components = x.path.components

variable {r : Registry} {w w₁ w' : World} {e last p : Entry} {chain more : List Entry}

theorem hasBeenAt_iff : hasBeenAt chain p = true ↔ Revisits chain p := by
  simp [hasBeenAt, Path.isIn, Path.same, Revisits]

theorem apart_snoc : Apart (chain ++ [p]) ↔ Apart chain ∧ hasBeenAt chain p = false := by
  rw [← Bool.not_eq_true, hasBeenAt_iff, Apart, Apart, List.map_append, List.map_singleton,
    ← List.concat_eq_append, List.nodup_concat, and_comm]
  simp [Revisits, @eq_comm _ p.path.components]

theorem apart_append : Apart (chain ++ more) ↔ Apart chain ∧ Unvisited chain more := by
  induction more generalizing chain with
  | nil => simp [unvisited_nil]
  | cons p more ih => rw [List.append_cons, ih, apart_snoc, unvisited_cons_iff, and_assoc]

theorem apart_cons : Apart (e :: more) ↔ Unvisited [e] more := by
  have single : Apart [e] := List.nodup_singleton _
  rw [← List.singleton_append, apart_append, and_iff_right single]

/-! ### The way of a walk -/

variable {s : Climb} {states : List Climb} {answer : EStateM.Result Error World (List Entry)}

/-- A walk ends at an entry without a parent, with one at a place passed before, or where the parent
cannot be had. -/
theorem climb_eq_inr_iff : r.climb s = .inr answer ↔
    (∃ w, r.parent s.last s.world = .ok none w ∧ answer = .ok s.chain w) ∨
    (∃ p w, r.parent s.last s.world = .ok (some p) w ∧ Revisits s.chain p ∧
      answer = .error (cycle s.chain p) w) ∨
    (∃ err w, r.parent s.last s.world = .error err w ∧ answer = .error err w) := by
  rw [climb_apply]
  cases r.parent s.last s.world with
  | error err w => simp [@eq_comm _ answer]
  | ok found w =>
      cases found with
      | none => simp [@eq_comm _ answer]
      | some p =>
          cases been : hasBeenAt s.chain p with
          | true => simp [been, hasBeenAt_iff.mp been, @eq_comm _ answer]
          | false => simp [← hasBeenAt_iff, been]

/-- The states of a walk are an ascent to the entry where it ends, through new places. -/
theorem finishes_iff : (∃ states, Finishes r.climb s states answer) ↔
    ∃ more last w, r.Ascent s.world s.last more last w ∧ Unvisited s.chain more ∧
      r.climb ⟨s.chain ++ more, last, w⟩ = .inr answer := by
  constructor
  · rintro ⟨states, ends⟩
    induction ends with
    | @done s _ h => exact ⟨[], s.last, s.world, .here, unvisited_nil _, by simpa using h⟩
    | next h _ ih =>
        obtain ⟨more, last, w, ascent, new, stop⟩ := ih
        obtain ⟨p, _, hask, parent, unvisited, chain, rfl⟩ := ascend_eq_inl h
        cases hask
        rw [chain] at new stop
        rw [List.append_assoc] at stop
        exact ⟨_, last, w, .up parent ascent, unvisited_cons_iff.mpr ⟨unvisited, new⟩, stop⟩
  · rintro ⟨more, last, w, ascent, new, stop⟩
    obtain ⟨chain, e, w₀⟩ := s
    dsimp only at ascent new stop
    induction ascent generalizing chain with
    | here => exact ⟨_, .done (by simpa using stop)⟩
    | up parent _ ih =>
        obtain ⟨unvisited, new⟩ := unvisited_cons_iff.mp new
        obtain ⟨states, ends⟩ := ih _ new (by simpa using stop)
        refine ⟨_, .next ?_ ends⟩
        rw [climb_apply]
        dsimp only
        rw [parent]
        dsimp only
        rw [unvisited, if_neg Bool.false_ne_true]

theorem Ascent.snoc (h : r.Ascent w e more last w₁) (parent : r.parent last w₁ = .ok (some p) w') :
    r.Ascent w e (more ++ [p]) p w' := by
  induction h with
  | here => exact .up parent .here
  | up first _ ih => exact .up first (ih parent)

theorem Ascent.of_snoc (h : r.Ascent w e (more ++ [p]) last w') :
    p = last ∧ ∃ q w₁, r.Ascent w e more q w₁ ∧ r.parent q w₁ = .ok (some p) w' := by
  induction more generalizing w e with
  | nil =>
      cases h with
      | up parent further =>
          cases further
          exact ⟨rfl, e, w, .here, parent⟩
  | cons x more ih =>
      cases h with
      | up first further =>
          obtain ⟨rfl, q, w₁, ascent, parent⟩ := ih further
          exact ⟨rfl, q, w₁, .up first ascent, parent⟩

/-- Where everyone at a stage has a parent that is at one again, an ascent stays there. -/
theorem Ascent.stays {Stage : Entry → World → Prop}
    (goesOn : ∀ e w, Stage e w → ∃ p w', r.parent e w = .ok (some p) w' ∧ Stage p w')
    (h : r.Ascent w e more last w') (start : Stage e w) : Stage last w' := by
  induction h with
  | here => exact start
  | up parent _ ih =>
      obtain ⟨p, w', parent', stage⟩ := goesOn _ _ start
      cases parent.symm.trans parent'
      exact ih stage

/-- No parent is missed for a cycle: it takes a walk to find one. -/
theorem parent_not_cyclic (r : Registry) (e : Entry) (names : List String) :
    r.parent e w ≠ .error (.cyclicAncestry names) w' := by
  have faulty : Error.Faulty fun err => ∀ names, err ≠ .cyclicAncestry names :=
    ⟨fun _ _ => nofun, fun _ _ => nofun⟩
  exact fun h => parent_fails faulty r (fun _ => nofun) e w _ w' h names rfl

/-! ### What a walk answers -/

/-- What an ancestry comes to, other than that there is none, is what its walk ends with. -/
theorem ancestry_eq_result_iff {answer : Except Error (List Entry)}
    (final : answer ≠ .error .unbounded) : r.ancestry e w = result answer w' ↔
      ∃ states, Finishes r.climb ⟨[e], e, w⟩ states (result answer w') :=
  ⟨fun h => climbs_iff.mp (some_of_loop h final), fun ⟨_, ends⟩ => ancestry_of_ends ends⟩

theorem ancestry_ok_iff : r.ancestry e w = .ok chain w' ↔
    ∃ more top w₁, r.Ascent w e more top w₁ ∧ r.parent top w₁ = .ok none w' ∧
      chain = e :: more ∧ Apart chain := by
  have final : (.ok chain : Except Error (List Entry)) ≠ .error .unbounded := nofun
  refine (ancestry_eq_result_iff final).trans (finishes_iff.trans ⟨?_, ?_⟩)
  · rintro ⟨more, top, w₁, ascent, new, stop⟩
    obtain ⟨_, parent, answer⟩ | ⟨_, _, -, -, answer⟩ | ⟨_, _, -, answer⟩ := climb_eq_inr_iff.mp stop
    · cases answer
      exact ⟨more, top, w₁, ascent, parent, rfl, apart_cons.mpr new⟩
    · cases answer
    · cases answer
  · rintro ⟨more, top, w₁, ascent, parent, rfl, apart⟩
    exact ⟨more, top, w₁, ascent, apart_cons.mp apart,
      climb_eq_inr_iff.mpr (.inl ⟨w', parent, rfl⟩)⟩

theorem ancestry_cyclic_iff {names : List String} :
    r.ancestry e w = .error (.cyclicAncestry names) w' ↔
      ∃ more p, r.Ascent w e (more ++ [p]) p w' ∧ Apart (e :: more) ∧ Revisits (e :: more) p ∧
        names = Registry.names (e :: more ++ [p]) := by
  have final : (.error (.cyclicAncestry names) : Except Error (List Entry)) ≠ .error .unbounded :=
    nofun
  refine (ancestry_eq_result_iff final).trans (finishes_iff.trans ⟨?_, ?_⟩)
  · rintro ⟨more, last, w₁, ascent, new, stop⟩
    obtain ⟨_, -, answer⟩ | ⟨p, _, parent, again, answer⟩ | ⟨_, _, failed, answer⟩ :=
      climb_eq_inr_iff.mp stop
    · cases answer
    · cases answer
      refine ⟨more, p, ascent.snoc parent, apart_cons.mpr new, again, ?_⟩
      simp [Registry.names]
    · cases answer
      exact absurd failed (parent_not_cyclic r _ _)
  · rintro ⟨more, p, ascent, apart, again, rfl⟩
    obtain ⟨-, last, w₁, ascent, parent⟩ := ascent.of_snoc
    refine ⟨more, last, w₁, ascent, apart_cons.mp apart,
      climb_eq_inr_iff.mpr (.inr (.inl ⟨p, w', parent, again, ?_⟩))⟩
    simp [cycle, Registry.names, result]

/-- The ascent from an entry goes on through new places, however far it has come. -/
def Endless (r : Registry) (w : World) (e : Entry) : Prop :=
  ∀ n, ∃ more last w₁, more.length = n ∧ r.Ascent w e more last w₁ ∧ Apart (e :: more)

/-- As long as parents can be had, a walk that does not end goes on through new places. -/
theorem ends_or_endless
    (answers : ∀ more last w₁, r.Ascent w e more last w₁ → ∃ found w₂, r.parent last w₁ = .ok found w₂) :
    (∃ more top w₁ w', r.Ascent w e more top w₁ ∧ r.parent top w₁ = .ok none w' ∧
      Apart (e :: more)) ∨
    (∃ more p w', r.Ascent w e (more ++ [p]) p w' ∧ Apart (e :: more) ∧ Revisits (e :: more) p) ∨
    r.Endless w e := by
  refine or_iff_not_imp_left.mpr fun noTop => or_iff_not_imp_left.mpr fun noCycle n => ?_
  induction n with
  | zero => exact ⟨[], e, w, rfl, .here, List.nodup_singleton _⟩
  | succ n ih =>
      obtain ⟨more, last, w₁, rfl, ascent, apart⟩ := ih
      obtain ⟨found, w₂, parent⟩ := answers more last w₁ ascent
      cases found with
      | none => exact absurd ⟨more, last, w₁, w₂, ascent, parent, apart⟩ noTop
      | some p =>
          have ascent' := ascent.snoc parent
          cases been : hasBeenAt (e :: more) p with
          | true => exact absurd ⟨more, p, w₂, ascent', apart, hasBeenAt_iff.mp been⟩ noCycle
          | false => exact ⟨_, p, w₂, by simp, ascent', apart_snoc.mpr ⟨apart, been⟩⟩

/-- A walk that ends does not go on for ever. -/
theorem not_endless_of_finishes (h : Finishes r.climb s states answer) :
    ¬ ∀ n, ∃ more last w, more.length = n ∧ r.Ascent s.world s.last more last w ∧
      Unvisited s.chain more := by
  intro endless
  induction h with
  | @done s _ h =>
      obtain ⟨more, last, w, length, ascent, new⟩ := endless 1
      cases ascent with
      | here => cases length
      | up parent _ =>
          rw [climb_apply, parent] at h
          dsimp only at h
          rw [(unvisited_cons_iff.mp new).1, if_neg Bool.false_ne_true] at h
          cases h
  | @next s t _ _ h _ ih =>
      obtain ⟨p, _, hask, parent, -, chain, rfl⟩ := ascend_eq_inl h
      cases hask
      refine ih fun n => ?_
      obtain ⟨more, last, w, length, ascent, new⟩ := endless (n + 1)
      cases ascent with
      | here => cases length
      | up parent' further =>
          cases parent.symm.trans parent'
          exact ⟨_, last, w, Nat.succ.inj length, further, chain ▸ (unvisited_cons_iff.mp new).2⟩

/-- Where the ascent goes on through new places for ever, a walk has no answer. -/
theorem ancestry_of_endless (endless : r.Endless w e) : r.ancestry e w = .error .unbounded w := by
  have unanswered : r.ancestryRound.run ⟨[e], e⟩ w = none := by
    refine Option.eq_none_iff_forall_ne_some.mpr fun out answered => ?_
    obtain ⟨states, ends⟩ := climbs_iff.mp answered
    refine not_endless_of_finishes ends fun n => ?_
    obtain ⟨more, last, w₁, length, ascent, apart⟩ := endless n
    exact ⟨more, last, w₁, length, ascent, apart_cons.mp apart⟩
  rw [ancestry, loop, unanswered]
  rfl

/-- Where every parent lies deeper than what it is the parent of, an ascent comes to no place twice. -/
theorem endless_of_deeper {Stage : Entry → World → Prop}
    (goesOn : ∀ e w, Stage e w → ∃ p w', r.parent e w = .ok (some p) w' ∧ Stage p w' ∧
      e.path.components.length < p.path.components.length)
    (start : Stage e w) : r.Endless w e := by
  intro n
  -- What was passed lies no deeper than the last.
  suffices ∃ more last w₁, more.length = n ∧ r.Ascent w e more last w₁ ∧ Apart (e :: more) ∧
      Stage last w₁ ∧ ∀ x ∈ e :: more, x.path.components.length ≤ last.path.components.length by
    obtain ⟨more, last, w₁, length, ascent, apart, -, -⟩ := this
    exact ⟨more, last, w₁, length, ascent, apart⟩
  induction n with
  | zero =>
      exact ⟨[], e, w, rfl, .here, List.nodup_singleton _, start,
        List.forall_mem_singleton.mpr (Nat.le_refl _)⟩
  | succ n ih =>
      obtain ⟨more, last, w₁, rfl, ascent, apart, stage, above⟩ := ih
      obtain ⟨p, w₂, parent, stage', deeper⟩ := goesOn last w₁ stage
      have below : ∀ x ∈ e :: more, x.path.components.length < p.path.components.length :=
        fun x hx => Nat.lt_of_le_of_lt (above x hx) deeper
      have new : hasBeenAt (e :: more) p = false := by
        rw [← Bool.not_eq_true, hasBeenAt_iff]
        rintro ⟨x, hx, same⟩
        exact Nat.ne_of_gt (below x hx) (congrArg List.length same)
      refine ⟨more ++ [p], p, w₂, by simp, ascent.snoc parent, apart_snoc.mpr ⟨apart, new⟩, stage',
        fun x hx => ?_⟩
      rcases List.mem_append.mp (show x ∈ (e :: more) ++ [p] from hx) with hx | hx
      · exact Nat.le_of_lt (below x hx)
      · rw [List.mem_singleton.mp hx]

/-- Cycles are detected exactly. The ancestry of an entry is the sequence of its parents, if that comes
to one without a parent and to no place twice. If it comes to a place a second time, the ancestry is
cyclic, with the names as far as there. As long as parents can be had, one of the two is the case, or
the sequence goes on through new places for ever and the ancestry has no answer; and that cannot be
where documents are files in the directories of their entries. -/
theorem ancestry_exact (r : Registry) (e : Entry) (w : World) :
    (∀ chain w', r.ancestry e w = .ok chain w' ↔
      ∃ more top w₁, r.Ascent w e more top w₁ ∧ r.parent top w₁ = .ok none w' ∧
        chain = e :: more ∧ Apart chain) ∧
    (∀ names w', r.ancestry e w = .error (.cyclicAncestry names) w' ↔
      ∃ more p, r.Ascent w e (more ++ [p]) p w' ∧ Apart (e :: more) ∧ Revisits (e :: more) p ∧
        names = Registry.names (e :: more ++ [p])) ∧
    ((∀ more last w₁, r.Ascent w e more last w₁ → ∃ found w₂, r.parent last w₁ = .ok found w₂) →
      (∃ chain w', r.ancestry e w = .ok chain w') ∨
      (∃ names w', r.ancestry e w = .error (.cyclicAncestry names) w') ∨
      r.Endless w e ∧ r.ancestry e w = .error .unbounded w) ∧
    (Session r w → w.Holds e → IsName r.config.parameters.file → IsName r.metadataPlace.file →
      ¬ r.Endless w e) := by
  refine ⟨fun _ _ => ancestry_ok_iff, fun _ _ => ancestry_cyclic_iff, fun answers => ?_, ?_⟩
  · obtain ⟨more, top, w₁, w', ascent, parent, apart⟩ | ⟨more, p, w', ascent, apart, again⟩ | endless :=
      ends_or_endless answers
    · exact .inl ⟨_, w', ancestry_ok_iff.mpr ⟨more, top, w₁, ascent, parent, rfl, apart⟩⟩
    · exact .inr (.inl ⟨_, w', ancestry_cyclic_iff.mpr ⟨more, p, ascent, apart, again, rfl⟩⟩)
    · exact .inr (.inr ⟨endless, ancestry_of_endless endless⟩)
  · intro session held parameters metadata endless
    obtain ⟨-, states, ends, -⟩ :=
      ancestry_ends session.sound session.holds_roots parameters metadata held
    refine not_endless_of_finishes ends fun n => ?_
    obtain ⟨more, last, w₁, length, ascent, apart⟩ := endless n
    exact ⟨more, last, w₁, length, ascent, apart_cons.mp apart⟩

/-- The parent that metadata name, where they are the own parameters, is looked up and kept. -/
theorem parent_of_own {fields : Params} {reference : String} {w₂ w₃ : World}
    (place : r.metadataPlace = r.config.parameters)
    (named : Table.get? fields r.config.parentKey = some (.str reference))
    (own : r.own e w = .ok fields w₁)
    (new : (w.cellsOf e).metadata = none ∧ (w.cellsOf e).parent = none)
    (metadata : w₁.setCells e { w₁.cellsOf e with metadata := some fields } = w₂)
    (found : r.parentNamed e reference w₂ = .ok (some p) w₃)
    (parent : w₃.setCells e { w₃.cellsOf e with parent := some (some p) } = w') :
    r.parent e w = .ok (some p) w' := by
  have known : r.metadata e w = .ok fields w₂ := by
    rw [metadata_eq_once, once_of_unknown new.1, if_pos place, own, ← metadata]
    rfl
  have value : r.metadataValue e r.config.parentKey w = .ok (some (.str reference)) w₂ := by
    rw [metadataValue, bind_of_ok known, named]
    rfl
  have look : r.findParent e w = .ok (some p) w₃ := by
    rw [findParent, bind_of_ok value]
    exact found
  rw [parent_eq_once, once_of_unknown new.2, look, ← parent]
  rfl

/-! ### A tail that leads into a cycle -/

namespace Sample

def note (parent : String) : Params := [("parent_entry_name", .str parent)]

def noteFile (parent : String) : FileNode :=
  .file (DocumentFormat.json.write (.obj (note parent)))

def lassoDisk : Disk where
  cwd := []
  nodes := [(["tail"], .dir), (["tail", "parameters.json"], noteFile "a"),
    (["a"], .dir), (["a", "parameters.json"], noteFile "b"),
    (["b"], .dir), (["b", "parameters.json"], noteFile "a")]

def lasso : Config where
  collections := [⟨"tail", ⟨"tail"⟩⟩, ⟨"a", ⟨"a"⟩⟩, ⟨"b", ⟨"b"⟩⟩]

def lassoTail : Entry := ⟨0, ⟨"tail"⟩, "tail"⟩

def lassoA : Entry := ⟨1, ⟨"a"⟩, "a"⟩

def lassoB : Entry := ⟨2, ⟨"b"⟩, "b"⟩

def lassoRegistry : Registry := ⟨⟨""⟩, lasso, [lassoTail, lassoA, lassoB], [], []⟩

def lassoCells (reference : String) (p : Entry) : Cells where
  own := some (note reference)
  metadata := some (note reference)
  parent := some (some p)

/-- The world once the walk has asked the first so many of the three for their parents. -/
def lassoAsked (n : Nat) : World where
  disk := lassoDisk
  cells := [if 0 < n then lassoCells "a" lassoA else {}, if 1 < n then lassoCells "b" lassoB else {},
    if 2 < n then lassoCells "a" lassoA else {}]
  byPath := [([.name "tail"], lassoTail), ([.name "a"], lassoA), ([.name "b"], lassoB)]
  byName := [("tail", lassoTail), ("a", lassoA), ("b", lassoB)]

theorem lasso_start : ofConfig lasso ⟨""⟩ [] [] { disk := lassoDisk } =
    .ok lassoRegistry (lassoAsked 0) := rfl

theorem own_of_note {r : Registry} {e : Entry} {reference : String} {w : World} {file : Path}
    (new : (w.cellsOf e).own = none) (file_ : e.filePath r.config.parameters.file = file)
    (whole : r.config.parameters.path = []) (stat : w.disk.stat file = .ok (noteFile reference))
    (json : DocumentFormat.ofPath file = .json) : r.own e w =
      .ok (note reference) (w.setCells e { w.cellsOf e with own := some (note reference) }) := by
  have document : w.disk.load (e.filePath r.config.parameters.file) r.config.parameters.path =
      .ok (.obj (note reference), true) := by
    rw [file_, whole]
    exact Disk.load_written stat json (.field .str) rfl
  exact own_of_document r new document

/-! Each parent is found as the walk comes to ask for it. -/

theorem parent_tail : lassoRegistry.parent lassoTail (lassoAsked 0) =
    .ok (some lassoA) (lassoAsked 1) :=
  parent_of_own rfl rfl (own_of_note rfl rfl rfl (by rfl) (by rfl)) ⟨rfl, rfl⟩ rfl rfl rfl

theorem parent_a : lassoRegistry.parent lassoA (lassoAsked 1) =
    .ok (some lassoB) (lassoAsked 2) :=
  parent_of_own rfl rfl (own_of_note rfl rfl rfl (by rfl) (by rfl)) ⟨rfl, rfl⟩ rfl rfl rfl

theorem parent_b : lassoRegistry.parent lassoB (lassoAsked 2) =
    .ok (some lassoA) (lassoAsked 3) :=
  parent_of_own rfl rfl (own_of_note rfl rfl rfl (by rfl) (by rfl)) ⟨rfl, rfl⟩ rfl rfl rfl

/-- Who is asked for a parent, and in which world. -/
def lassoStates : List (Entry × World) :=
  [(lassoTail, lassoAsked 0), (lassoA, lassoAsked 1), (lassoB, lassoAsked 2), (lassoA, lassoAsked 3),
    (lassoB, lassoAsked 3)]

/-- Once round the cycle, the parents are known. -/
theorem lasso_goes_on : ∀ e w, (e, w) ∈ lassoStates →
    ∃ p w', lassoRegistry.parent e w = .ok (some p) w' ∧ (p, w') ∈ lassoStates := by
  have a : lassoRegistry.parent lassoA (lassoAsked 3) = .ok (some lassoB) (lassoAsked 3) :=
    parent_of_known _ rfl
  have b : lassoRegistry.parent lassoB (lassoAsked 3) = .ok (some lassoA) (lassoAsked 3) :=
    parent_of_known _ rfl
  have all : ∀ s ∈ lassoStates, ∃ t ∈ lassoStates,
      lassoRegistry.parent s.1 s.2 = .ok (some t.1) t.2 := by
    simp [lassoStates, parent_tail, parent_a, parent_b, a, b]
  intro e w h
  obtain ⟨⟨p, w'⟩, there, parent⟩ := all _ h
  exact ⟨p, w', parent, there⟩

/-- The cycle is reported from an entry that is not on it. -/
theorem lasso_reported : Session lassoRegistry (lassoAsked 0) ∧
    (∀ more last w₁, lassoRegistry.Ascent (lassoAsked 0) lassoTail more last w₁ →
      ∃ found w₂, lassoRegistry.parent last w₁ = .ok found w₂) ∧
    ¬ lassoRegistry.Endless (lassoAsked 0) lassoTail ∧
    lassoRegistry.ancestry lassoTail (lassoAsked 0) =
      .error (.cyclicAncestry ["tail", "a", "b", "a"]) (lassoAsked 3) := by
  have session : Session lassoRegistry (lassoAsked 0) := .start lasso_start
  have held : (lassoAsked 0).Holds lassoTail := by
    rw [World.Holds]
    decide
  have plain : IsName "parameters.json" := ⟨by decide, by decide, by decide⟩
  obtain ⟨-, cyclic, -, ends⟩ := ancestry_exact lassoRegistry lassoTail (lassoAsked 0)
  refine ⟨session, fun more last w₁ ascent => ?_, ends session held plain plain,
    (cyclic _ _).mpr ⟨[lassoA, lassoB], lassoA, ?_, ?_, ⟨lassoA, by simp, rfl⟩, rfl⟩⟩
  · obtain ⟨p, w₂, parent, -⟩ :=
      lasso_goes_on _ _ (ascent.stays lasso_goes_on List.mem_cons_self)
    exact ⟨some p, w₂, parent⟩
  · exact .up parent_tail (.up parent_a (.up parent_b .here))
  · rw [Apart]
    decide

/-! ### One document for all entries -/

/-- All entries have one document, and it names a parent deeper down than the entry is. -/
def shared : Config where
  collections := [⟨"b", ⟨"b"⟩⟩]
  parameters := ⟨"/shared.json", []⟩

def sharedDisk : Disk where
  cwd := []
  nodes := [(["shared.json"], noteFile "a/b")]

def shallowest : Entry := ⟨0, ⟨"b"⟩, "b"⟩

def sharedRegistry : Registry := ⟨⟨""⟩, shared, [shallowest], [], []⟩

def sharedWorld : World where
  disk := sharedDisk
  cells := [{}]
  byPath := [([.name "b"], shallowest)]
  byName := [("b", shallowest)]

theorem shared_start : ofConfig shared ⟨""⟩ [] [] { disk := sharedDisk } =
    .ok sharedRegistry sharedWorld := rfl

/-- The directory that is so deep, through directories of one name. -/
def shaft : Nat → Path
  | 0 => ⟨""⟩
  | n + 1 => (shaft n).join "a"

theorem isName_a : IsName "a" := ⟨by decide, by decide, by decide⟩

theorem isName_b : IsName "b" := ⟨by decide, by decide, by decide⟩

theorem normal_shaft (n : Nat) : (shaft n).normalize = shaft n := by
  induction n with
  | zero => rfl
  | succ n ih => exact Path.normalize_join ih isName_a

theorem length_shaft (n : Nat) : ((shaft n).join "b").components.length = n + 1 := by
  have length : (shaft n).components.length = n := by
    induction n with
    | zero => rfl
    | succ n ih => rw [shaft, Path.components_join (normal_shaft n) isName_a, List.length_append, ih,
        List.length_singleton]
  rw [Path.components_join (normal_shaft n) isName_b, List.length_append, length,
    List.length_singleton]

/-- An entry at the bottom of a shaft, of which nothing has been found out. None is deeper. -/
structure Bottom (n : Nat) (e : Entry) (w : World) : Prop where
  disk : w.disk = sharedDisk
  held : w.Holds e
  place : e.path = (shaft n).join "b"
  blank : w.cellsOf e = {}
  deeper : ∀ m, n < m → Table.get? w.byPath ((shaft m).join "b").components = none

/-- The parent of an entry at the bottom is made at the bottom of a deeper shaft. -/
theorem parentNamed_deeper {n : Nat} {e : Entry} {w : World} (place : e.path = (shaft n).join "b")
    (new : Table.get? w.byPath ((shaft (n + 1)).join "b").components = none) :
    ∃ name, sharedRegistry.parentNamed e "a/b" w =
      .ok (some ⟨w.cells.length, (shaft (n + 1)).join "b", name⟩)
        (w.enroll ((shaft (n + 1)).join "b") name) := by
  have next : (shaft n).join "a/b" = (shaft (n + 1)).join "b" :=
    (Path.join_join (shaft n) isName_a (Path.isAbsolute_of_whole isName_b.whole)).symm
  have normal : ((shaft (n + 1)).join "b").normalize = (shaft (n + 1)).join "b" :=
    Path.normalize_join (normal_shaft _) isName_b
  have made := byPath_of_unknown (w := w) (normal.symm ▸ new)
  rw [normal] at made
  refine ⟨Entry.nameOf ((shaft (n + 1)).join "b"), ?_⟩
  rw [parentNamed, place, Path.parent?_join (normal_shaft n) isName_b]
  exact bind_of_ok (next.symm ▸ made) _

theorem Bottom.goes_on {n : Nat} {e : Entry} {w : World} (h : Bottom n e w) :
    ∃ p w', sharedRegistry.parent e w = .ok (some p) w' ∧ Bottom (n + 1) p w' := by
  have file : e.filePath sharedRegistry.config.parameters.file = ⟨"/shared.json"⟩ := rfl
  have own : sharedRegistry.own e w =
      .ok (note "a/b") (w.setCells e { w.cellsOf e with own := some (note "a/b") }) :=
    own_of_note (by rw [h.blank]) file rfl (by rw [h.disk]; rfl) (by rfl)
  generalize loaded : w.setCells e { w.cellsOf e with own := some (note "a/b") } = w₁ at own
  generalize known : w₁.setCells e { w₁.cellsOf e with metadata := some (note "a/b") } = w₂
  have held : w₂.Holds e := by
    rw [← known, ← loaded]
    exact holds_setCells.mpr (holds_setCells.mpr h.held)
  have deeper : ∀ m, n < m → Table.get? w₂.byPath ((shaft m).join "b").components = none := by
    rw [← known, ← loaded]
    exact h.deeper
  obtain ⟨name, named⟩ := parentNamed_deeper h.place (deeper _ (Nat.lt_succ_self n))
  refine ⟨_, _, parent_of_own rfl rfl own (by rw [h.blank]; exact ⟨rfl, rfl⟩) known named rfl,
    ?_, ?_, rfl, ?_, fun m hm => ?_⟩
  · rw [← known, ← loaded]
    exact h.disk
  · exact holds_setCells.mpr (by simp [World.enroll, Holds])
  · have other : w₂.cells.length ≠ e.id := Nat.ne_of_gt held
    have new : ¬ w₂.Holds ⟨w₂.cells.length, (shaft (n + 1)).join "b", name⟩ := Nat.lt_irrefl _
    rw [cellsOf_setCells_ne other, cellsOf_enroll, cellsOf_of_not_holds new]
  · have apart : ((shaft (n + 1)).join "b").components ≠ ((shaft m).join "b").components := by
      intro same
      have lengths := congrArg List.length same
      rw [length_shaft, length_shaft] at lengths
      omega
    exact (Table.get?_insert ..).trans ((if_neg apart).trans (deeper m (Nat.lt_of_succ_lt hm)))

/-- Every parent can be had, and the ancestry has no answer: neither is there an entry without a
parent, nor does a place come up twice. -/
theorem endless_unanswered : Session sharedRegistry sharedWorld ∧
    (∀ more last w₁, sharedRegistry.Ascent sharedWorld shallowest more last w₁ →
      ∃ found w₂, sharedRegistry.parent last w₁ = .ok found w₂) ∧
    sharedRegistry.Endless sharedWorld shallowest ∧
    sharedRegistry.ancestry shallowest sharedWorld = .error .unbounded sharedWorld := by
  have goesOn : ∀ e w, (∃ n, Bottom n e w) → ∃ p w', sharedRegistry.parent e w = .ok (some p) w' ∧
      (∃ n, Bottom n p w') ∧ e.path.components.length < p.path.components.length := by
    rintro e w ⟨n, bottom⟩
    obtain ⟨p, w', parent, next⟩ := bottom.goes_on
    refine ⟨p, w', parent, ⟨_, next⟩, ?_⟩
    rw [bottom.place, next.place, length_shaft, length_shaft]
    exact Nat.lt_succ_self _
  have start : ∃ n, Bottom n shallowest sharedWorld := by
    refine ⟨0, rfl, ?_, rfl, rfl, fun m hm => ?_⟩
    · rw [World.Holds]
      decide
    · have apart : [Component.name "b"] ≠ ((shaft m).join "b").components := by
        intro same
        have lengths := congrArg List.length same
        rw [length_shaft, List.length_singleton] at lengths
        omega
      exact (if_neg apart).trans rfl
  have endless := endless_of_deeper goesOn start
  refine ⟨.start shared_start, fun more last w₁ ascent => ?_, endless, ancestry_of_endless endless⟩
  obtain ⟨p, w₂, parent, -⟩ := goesOn last w₁ (ascent.stays (fun e w stage => by
    obtain ⟨p, w', parent, next, -⟩ := goesOn e w stage
    exact ⟨p, w', parent, next⟩) start)
  exact ⟨some p, w₂, parent⟩

end Sample

end Registry
end Lineage
