import Lineage.Proofs.Execution.Targets

/-!
References in the keywords of a step. A step with references gets the keyword tree that it would have
with the referenced values written out as literals, each at the place of its reference; it gets none
just if some reference does not resolve, or one that is to be merged into the tree is no map.
-/
namespace Lineage

open Action

/-! ### Assignments -/

namespace Assignment

def reference? : Assignment → Option (List String × List String)
  | literal .. => none
  | reference target source => some (target, source)

/-- What an assignment makes of a keyword tree if references are left out. -/
def writeTo (tree : Params) : Assignment → Params
  | literal key value => Step.assign tree key value
  | reference .. => tree

/-- Assignments with values in the places of their references, in order. -/
def fill : List Assignment → List Json → List Assignment
  | literal key value :: rest, values => literal key value :: fill rest values
  | reference target _ :: rest, value :: values => literal target value :: fill rest values
  | assignments, _ => assignments

end Assignment

namespace Step

/-- A step with values in the places of its references. -/
def filled (step : Step) (values : List Json) : Step :=
  { step with assignments := Assignment.fill step.assignments values }

theorem references_eq (step : Step) :
    step.references = step.assignments.filterMap Assignment.reference? := rfl

theorem keywords_eq (step : Step) :
    step.keywords = step.assignments.foldl Assignment.writeTo [] := rfl

end Step

/-- Of the outcomes that references resolve to, those to be merged into the tree are maps. -/
def MapsMerged (references : List (List String × List String)) (outcomes : List Outcome) : Prop :=
  ∀ source outcome, (([], source), outcome) ∈ references.zip outcomes →
    ∃ fields, outcome.toJson = .obj fields

theorem MapsMerged.nil : MapsMerged [] [] := nofun

theorem mapsMerged_cons {target source : List String} {references : List (List String × List String)}
    {outcome : Outcome} {outcomes : List Outcome} :
    MapsMerged ((target, source) :: references) (outcome :: outcomes) ↔
      (target = [] → ∃ fields, outcome.toJson = .obj fields) ∧ MapsMerged references outcomes := by
  constructor
  · intro h
    refine ⟨?_, fun source' outcome' mem => h source' outcome' (List.mem_cons_of_mem _ mem)⟩
    rintro rfl
    exact h source outcome List.mem_cons_self
  · rintro ⟨here, later⟩ source' outcome' mem
    rw [List.zip_cons_cons, List.mem_cons] at mem
    rcases mem with same | mem
    · cases same
      exact here rfl
    · exact later source' outcome' mem

/-- Only the whole tree refuses a value, and only if that is no map. -/
theorem writeAt?_eq_some_iff {tree tree' : Params} {target : List String} {value : Json} :
    Params.writeAt? tree target value = some tree' ↔
      (target = [] → ∃ fields, value = .obj fields) ∧ tree' = Step.assign tree target value := by
  rw [Step.assign]
  cases target with
  | nil => cases value <;> simp [Params.writeAt?, eq_comm]
  | cons key rest => simp [Params.writeAt?, eq_comm]

namespace Registry

/-- Looks up the references of a step, one after the other. -/
def resolve (r : Registry) (cache : Table String Outcome) (step : Step) : Action (List Outcome) :=
  step.references.mapM fun reference => r.lookup cache reference.2

variable {r : Registry} {cache : Table String Outcome} {step : Step} {w w' : World}

theorem assignInto_reference_eq_ok_iff {tree tree' : Params} {target source : List String} :
    r.assignInto cache tree (.reference target source) w = .ok tree' w' ↔
      ∃ outcome, r.lookup cache source w = .ok outcome w' ∧
        (target = [] → ∃ fields, outcome.toJson = .obj fields) ∧
        tree' = Step.assign tree target outcome.toJson := by
  rw [assignInto, bind_eq_ok_iff]
  constructor
  · rintro ⟨outcome, w₁, found, last⟩
    cases written : Params.writeAt? tree target outcome.toJson with
    | none =>
        rw [written] at last
        cases last
    | some tree₁ =>
        rw [written] at last
        cases last
        exact ⟨outcome, found, writeAt?_eq_some_iff.mp written⟩
  · rintro ⟨outcome, found, written⟩
    refine ⟨outcome, w', found, ?_⟩
    rw [writeAt?_eq_some_iff.mpr written]
    rfl

/-- Assignments succeed on a tree if their references resolve, and do what literals in the places of
the references would do. -/
theorem foldlM_assignInto_eq_ok_iff {assignments : List Assignment} {tree tree' : Params} :
    assignments.foldlM (r.assignInto cache) tree w = .ok tree' w' ↔
      ∃ outcomes, (assignments.filterMap Assignment.reference?).mapM
          (fun reference => r.lookup cache reference.2) w = .ok outcomes w' ∧
        MapsMerged (assignments.filterMap Assignment.reference?) outcomes ∧
        tree' = (Assignment.fill assignments (outcomes.map Outcome.toJson)).foldl
          Assignment.writeTo tree := by
  induction assignments generalizing tree w with
  | nil =>
      rw [List.foldlM_nil, List.filterMap_nil, List.mapM_nil, pure_apply, pure_apply]
      constructor
      · intro done
        cases done
        exact ⟨[], rfl, .nil, rfl⟩
      · rintro ⟨outcomes, done, -, rfl⟩
        cases done
        rfl
  | cons a rest ih =>
      cases a with
      | literal key value =>
          rw [List.foldlM_cons]
          exact ih
      | reference target source =>
          have pending : (Assignment.reference target source :: rest).filterMap
              Assignment.reference? = (target, source) :: rest.filterMap Assignment.reference? := rfl
          rw [List.foldlM_cons, pending, List.mapM_cons, bind_eq_ok_iff]
          simp only [assignInto_reference_eq_ok_iff]
          constructor
          · rintro ⟨_, w₁, ⟨outcome, found, merged, rfl⟩, later⟩
            obtain ⟨outcomes, resolved, maps, rfl⟩ := ih.mp later
            refine ⟨outcome :: outcomes, ?_, mapsMerged_cons.mpr ⟨merged, maps⟩, rfl⟩
            rw [bind_of_ok found, bind_of_ok resolved]
            rfl
          · rintro ⟨_, resolved, maps, rfl⟩
            obtain ⟨outcome, w₁, found, resolved⟩ := bind_eq_ok_iff.mp resolved
            obtain ⟨outcomes, w₂, resolved, last⟩ := bind_eq_ok_iff.mp resolved
            cases last
            obtain ⟨merged, maps⟩ := mapsMerged_cons.mp maps
            exact ⟨_, w₁, ⟨outcome, found, merged, rfl⟩, ih.mpr ⟨outcomes, resolved, maps, rfl⟩⟩

theorem keywordTree_eq_ok_iff {named : Params} : r.keywordTree cache step w = .ok named w' ↔
    ∃ outcomes, r.resolve cache step w = .ok outcomes w' ∧ MapsMerged step.references outcomes ∧
      named = (step.filled (outcomes.map Outcome.toJson)).keywords := by
  rw [keywordTree, resolve, Step.references_eq, foldlM_assignInto_eq_ok_iff]
  simp only [Step.keywords_eq]
  rfl

end Registry

/-! ### Steps with their references filled in -/

theorem Assignment.references_fill {assignments : List Assignment} {values : List Json}
    (enough : (assignments.filterMap reference?).length ≤ values.length) :
    (fill assignments values).filterMap reference? = [] := by
  induction assignments generalizing values with
  | nil => rfl
  | cons a rest ih =>
      cases a with
      | literal key value => exact ih enough
      | reference target source =>
          cases values with
          | nil => cases enough
          | cons value values => exact ih (Nat.le_of_succ_le_succ enough)

theorem Assignment.fill_nil (assignments : List Assignment) : fill assignments [] = assignments := by
  induction assignments with
  | nil => rfl
  | cons a rest ih =>
      cases a with
      | literal key value => exact congrArg _ ih
      | reference target source => rfl

namespace Step

theorem filled_nil (step : Step) : step.filled [] = step := by
  rw [filled, Assignment.fill_nil]

/-- The keywords of a step are printed as they stand, unless there are none. -/
theorem printed_keywords (step : Step) : ∃ fields, step.toJson = .obj fields ∧
    Table.get? fields "keywords" =
      if step.keywords.isEmpty then none else some (.obj step.keywords) := by
  refine ⟨_, rfl, ?_⟩
  -- Each part of what is printed has the field or has not, whether or not it is left out.
  cases step.label <;>
    simp [Table.get?_append, Table.get?, apply_ite fun part : Params => Table.get? part "keywords"]

end Step

namespace Registry

variable {r : Registry} {cache : Table String Outcome} {step : Step} {w w' : World}

theorem references_of_resolve {outcomes : List Outcome}
    (resolved : r.resolve cache step w = .ok outcomes w') :
    (step.filled (outcomes.map Outcome.toJson)).references = [] := by
  have length := length_of_mapM resolved
  rw [Step.references_eq] at length ⊢
  refine Assignment.references_fill (Nat.le_of_eq ?_)
  rw [List.length_map, length]

theorem keywordTree_of_literals (literal : step.references = []) (cache : Table String Outcome)
    (w : World) : r.keywordTree cache step w = .ok step.keywords w := by
  refine keywordTree_eq_ok_iff.mpr ⟨[], ?_, ?_, ?_⟩
  · rw [resolve, literal]
    rfl
  · rw [literal]
    exact .nil
  · rw [List.map_nil, Step.filled_nil]

theorem attempts_iff {run aimed : Run} {answer : Except Error Outcome} :
    r.Attempts run step w aimed answer w' ↔
      ∃ w₁ outcomes w₂, r.aim run step w = .ok aimed w₁ ∧
        r.resolve aimed.soFar.cache step w₁ = .ok outcomes w₂ ∧
        MapsMerged step.references outcomes ∧
        Performs r step (step.filled (outcomes.map Outcome.toJson)).keywords w₂ aimed.iterating
          aimed.target answer w' := by
  constructor
  · rintro ⟨w₁, named, w₂, aims, keywords, performed⟩
    obtain ⟨outcomes, resolved, maps, rfl⟩ := keywordTree_eq_ok_iff.mp keywords
    exact ⟨w₁, outcomes, w₂, aims, resolved, maps, perform_eq_result_iff.mp performed⟩
  · rintro ⟨w₁, outcomes, w₂, aims, resolved, maps, performs⟩
    exact ⟨w₁, _, w₂, aims, keywordTree_eq_ok_iff.mpr ⟨outcomes, resolved, maps, rfl⟩,
      perform_eq_result_iff.mpr performs⟩

/-- Without references the keywords of a step are a matter of the step alone. -/
theorem attempts_of_literals {run aimed : Run} {answer : Except Error Outcome}
    (literal : step.references = []) : r.Attempts run step w aimed answer w' ↔
      ∃ w₁, r.aim run step w = .ok aimed w₁ ∧
        Performs r step step.keywords w₁ aimed.iterating aimed.target answer w' := by
  constructor
  · rintro ⟨w₁, named, w₂, aims, keywords, performed⟩
    cases (keywordTree_of_literals literal _ w₁).symm.trans keywords
    exact ⟨w₁, aims, perform_eq_result_iff.mp performed⟩
  · rintro ⟨w₁, aims, performs⟩
    exact ⟨w₁, _, w₁, aims, keywordTree_of_literals literal _ w₁, perform_eq_result_iff.mpr performs⟩

/-- References are transparent. A step gets its keywords exactly if its references resolve one after
the other, to maps where they are to be merged into the whole tree; and then what is invoked, once or
on each entry of its target in turn, is given the keywords of the step that has, at the place of each
reference, the value that it resolved to as a literal. So a step without references is invoked with
the very tree that is printed for it. -/
theorem references_transparent (r : Registry) (cache : Table String Outcome) (step : Step)
    (w : World) :
    (∀ named w', r.keywordTree cache step w = .ok named w' ↔
      ∃ outcomes, r.resolve cache step w = .ok outcomes w' ∧ MapsMerged step.references outcomes ∧
        named = (step.filled (outcomes.map Outcome.toJson)).keywords) ∧
    (∀ outcomes w', r.resolve cache step w = .ok outcomes w' →
      (step.filled (outcomes.map Outcome.toJson)).references = []) ∧
    (∀ run aimed answer w', r.Attempts run step w aimed answer w' ↔
      ∃ w₁ outcomes w₂, r.aim run step w = .ok aimed w₁ ∧
        r.resolve aimed.soFar.cache step w₁ = .ok outcomes w₂ ∧
        MapsMerged step.references outcomes ∧
        Performs r step (step.filled (outcomes.map Outcome.toJson)).keywords w₂ aimed.iterating
          aimed.target answer w') ∧
    (step.references = [] → r.keywordTree cache step w = .ok step.keywords w ∧
      (∀ run aimed answer w', r.Attempts run step w aimed answer w' ↔
        ∃ w₁, r.aim run step w = .ok aimed w₁ ∧
          Performs r step step.keywords w₁ aimed.iterating aimed.target answer w') ∧
      ∃ fields, step.toJson = .obj fields ∧ Table.get? fields "keywords" =
        if step.keywords.isEmpty then none else some (.obj step.keywords)) := by
  refine ⟨?_, ?_, ?_, ?_⟩
  · intro named w'
    exact keywordTree_eq_ok_iff
  · intro outcomes w' resolved
    exact references_of_resolve resolved
  · intro run aimed answer w'
    exact attempts_iff
  · intro literal
    refine ⟨keywordTree_of_literals literal cache w, ?_, step.printed_keywords⟩
    intro run aimed answer w'
    exact attempts_of_literals literal

namespace Sample

/-- Each assignment but the first writes over what an earlier one wrote, or beside it. -/
def mixing : Step where
  method := "show"
  assignments := [.literal ["a", "b"] (.int 1), .reference ["a"] ["n"], .reference [] ["m", "0"],
    .literal ["c"] (.bool true)]

def labelled : Table String Outcome :=
  [("n", .data (.int 5)), ("m", .list [.data (.obj [("a", .obj [("x", .int 2)]), ("d", .null)])])]

theorem mixing_resolved : oneRoot.keywordTree labelled mixing world =
      .ok [("a", .obj [("x", .int 2)]), ("d", .null), ("c", .bool true)] world ∧
    (mixing.filled [.int 5, .obj [("a", .obj [("x", .int 2)]), ("d", .null)]]).references = [] ∧
    oneRoot.keywordTree labelled returning[0] world = .ok [] world := by
  let outcomes : List Outcome :=
    [.data (.int 5), .data (.obj [("a", .obj [("x", .int 2)]), ("d", .null)])]
  have resolved : oneRoot.resolve labelled mixing world = .ok outcomes world := rfl
  have maps : MapsMerged mixing.references outcomes :=
    mapsMerged_cons.mpr ⟨nofun, mapsMerged_cons.mpr ⟨fun _ => ⟨_, rfl⟩, .nil⟩⟩
  obtain ⟨tree, filled, -, -⟩ := references_transparent oneRoot labelled mixing world
  refine ⟨(tree _ _).mpr ⟨outcomes, resolved, maps, rfl⟩, filled outcomes world resolved, ?_⟩
  exact ((references_transparent oneRoot labelled returning[0] world).2.2.2 rfl).1

end Sample
end Registry
end Lineage
