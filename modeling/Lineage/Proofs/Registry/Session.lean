import Lineage.Proofs.Registry.Frame

/-!
Sessions: every world that a registry comes to by whatever is asked of it, in any order. No step
loses an entry or makes a world unsound, so every world of a session is sound.
-/
namespace Lineage

open World Action

/-- Whatever else it does, an action loses no entry and keeps a sound world sound. -/
def Action.Safe {α : Type} (act : Action α) : Prop := Along Grows any act Registry.anything

namespace World

theorem frame_grows : Frame Grows where
  refl := grows_course.refl
  trans := grows_course.trans
  lookup h := h.grows
  disk _ _ := Nat.le_refl _

theorem bears_grows (e : Entry) : Bears Grows e := by
  intro w params
  simp [Grows, setCells]

end World

namespace Registry

/-- New own parameters, made of the present ones. -/
theorem changeOwn_of_own_safe (r : Registry) (e : Entry) {f : Params → Params}
    (h : ∀ params, Table.Distinct params → Table.Distinct (f params)) :
    Safe (r.own e >>= fun params => changeCells e fun c => { c with own := some (f params) }) :=
  (changeOwn_along frame_grows r e h).weaken (fun _ _ _ => bears_grows e) fun _ _ h => h

/-! ### Steps -/

/-- A step in which the own parameters of an entry are edited. -/
inductive Edits (r : Registry) (e : Entry) (w : World) : World → Prop
  | request {q : Request} (h : e ∈ q.edited) : Edits r e w (after (r.answer q) w)
  | invoke {x : Entry} {method : String} {positional : List Json} {named : Params}
      (h : ∃ q, r.askedByCall x method positional named w q ∧ e ∈ q.edited) :
      Edits r e w (after (r.invoke x method positional named) w)
  | execute {keepGoing : Bool} {steps : List Step}
      (h : ∃ q, r.askedByPipeline keepGoing steps w q ∧ e ∈ q.edited) :
      Edits r e w (after (r.execute keepGoing steps) w)

/-- What a registry is used for between two looks at a world. Nobody adds an entry or makes one
known by hand; the disk can be changed by others. -/
inductive Use (r : Registry) (w : World) : World → Prop
  | request (q : Request) : Use r w (after (r.answer q) w)
  | invoke (e : Entry) (method : String) (positional : List Json) (named : Params) :
      Use r w (after (r.invoke e method positional named) w)
  | indexed (collection : Entry) (name : String) : Use r w (after (r.indexed collection name) w)
  | search (name : String) (collection : Entry) (visited : List Path) :
      Use r w (after (r.searchFrom name collection visited) w)
  | metadata (e : Entry) : Use r w (after (r.metadata e) w)
  | operations (e : Entry) : Use r w (after (r.operations e) w)
  | ancestry (e : Entry) : Use r w (after (r.ancestry e) w)
  | parameter (e : Entry) (name : String) : Use r w (after (r.parameter e name) w)
  | reach (e : Entry) (method : String) : Use r w (after (r.reach e method) w)
  | execute (keepGoing : Bool) (steps : List Step) : Use r w (after (r.execute keepGoing steps) w)
  | disk (d : Disk) : Use r w { w with disk := d }

/-- A use follows a frame that bears the edits made in it. -/
theorem Use.follows {r : Registry} {R : World → World → Prop} (frame : Frame R) {w w' : World}
    (h : Use r w w') (hw : w.Sound) (edits : ∀ e, Edits r e w w' → Bears R e) :
    R w w' ∧ w'.Sound := by
  have looked {α γ : Type} {view : Cells → γ} {act : Action α} {Q : α → World → Prop}
      (h : Along (Extends view) any act Q) : R w (after act w) ∧ (after act w).Sound :=
    have ⟨hr, hs, _⟩ := (h.coarsen fun _ => ()) w hw trivial
    ⟨frame.lookup hr, hs⟩
  cases h with
  | request q =>
      obtain ⟨hr, hs, -⟩ := answer_along frame r q w hw fun e he => edits e (.request he)
      exact ⟨hr, hs⟩
  | invoke e method positional named =>
      obtain ⟨hr, hs, -⟩ := invoke_along frame r e method positional named w hw
        fun q asked x hx => edits x (.invoke ⟨q, asked, hx⟩)
      exact ⟨hr, hs⟩
  | indexed collection name => exact looked ((indexed_along r collection name).mono fun _ _ h => h.1)
  | search name collection visited =>
      exact looked ((searchFrom_along r name collection visited).mono fun _ _ h => h.1)
  | metadata e => exact looked (metadata_along r e)
  | operations e => exact looked (operations_along r e)
  | ancestry e => exact looked (ancestry_anywhere r e)
  | parameter e name => exact looked (parameter_along r e name)
  | reach e method => exact looked (reach_along r e method)
  | execute keepGoing steps =>
      obtain ⟨hr, hs, -⟩ := execute_along frame r keepGoing steps w hw
        fun q asked e he => edits e (.execute ⟨q, asked, he⟩)
      exact ⟨hr, hs⟩
  | disk d => exact ⟨frame.disk w d, hw.onDisk d⟩

/-! ### Sessions -/

theorem register_along (e : Entry) :
    Along Grows (fun w => w.Holds e) (register e) anything := by
  intro w hw he
  exact ⟨Nat.le_refl _, (hw.knowPath e.path.components he).knowName e.name he, fun _ _ _ => trivial⟩

theorem ofConfig_safe (config : Config) (base : Path) (catalog : Catalog)
    (builtins : List Namespace) : Safe (ofConfig config base catalog builtins) := by
  refine .bind grows_course (mapM_along grows_course (Q := fun _ => anything) _ fun spec => ?_)
    fun roots => .pure grows_course fun _ _ _ => trivial
  refine .bind grows_course ((create_along _ _).mono fun _ _ hr => hr.grows) fun root => ?_
  exact .bind grows_course (register_along root) fun _ => .pure grows_course fun _ _ _ => trivial

/-- What can happen to a world between two looks at it. New entries can come with parts that are
known from the start; the disk can be changed by others. -/
inductive Move (r : Registry) (w : World) : World → Prop
  | request (q : Request) : Move r w (after (r.answer q) w)
  | invoke (e : Entry) (method : String) (positional : List Json) (named : Params) :
      Move r w (after (r.invoke e method positional named) w)
  | metadata (e : Entry) : Move r w (after (r.metadata e) w)
  | operations (e : Entry) : Move r w (after (r.operations e) w)
  | ancestry (e : Entry) : Move r w (after (r.ancestry e) w)
  | parameter (e : Entry) (name : String) : Move r w (after (r.parameter e name) w)
  | reach (e : Entry) (method : String) : Move r w (after (r.reach e method) w)
  | search (name : String) (collection : Entry) (visited : List Path) :
      Move r w (after (r.searchFrom name collection visited) w)
  | execute (keepGoing : Bool) (steps : List Step) : Move r w (after (r.execute keepGoing steps) w)
  | create (path : Path) (name : String) (cells : Cells)
      (own : ∀ params, cells.own = some params → Table.Distinct params)
      (parent : ∀ p, cells.parent = some (some p) → w.Holds p) :
      Move r w (after (create path name cells) w)
  | register (e : Entry) (held : w.Holds e) : Move r w (after (register e) w)
  | disk (d : Disk) : Move r w { w with disk := d }

/-- The worlds of a session: it starts with the collections of a configuration on some disk. -/
inductive Session (r : Registry) : World → Prop
  | start {config base catalog builtins disk w}
      (h : ofConfig config base catalog builtins { disk } = .ok r w) : Session r w
  | move {w w'} (before : Session r w) (h : Move r w w') : Session r w'

/-- A move is a use of the registry, or adds an entry or makes one known. -/
theorem Move.use_or {r : Registry} {w w' : World} (h : Move r w w') : Use r w w' ∨
    (∃ path name cells, (∀ params, cells.own = some params → Table.Distinct params) ∧
      (∀ p, cells.parent = some (some p) → w.Holds p) ∧
      w' = after (Registry.create path name cells) w) ∨
    ∃ e, w.Holds e ∧ w' = after (Registry.register e) w := by
  cases h with
  | request q => exact .inl (.request q)
  | invoke e method positional named => exact .inl (.invoke e method positional named)
  | metadata e => exact .inl (.metadata e)
  | operations e => exact .inl (.operations e)
  | ancestry e => exact .inl (.ancestry e)
  | parameter e name => exact .inl (.parameter e name)
  | reach e method => exact .inl (.reach e method)
  | search name collection visited => exact .inl (.search name collection visited)
  | execute keepGoing steps => exact .inl (.execute keepGoing steps)
  | create path name cells own parent => exact .inr (.inl ⟨path, name, cells, own, parent, rfl⟩)
  | register e held => exact .inr (.inr ⟨e, held, rfl⟩)
  | disk d => exact .inl (.disk d)

theorem Move.grows_sound {r : Registry} {w w' : World} (h : Move r w w') (hw : w.Sound) :
    w.Grows w' ∧ w'.Sound := by
  rcases h.use_or with h | ⟨path, name, cells, own, parent, rfl⟩ | ⟨e, held, rfl⟩
  · exact h.follows frame_grows hw fun e _ => bears_grows e
  · exact ⟨by simp [Grows, after, Registry.create], hw.append own parent⟩
  · exact ⟨(register_along e w hw held).1, (register_along e w hw held).2.1⟩

theorem sound_empty (disk : Disk) : ({ disk } : World).Sound := by
  refine ⟨?_, ?_, ?_, ?_⟩
  · intro e params h
    simp [cellsOf] at h
  · intro e p h
    simp [cellsOf] at h
  · intro place e h
    simp at h
  · intro name e h
    simp at h

/-- Every world of a session is sound. -/
theorem Session.sound {r : Registry} {w : World} (h : Session r w) : w.Sound := by
  induction h with
  | @start config base catalog builtins disk w h =>
      have hs := (ofConfig_safe config base catalog builtins _ (sound_empty disk) trivial).2.1
      rwa [after_of_ok h] at hs
  | move _ h ih => exact (h.grows_sound ih).2

/-! ### A small session: an entry below another -/

namespace Sample

/-- An operation that answers with what it is handed. -/
def echo (name : String) : Operation where
  name := name
  doc := ""
  shape := { required := ["first", "alpha"], optional := [("beta", .int 0), ("gamma", .int 3)] }
  body c := .done (.data (.obj c.args.toTable))

def registry : Registry where
  base := ⟨"."⟩
  config := { collections := [] }
  roots := []
  catalog := []
  builtins := [.ofList "entry" "" [echo "show"]]

def upper : Entry := ⟨0, ⟨"upper"⟩, "upper"⟩

def lower : Entry := ⟨1, ⟨"lower"⟩, "lower"⟩

def upperCells : Cells where
  own := some [("alpha", .int 1), ("beta", .int 1)]
  parent := some none
  operations := some (some (.ofList "upper" "" [echo "echo"]))

def lowerCells : Cells where
  own := some [("beta", .int 2)]
  parent := some (some upper)
  operations := some none

def world : World where
  disk := ⟨[], []⟩
  cells := [upperCells, lowerCells]

theorem holds_lower : world.Holds lower := by
  rw [World.Holds]
  decide

theorem holds_upper : world.Holds upper := by
  rw [World.Holds]
  decide

theorem session : Session registry world := by
  have empty : Session registry { disk := ⟨[], []⟩ } :=
    .start (show ofConfig { collections := [] } ⟨"."⟩ [] [.ofList "entry" "" [echo "show"]]
      { disk := ⟨[], []⟩ } = .ok registry _ from rfl)
  have one : Session registry { disk := ⟨[], []⟩, cells := [upperCells] } := by
    refine empty.move (.create ⟨"upper"⟩ "upper" upperCells ?_ ?_)
    · intro params hp
      cases hp
      rw [Table.Distinct]
      decide
    · intro p hp
      cases hp
  refine one.move (.create ⟨"lower"⟩ "lower" lowerCells ?_ ?_)
  · intro params hp
    cases hp
    rw [Table.Distinct]
    decide
  · intro p hp
    cases hp
    rw [World.Holds]
    decide

end Sample

end Registry
end Lineage
