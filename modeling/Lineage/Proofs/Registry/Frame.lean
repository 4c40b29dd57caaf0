import Lineage.Execution
import Lineage.Proofs.Registry.Lookups
import Lineage.Proofs.Registry.Scripts

/-!
What is left alone by whatever is asked of a registry. Lookups only add to a world. Otherwise a world
changes in its disk and in the own parameters of the entries that are edited, and an invocation edits
what the requests that come up in it edit. A relation that bears these changes is one between the
worlds before and after.
-/
namespace Lineage

open World Action

/-- A course that lookups follow and to which the disk makes no difference. -/
structure World.Frame (R : World → World → Prop) : Prop extends Course R where
  lookup : ∀ {w w'}, Extends Cells.nothing w w' → R w w'
  disk : ∀ w d, R w { w with disk := d }

/-- New own parameters of an entry are borne by a relation. -/
def World.Bears (R : World → World → Prop) (e : Entry) : Prop :=
  ∀ w params, R w (w.setCells e { w.cellsOf e with own := some params })

/-- The entry whose own parameters a request changes. -/
def Request.edited : Request → Option Entry
  | .setParameter e .. | .updateParameters e _ => some e
  | _ => none

/-! ### The requests that come up -/

/-- A request comes up in a run of a script: in the script itself, or in the body of an operation that
it calls. -/
inductive Script.Asks (r : Registry) : {α : Type} → Script α → World → Request → Prop
  | now {α : Type} {q : Request} {next : Except Error q.Answer → Script α} {w : World} :
      Asks r (.ask q next) w q
  | later {α : Type} {q q' : Request} {next : Except Error q.Answer → Script α}
      {given : Except Error q.Answer} {w w₁ : World} (answered : r.answer q w = result given w₁)
      (asks : Asks r (next given) w₁ q') : Asks r (.ask q next) w q'
  | within {α : Type} {e : Entry} {method : String} {positional : List Json} {named : Params}
      {next : Except Error Outcome → Script α} {got : Registry.Reception} {w w₁ : World}
      {q : Request} (received : r.received e method positional named w = .ok got w₁)
      (asks : Asks r (got.operation.body ⟨e, method, got.args⟩) w₁ q) :
      Asks r (.call e method positional named next) w q
  | after {α : Type} {e : Entry} {method : String} {positional : List Json} {named : Params}
      {next : Except Error Outcome → Script α} {given : Except Error Outcome} {w w₁ : World}
      {q : Request} (returned : r.Returns e method positional named w given w₁)
      (asks : Asks r (next given) w₁ q) : Asks r (.call e method positional named next) w q

/-- The requests that come up while a list is gone through, up to the first failure. -/
def askedEach {α β : Type} (act : α → Action β) (within : α → World → Request → Prop) :
    List α → World → Request → Prop
  | [], _, _ => False
  | x :: xs, w, q => within x w q ∨
    match act x w with
    | .ok _ w => askedEach act within xs w q
    | .error .. => False

namespace Registry

/-- The requests that come up in an invocation, those of the calls that it makes included. -/
def askedByCall (r : Registry) (e : Entry) (method : String) (positional : List Json)
    (named : Params) (w : World) (q : Request) : Prop :=
  match r.received e method positional named w with
  | .ok got w => (got.operation.body ⟨e, method, got.args⟩).Asks r w q
  | .error .. => False

/-- A step that has its target and its keywords. -/
def ready (r : Registry) (run : Run) (step : Step) : Action (Run × Params) := do
  let run ← r.aim run step
  return (run, ← r.keywordTree run.soFar.cache step)

def askedToPerform (r : Registry) (run : Run) (step : Step) (named : Params) (w : World) :
    Request → Prop :=
  let call := fun e => r.askedByCall e step.method step.positional named
  if run.iterating then
    askedEach (fun e => r.invoke e step.method step.positional named) call run.target.entries w
  else
    match run.target with
    | .one e => call e w
    | .many _ => fun _ => False

def askedBySteps (r : Registry) (keepGoing : Bool) : List Step → Run → World → Request → Prop
  | [], _, _, _ => False
  | step :: steps, run, w, q =>
    (match r.ready run step w with
      | .ok (run, named) w => r.askedToPerform run step named w q
      | .error .. => False) ∨
    match r.runStep keepGoing run step w with
    | .ok run w => r.askedBySteps keepGoing steps run w q
    | .error .. => False

/-- The requests that come up when a pipeline is run. -/
def askedByPipeline (r : Registry) (keepGoing : Bool) (steps : List Step) (w : World) :
    Request → Prop :=
  match r.workingCollection w with
  | .ok root w => r.askedBySteps keepGoing (if steps.isEmpty then [{ method := "help" }] else steps)
      { root, target := .one root } w
  | .error .. => fun _ => False

/-! ### Following a frame -/

/-- What requests edit is borne. -/
def Allows (R : World → World → Prop) (asked : Request → Prop) : Prop :=
  ∀ q, asked q → ∀ e ∈ q.edited, Bears R e

theorem Allows.sub {R : World → World → Prop} {asked more : Request → Prop} (h : Allows R more)
    (sub : ∀ q, asked q → more q) : Allows R asked := fun q hq => h q (sub q hq)

end Registry

namespace Action.Along

variable {α β : Type} {R : World → World → Prop} {P : World → Prop} {Q : α → World → Prop}

/-- What is known of the answer from where the action started. -/
theorem establish {act : Action α} (h : Along R P act Q) {Q' : α → World → Prop}
    (hq : ∀ w a w', P w → act w = .ok a w' → Q' a w') : Along R P act Q' := by
  intro w sound hp
  obtain ⟨hr, hs, -⟩ := h w sound hp
  exact ⟨hr, hs, fun a w' ha => hq w a w' hp ha⟩

/-- An action that leaves the world which another one leaves follows what that one follows. -/
theorem of_after {act : Action α} {act' : Action β} (h : Along R P act Q)
    (he : ∀ w, after act' w = after act w) : Along R P act' Registry.anything := by
  intro w sound hp
  obtain ⟨hr, hs, -⟩ := h w sound hp
  rw [he w]
  exact ⟨hr, hs, fun _ _ _ => trivial⟩

theorem forget (h : Along R P act Q) : Along R P act Registry.anything :=
  h.weaken (fun _ _ hp => hp) fun _ _ _ => trivial

end Action.Along

namespace Registry

variable {R : World → World → Prop}

theorem changeOwn_along (frame : Frame R) (r : Registry) (e : Entry) {f : Params → Params}
    (h : ∀ params, Table.Distinct params → Table.Distinct (f params)) :
    Along R (fun _ => Bears R e)
      (r.own e >>= fun params => changeCells e fun c => { c with own := some (f params) })
      anything := by
  have own := ((own_extends r e).mono fun _ _ hr => frame.lookup hr).frame
    (F := fun _ => Bears R e) fun _ _ _ h => h
  refine .bind frame.toCourse (own.weaken (fun _ _ h => ⟨trivial, h⟩) fun _ _ h => h) fun params => ?_
  intro w hw hq
  refine ⟨hq.2 w (f params), ?_, fun _ _ _ => trivial⟩
  exact hw.setCells e (fun _ hp => Option.some.inj hp ▸ h params hq.1.1) fun p hp => hw.parent e p hp

theorem onDisk_along (frame : Frame R) {α : Type} (act : Disk.DocumentAction α) :
    Along R any (onDisk act) anything := by
  intro w hw _
  refine ⟨?_, ?_, fun _ _ _ => trivial⟩
  · rw [after, onDisk]
    cases act w.disk <;> exact frame.disk w _
  · rw [after, onDisk]
    cases act w.disk <;> exact hw.onDisk _

theorem tryOnDisk_along (frame : Frame R) (act : DiskAction Unit) :
    Along R any (tryOnDisk act) anything := by
  intro w hw _
  refine ⟨?_, ?_, fun _ _ _ => trivial⟩
  · rw [after, tryOnDisk]
    cases act w.disk <;> exact frame.disk w _
  · rw [after, tryOnDisk]
    cases act w.disk <;> exact hw.onDisk _

theorem persist_along (frame : Frame R) (r : Registry) (e : Entry) :
    Along R any (r.persist e) anything := by
  have course := frame.toCourse
  refine .bind course ((own_extends r e).mono fun _ _ hr => frame.lookup hr) fun params => ?_
  dsimp only
  split
  · exact (onDisk_along frame _).anywhere
  · refine .bind course (((readDocument_along _ _).coarsen Cells.nothing).mono
      fun _ _ hr => frame.lookup hr).anywhere fun _ => (onDisk_along frame _).anywhere

theorem workingCollection_along (course : Course R) (r : Registry) :
    Along R any r.workingCollection anything := by
  rw [workingCollection]
  split
  · exact .pure course fun _ _ _ => trivial
  · exact .throw course _

theorem answer_along (frame : Frame R) (r : Registry) (q : Request) :
    Along R (fun _ => ∀ e ∈ q.edited, Bears R e) (r.answer q) anything := by
  have course := frame.toCourse
  have looked {α γ : Type} {view : Cells → γ} {act : Action α} {Q : α → World → Prop}
      {P : World → Prop} (h : Along (Extends view) any act Q) : Along R P act anything :=
    ((h.coarsen fun _ => ()).mono fun _ _ hr => frame.lookup hr).forget.anywhere
  cases q with
  | workingCollection => exact (workingCollection_along course r).anywhere
  | basePath file => exact .pure course fun _ _ _ => trivial
  | byPath path => exact looked (byPath_along path)
  | byName name => exact looked (byName_along r name)
  | cached name => exact looked ((cached_along name).mono fun _ _ hr => hr.1)
  | searchIn name collection =>
      exact .bind course (looked ((searchFrom_along r name collection []).mono fun _ _ hr => hr.1))
        fun _ => .pure course fun _ _ _ => trivial
  | own e => exact looked (own_along r e)
  | merged e => exact looked (merged_along r e)
  | setParameter e name value =>
      exact (changeOwn_along frame r e fun _ h => h.insert name value).weaken
        (fun _ _ h => h e rfl) fun _ _ h => h
  | updateParameters e data =>
      exact (changeOwn_along frame r e fun _ h => h.overlay data).weaken
        (fun _ _ h => h e rfl) fun _ _ h => h
  | persist e => exact (persist_along frame r e).anywhere
  | parent e => exact looked (parent_along r e)
  | describeEntry e => exact looked (describeEntry_along r e)
  | describeMethod e method => exact looked (describeMethod_along r e method)
  | pathExists path => exact .get_bind fun _ => .pure course fun _ _ _ => trivial
  | makeDirs path => exact (tryOnDisk_along frame _).anywhere
  | removeDirs path => exact (tryOnDisk_along frame _).anywhere

theorem received_along (frame : Frame R) (r : Registry) (e : Entry) (method : String)
    (positional : List Json) (named : Params) :
    Along R any (r.received e method positional named) anything := by
  have course := frame.toCourse
  have bound (op : Operation) (bag : Params) : Along R any (bound op positional bag) anything := by
    rw [Registry.bound]
    split
    · exact .pure course fun _ _ _ => trivial
    · exact .throw course _
  refine .bind course ((dispatch_along r e method).mono fun _ _ hr => frame.lookup hr) fun found => ?_
  cases found with
  | inherited reached =>
      exact .bind course ((merged_along r e).mono fun _ _ hr => frame.lookup hr).anywhere
        fun view => (bound _ _).anywhere
  | builtin layer op => exact (bound op _).anywhere

/-- A script follows what the answers to its requests follow, and to those of what it calls. -/
theorem plays_along (frame : Frame R) {r : Registry} {α : Type} {script : Script α}
    {answer : Except Error α} {w w' : World} (h : r.Plays script w answer w') (hw : w.Sound)
    (allows : Allows R (script.Asks r w)) : R w w' ∧ w'.Sound := by
  have took {e : Entry} {method : String} {positional : List Json} {named : Params} {w : World}
      (hw : w.Sound) {taken : EStateM.Result Error World Reception}
      (taking : r.received e method positional named w = taken) :
      R w (after (fun _ => taken) w) ∧ (after (fun _ => taken) w).Sound := by
    obtain ⟨hr, hs, -⟩ := received_along frame r e method positional named w hw trivial
    rw [after, taking] at hr hs
    exact ⟨hr, hs⟩
  induction h with
  | @done α a w | @fail α err w => exact ⟨frame.refl w, hw⟩
  | @ask α q next given answer w w₁ w' answered _ ih =>
      obtain ⟨hr, hs, -⟩ := answer_along frame r q w hw (allows q .now)
      rw [after_of_result answered] at hr hs
      obtain ⟨hr', hs'⟩ := ih hs (allows.sub fun q' => .later answered)
      exact ⟨frame.trans hr hr', hs'⟩
  | refused refused _ ih =>
      obtain ⟨hr, hs⟩ := took hw refused
      obtain ⟨hr', hs'⟩ := ih hs (allows.sub fun q => .after (.refused refused))
      exact ⟨frame.trans hr hr', hs'⟩
  | called received body _ inner rest =>
      obtain ⟨hr, hs⟩ := took hw received
      obtain ⟨hr', hs'⟩ := inner hs (allows.sub fun q => .within received)
      obtain ⟨hr'', hs''⟩ := rest hs' (allows.sub fun q => .after (.ran received body))
      exact ⟨frame.trans hr (frame.trans hr' hr''), hs''⟩

theorem run_along (frame : Frame R) (r : Registry) {α : Type} (script : Script α) :
    Along R (fun w => Allows R (script.Asks r w)) (r.run script) anything := by
  intro w hw allows
  rcases plays_or_unbounded r script w with ⟨answer, w', plays⟩ | ⟨-, endless⟩
  · obtain ⟨hr, hs⟩ := plays_along frame plays hw allows
    rw [after_of_result (run_of_plays plays)]
    exact ⟨hr, hs, fun _ _ _ => trivial⟩
  · rw [after_of_error endless]
    exact ⟨frame.refl w, hw, fun _ _ _ => trivial⟩

theorem after_runBody (r : Registry) (op : Operation) (c : Call) (bag : Params) (w : World) :
    after (r.runBody op c bag) w = after (r.run (op.body c)) w := by
  rw [after, after, runBody]
  cases r.run (op.body c) w <;> rfl

/-- An invocation follows a frame that bears the edits that come up in it. -/
theorem invoke_along (frame : Frame R) (r : Registry) (e : Entry) (method : String)
    (positional : List Json) (named : Params) :
    Along R (fun w => Allows R (r.askedByCall e method positional named w))
      (r.invoke e method positional named) anything := by
  refine .bind frame.toCourse ((received_along frame r e method positional named).anywhere.establish
    fun w got w' hp taken => ?_) fun got =>
      (run_along frame r (got.operation.body ⟨e, method, got.args⟩)).of_after (after_runBody r _ _ _)
  refine hp.sub fun q asks => ?_
  rw [askedByCall, taken]
  exact asks

/-! ### Pipelines -/

theorem foldlM_along {α β : Type} (course : Course R) {f : β → α → Action β} (xs : List α) (b : β)
    (h : ∀ b x, Along R any (f b x) anything) : Along R any (xs.foldlM f b) anything := by
  induction xs generalizing b with
  | nil => exact .pure course fun _ _ _ => trivial
  | cons x xs ih => exact .bind course (h b x) fun b => (ih b).anywhere

theorem member_along (frame : Frame R) (r : Registry) (reference : List String) (outcome : Outcome)
    (key : String) : Along R any (r.member reference outcome key) anything := by
  have course := frame.toCourse
  simp only [member]
  split
  · split
    · exact .pure course fun _ _ _ => trivial
    · exact .throw course _
  · split
    · exact .pure course fun _ _ _ => trivial
    · exact .throw course _
  · split
    · exact .pure course fun _ _ _ => trivial
    · exact .throw course _
  · refine .bind course ((parameter_along r _ key).mono fun _ _ hr => frame.lookup hr) fun found => ?_
    split
    · exact .pure course fun _ _ _ => trivial
    · exact .throw course _
  · exact .throw course _

theorem lookup_along (frame : Frame R) (r : Registry) (cache : Table String Outcome)
    (reference : List String) : Along R any (r.lookup cache reference) anything := by
  have course := frame.toCourse
  simp only [lookup]
  split
  · exact .throw course _
  · split
    · exact foldlM_along course _ _ fun outcome key => member_along frame r _ outcome key
    · exact .throw course _

theorem keywordTree_along (frame : Frame R) (r : Registry) (cache : Table String Outcome)
    (step : Step) : Along R any (r.keywordTree cache step) anything := by
  have course := frame.toCourse
  refine foldlM_along course _ _ fun tree a => ?_
  simp only [assignInto]
  split
  · exact .pure course fun _ _ _ => trivial
  · refine .bind course (lookup_along frame r cache _) fun outcome => ?_
    split
    · exact .pure course fun _ _ _ => trivial
    · exact .throw course _

theorem cachedTarget_along (frame : Frame R) (r : Registry) (cache : Table String Outcome)
    (reference : List String) : Along R any (r.cachedTarget cache reference) anything := by
  have course := frame.toCourse
  refine .bind course (lookup_along frame r cache reference) fun outcome => ?_
  split
  · exact .pure course fun _ _ _ => trivial
  · split
    · exact .pure course fun _ _ _ => trivial
    · exact .throw course _

theorem ready_along (frame : Frame R) (r : Registry) (run : Run) (step : Step) :
    Along R any (r.ready run step) anything := by
  have course := frame.toCourse
  have done {P : World → Prop} (run : Run) : Along R P (pure run) anything :=
    .pure course fun _ _ _ => trivial
  have aim : Along R any (r.aim run step) anything := by
    rw [aim]
    split
    · split
      · exact .bind course (done _) fun _ => done _
      · exact .bind course (done _) fun _ => done _
    · exact .bind course (done _) fun _ => done _
    · exact .bind course (cachedTarget_along frame r _ _) fun _ => .bind course (done _) fun _ => done _
    · refine .bind course ((((byPath_along _).coarsen Cells.nothing).mono
        fun _ _ hr => frame.lookup hr)) fun _ => .bind course (done _) fun _ => done _
  exact .bind course aim fun run => .bind course (keywordTree_along frame r _ step).anywhere
    fun _ => .pure course fun _ _ _ => trivial

theorem mapM_asked_along {α β : Type} (course : Course R) {act : α → Action β}
    {within : α → World → Request → Prop} (xs : List α)
    (h : ∀ x, Along R (fun w => Allows R (within x w)) (act x) anything) :
    Along R (fun w => Allows R (askedEach act within xs w)) (xs.mapM act) anything := by
  induction xs with
  | nil => exact .pure course fun _ _ _ => trivial
  | cons x xs ih =>
      rw [List.mapM_cons]
      refine .bind course (((h x).weaken (fun w _ hp => ?_) fun _ _ hq => hq).establish
        fun w a w' hp ha => ?_) fun _ => .bind course ih fun _ => .pure course fun _ _ _ => trivial
      · exact hp.sub fun q => .inl
      · refine hp.sub fun q asked => .inr ?_
        rw [ha]
        exact asked

theorem perform_along (frame : Frame R) (r : Registry) (run : Run) (step : Step) (named : Params) :
    Along R (fun w => Allows R (r.askedToPerform run step named w)) (r.perform run step named)
      anything := by
  have course := frame.toCourse
  have each (e : Entry) := invoke_along frame r e step.method step.positional named
  rw [perform]
  dsimp only [askedToPerform]
  split
  · exact .bind course (mapM_asked_along course _ each) fun _ => .pure course fun _ _ _ => trivial
  · cases run.target with
    | one e => exact each e
    | many entries => exact .throw course _

/-- A step whose action has been run: it moves the run on, or is passed over. -/
def settled (keepGoing : Bool) (run : Run) (step : Step) (act : Action Outcome) : Action Run :=
  fun w =>
    match act w with
    | .ok outcome w => .ok (run.advance step outcome) w
    | .error e w => if keepGoing && e.isRaised then .ok (run.passOver step e) w else .error e w

theorem after_settled (keepGoing : Bool) (run : Run) (step : Step) (act : Action Outcome)
    (w : World) : after (settled keepGoing run step act) w = after act w := by
  rw [after, after, settled]
  cases act w with
  | ok outcome w' => rfl
  | error err w' => cases h : keepGoing && err.isRaised <;> simp [h]

theorem runStep_eq (r : Registry) (keepGoing : Bool) (run : Run) (step : Step) :
    r.runStep keepGoing run step = r.ready run step >>= fun next =>
      settled keepGoing next.1 step (r.perform next.1 step next.2) := by
  rw [runStep, ready, bind_assoc]
  congr 1
  funext run
  rw [bind_assoc]
  rfl

theorem after_runStep (r : Registry) (keepGoing : Bool) (run : Run) (step : Step) (w : World) :
    after (r.runStep keepGoing run step) w =
      after (r.ready run step >>= fun next => r.perform next.1 step next.2) w := by
  rw [runStep_eq, after_bind, after_bind]
  cases r.ready run step w with
  | error err w₁ => rfl
  | ok next w₁ => exact after_settled ..

theorem steps_along (frame : Frame R) (r : Registry) (keepGoing : Bool) (steps : List Step)
    (run : Run) :
    Along R (fun w => Allows R (r.askedBySteps keepGoing steps run w))
      (steps.foldlM (r.runStep keepGoing) run) anything := by
  have course := frame.toCourse
  induction steps generalizing run with
  | nil => exact .pure course fun _ _ _ => trivial
  | cons step steps ih =>
      have head : Along R (fun w => Allows R (r.askedBySteps keepGoing (step :: steps) run w))
          (r.ready run step >>= fun next => r.perform next.1 step next.2) anything := by
        refine .bind course ((ready_along frame r run step).anywhere.establish
          fun w next w' hp hn => ?_) fun next => perform_along frame r next.1 step next.2
        refine hp.sub fun q asked => .inl ?_
        rw [hn]
        exact asked
      refine .bind course ((head.of_after (after_runStep r keepGoing run step)).establish
        fun w next w' hp hn => ?_) ih
      refine hp.sub fun q asked => .inr ?_
      rw [hn]
      exact asked

theorem execute_along (frame : Frame R) (r : Registry) (keepGoing : Bool) (steps : List Step) :
    Along R (fun w => Allows R (r.askedByPipeline keepGoing steps w))
      (r.execute keepGoing steps) anything := by
  have course := frame.toCourse
  refine .bind course ((workingCollection_along course r).anywhere.establish
    fun w root w' hp hr => ?_) fun root =>
      .bind course (steps_along frame r keepGoing _ _) fun _ => .pure course fun _ _ _ => trivial
  rwa [askedByPipeline, hr] at hp

end Registry
end Lineage
