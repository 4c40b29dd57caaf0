import Lineage.Proofs.Registry.Inheritance
import Lineage.Proofs.Registry.Verdicts
import Lineage.Proofs.Shape

/-!
What the body of an operation is handed. A name that is not given by position gets the caller's
value, else the inherited one of the nearest entry, else its default; reserved keys come from
neither. A call that leaves a required name without a value does not reach the body.
-/
namespace Lineage

open World Action

namespace Registry

/-- The value of a call under a name, those by position aside. -/
def supplied (caller : Params) (inherited : String → Option Json) (name : String) : Option Json :=
  if name ∈ reservedKeys then none else (Table.get? caller name).or (inherited name)

theorem get?_withoutReserved (table : Params) (name : String) :
    Table.get? (withoutReserved table) name =
      if name ∈ reservedKeys then none else Table.get? table name := by
  rw [withoutReserved, Table.get?_filter table (fun key => !reservedKeys.contains key)]
  by_cases h : name ∈ reservedKeys <;> simp [h]

theorem get?_caller (caller : Params) (name : String) :
    Table.get? (withoutReserved caller) name = supplied caller (fun _ => none) name := by
  rw [get?_withoutReserved, supplied, Option.or_none]

/-- Reserved keys are taken out of the caller's values before these are laid upon the inherited
ones, and out of both afterwards. -/
theorem get?_bag {caller : Params} (distinct : Table.Distinct caller) (view : Params)
    (name : String) : Table.get? (withoutReserved (Table.overlay view (withoutReserved caller))) name
      = supplied caller (Table.get? view) name := by
  have kept : Table.Distinct (withoutReserved caller) :=
    List.Nodup.sublist (List.filter_sublist.map Prod.fst) distinct
  rw [get?_withoutReserved, Table.get?_overlay view kept, get?_withoutReserved, supplied]
  by_cases h : name ∈ reservedKeys <;> simp [h]

/-- What comes of a call of an operation in a world, given the values by position and those supplied
under names: too many values by position, else required names without a value, else the body. -/
inductive Binds (r : Registry) (op : Operation) (e : Entry) (method : String)
    (positional : List Json) (supplied : String → Option Json) (w : World) :
    EStateM.Result Error World Outcome → Prop
  | tooMany (h : ¬ op.shape.Fits positional) :
      Binds r op e method positional supplied w
        (.error (.tooManyArguments op.name positional.length op.shape.declared.length) w)
  | missing (fits : op.shape.Fits positional) (h : op.shape.missing positional supplied ≠ []) :
      Binds r op e method positional supplied w
        (.error (.missingArguments op.name (op.shape.missing positional supplied)) w)
  | body (fits : op.shape.Fits positional) (h : op.shape.missing positional supplied = [])
      {args : Args} (receives : op.shape.Receives positional supplied args)
      {bag : Params} (hbag : ∀ name, Table.get? bag name = supplied name) :
      Binds r op e method positional supplied w
        (r.runBody op ⟨e, method, args⟩ bag w)

namespace Binds

variable {r : Registry} {op : Operation} {e : Entry} {method : String}
  {positional : List Json} {supplied : String → Option Json} {w : World}
  {result : EStateM.Result Error World Outcome}

theorem of_complete (h : r.Binds op e method positional supplied w result)
    (fits : op.shape.Fits positional) (hm : op.shape.missing positional supplied = []) :
    ∃ args bag, op.shape.Receives positional supplied args ∧
      result = r.runBody op ⟨e, method, args⟩ bag w := by
  cases h with
  | tooMany hn => exact absurd fits hn
  | missing _ hn => exact absurd hm hn
  | body _ _ receives _ => exact ⟨_, _, receives, rfl⟩

theorem of_missing (h : r.Binds op e method positional supplied w result)
    (fits : op.shape.Fits positional) (hm : op.shape.missing positional supplied ≠ []) :
    result = .error (.missingArguments op.name (op.shape.missing positional supplied)) w := by
  cases h with
  | tooMany hn => exact absurd fits hn
  | missing _ _ => rfl
  | body _ hn _ _ => exact absurd hn hm

end Binds

/-- A call of an operation: its values are bound, and then its body is run. -/
def call (r : Registry) (op : Operation) (e : Entry) (method : String) (positional : List Json)
    (bag : Params) : Action Outcome :=
  bound op positional bag >>= fun got => r.runBody got.operation ⟨e, method, got.args⟩ got.bag

theorem call_of_bind (r : Registry) {op : Operation} (e : Entry) (method : String)
    {positional : List Json} {bag : Params} {binding : Binding}
    (h : op.shape.bind op.name positional bag = .ok binding) :
    r.call op e method positional bag = r.runBody op ⟨e, method, ⟨op.shape, binding⟩⟩ bag := by
  rw [call, bound, h]
  rfl

theorem call_of_bind_error (r : Registry) {op : Operation} (e : Entry) (method : String)
    {positional : List Json} {bag : Params} {err : Error} (w : World)
    (h : op.shape.bind op.name positional bag = .error err) :
    r.call op e method positional bag w = .error err w := by
  rw [call, bound, h]
  rfl

theorem call_binds (r : Registry) {op : Operation} (distinct : op.shape.declared.Nodup) (e : Entry)
    (method : String) (positional : List Json) {bag : Params} {supplied : String → Option Json}
    (hbag : ∀ name, Table.get? bag name = supplied name) (w : World) :
    r.Binds op e method positional supplied w (r.call op e method positional bag w) := by
  obtain rfl : Table.get? bag = supplied := funext hbag
  by_cases fits : op.shape.Fits positional
  · by_cases h : op.shape.missing positional (Table.get? bag) = []
    · rw [call_of_bind r e method (Shape.bind_of_fits op.name fits h)]
      exact .body fits h (Shape.receives_bound distinct h) hbag
    · rw [call_of_bind_error r e method w (Shape.bind_of_missing op.name fits h)]
      exact .missing fits h
  · rw [call_of_bind_error r e method w (Shape.bind_of_not_fits op.name fits)]
    exact .tooMany fits

/-! ### Dispatch -/

theorem invoke_eq (r : Registry) (e : Entry) (method : String) (positional : List Json)
    (caller : Params) : r.invoke e method positional caller = (do
      match ← r.dispatch e method with
      | .inherited reached =>
        let bag := withoutReserved (Table.overlay (← r.merged e) (withoutReserved caller))
        r.call reached.operation e method positional bag
      | .builtin _ op => r.call op e method positional (withoutReserved caller)) := by
  rw [invoke, received, bind_assoc]
  refine bind_congr fun found => ?_
  cases found with
  | inherited reached => exact bind_assoc ..
  | builtin layer op => rfl

theorem invoke_of_reach (r : Registry) {e : Entry} {method : String} (positional : List Json)
    (caller : Params) {reached : Reached} {view : Params} {w w₁ w₂ : World}
    (h : r.reach e method w = .ok reached w₁) (hv : r.merged e w₁ = .ok view w₂) :
    r.invoke e method positional caller w =
      r.call reached.operation e method positional
        (withoutReserved (Table.overlay view (withoutReserved caller))) w₂ := by
  have found : r.dispatch e method w = .ok (.inherited reached) w₁ := by rw [dispatch, h]
  rw [invoke_eq, bind_of_ok found]
  exact bind_of_ok hv _

section

variable {r : Registry} {e : Entry} {method name layer : String} {visited : List String}
  {op : Operation} {w w₁ : World}

theorem dispatch_of_builtin (h : r.reach e method w = .error (.operationNotFound name visited) w₁)
    (hb : r.builtin? method = some (.builtin layer op)) :
    r.dispatch e method w = .ok (.builtin layer op) w₁ := by
  rw [dispatch, h]
  dsimp only
  rw [hb]

theorem invoke_of_builtin (positional : List Json) (caller : Params)
    (h : r.reach e method w = .error (.operationNotFound name visited) w₁)
    (hb : r.builtin? method = some (.builtin layer op)) :
    r.invoke e method positional caller w =
      r.call op e method positional (withoutReserved caller) w₁ := by
  rw [invoke_eq, bind_of_ok (dispatch_of_builtin h hb)]

end

/-- Every value that the body of an operation reads comes from the first of the call by position,
the caller's named values, the nearest entry of the ancestry that has it and the declared default;
a built-in sees no entry's parameters. -/
theorem invoke_precedence {r : Registry} {w : World} (session : Session r w) {e : Entry}
    (held : w.Holds e) (method : String) (positional : List Json) {caller : Params}
    (distinct : Table.Distinct caller) :
    (∀ reached w₁ view w₂, r.reach e method w = .ok reached w₁ →
      reached.operation.shape.declared.Nodup → r.merged e w₁ = .ok view w₂ →
      ∃ chain, r.ancestry e w₂ = .ok chain w₂ ∧ (∀ x ∈ chain, r.own x w₂ = .ok (w₂.ownOf x) w₂) ∧
        r.Binds reached.operation e method positional
          (supplied caller fun name => chain.findSome? fun x => Table.get? (w₂.ownOf x) name) w₂
          (r.invoke e method positional caller w)) ∧
    ∀ name visited w₁ layer op, r.reach e method w = .error (.operationNotFound name visited) w₁ →
      r.builtin? method = some (.builtin layer op) → op.shape.declared.Nodup →
      r.Binds op e method positional
        (supplied caller fun _ => none) w₁ (r.invoke e method positional caller w) := by
  constructor
  · intro reached w₁ view w₂ h declared hv
    obtain ⟨hr, hw₁, -⟩ := (reach_along r e method).of_ok session.sound trivial h
    obtain ⟨chain, w', hchain, hext, -, hloaded, hw₂, rfl⟩ := merged_ok r hw₁ (hr.grows.holds held) hv
    refine ⟨chain, ancestry_again r hw₁ (hr.grows.holds held) hchain hext,
      fun x hx => own_of_known r (hloaded x hx), ?_⟩
    rw [invoke_of_reach r positional caller h hv]
    refine call_binds r declared e method positional (fun name => ?_) w₂
    rw [get?_bag distinct, supplied, supplied, (merges_of_levels hw₂ chain).value name]
  · intro name visited w₁ layer op h hb declared
    rw [invoke_of_builtin positional caller h hb]
    exact call_binds r declared e method positional (get?_caller caller) w₁

/-- One call of the sample reads from all four places; the built-in misses what is inherited. -/
theorem lower_calls :
    (∃ args bag w, args.get? "first" = some (.int 5) ∧ args.get? "alpha" = some (.int 1) ∧
      args.get? "beta" = some (.int 9) ∧ args.get? "gamma" = some (.int 3) ∧ args.rest = [] ∧
      Sample.registry.invoke Sample.lower "echo" [.int 5] [("beta", .int 9)] Sample.world
        = Sample.registry.runBody (Sample.echo "echo") ⟨Sample.lower, "echo", args⟩ bag w) ∧
    ∃ w, Sample.registry.invoke Sample.lower "show" [.int 5] [("beta", .int 9)] Sample.world
      = .error (.missingArguments "show" ["alpha"]) w := by
  have distinct : Table.Distinct [("beta", Json.int 9)] := by
    rw [Table.Distinct]
    decide
  have line : Sample.world.Line Sample.lower [Sample.lower, Sample.upper] := .next rfl (.last rfl)
  have ancestry : Sample.registry.ancestry Sample.lower Sample.world =
      .ok [Sample.lower, Sample.upper] Sample.world := ancestry_of_line _ line
  have view : Sample.registry.merged Sample.lower Sample.world = .ok _ Sample.world :=
    merged_of_ancestry ancestry rfl
  constructor
  · have judges : Sample.world.Judges "echo" [] Sample.lower [Sample.upper]
        (.ok ⟨Sample.echo "echo", Sample.upper, ["lower", "upper"]⟩) :=
      .next rfl rfl rfl rfl (.found rfl rfl)
    have inherited := (invoke_precedence Sample.session Sample.holds_lower "echo" [.int 5] distinct).1
    obtain ⟨chain, hchain, -, hcall⟩ := inherited
      ⟨Sample.echo "echo", Sample.upper, ["lower", "upper"]⟩ _ _ _ (reach_of_judges judges)
      (by decide) view
    cases ancestry.symm.trans hchain
    obtain ⟨args, bag, receives, hrun⟩ := hcall.of_complete (.inr (by decide)) rfl
    refine ⟨args, bag, _, receives.byPosition 0 _ rfl (by decide), ?_, ?_, ?_, receives.rest, hrun⟩
    · exact receives.byName 1 _ rfl (by decide)
    · exact receives.byName 2 _ rfl (by decide)
    · exact receives.byName 3 _ rfl (by decide)
  · have judges : Sample.world.Judges "show" [] Sample.lower [Sample.upper]
        (.error (.operationNotFound "show" ["lower", "upper"])) :=
      .next rfl rfl rfl rfl (.missing rfl rfl rfl)
    have builtin := (invoke_precedence Sample.session Sample.holds_lower "show" [.int 5] distinct).2
    have hcall := builtin _ _ _ "entry" (Sample.echo "show") (reach_of_judges judges) rfl (by decide)
    exact ⟨_, hcall.of_missing (.inr (by decide)) (List.cons_ne_nil _ _)⟩

end Registry
end Lineage
