import Lineage.Catalog.Builtin
import Lineage.Proofs.Registry.Calls
import Lineage.Proofs.Registry.Methods

/-!
Help and dispatch. What help says of a method of an entry is what an invocation comes down to: the
operation along the ancestry, or a built-in if nobody there has one, or the failure that an invocation
meets before it runs any body.
-/
namespace Lineage

open World Action

namespace Registry

variable {r : Registry} {e : Entry} {method : String} {w w' w₁ : World} {d : Dispatch}

/-! ### Selections -/

def Dispatch.operation : Dispatch → Operation
  | .inherited reached => reached.operation
  | .builtin _ op => op

/-- The operation that is selected for a method of an entry, and the world left by the search for it:
the one along the ancestry, or that of the first built-in layer to have the method, where the search
finds none. -/
inductive Selects (r : Registry) (e : Entry) (method : String) (w : World) : Dispatch → World → Prop
  | inherited {reached : Reached} {w₁ : World} (h : r.reach e method w = .ok reached w₁) :
      Selects r e method w (.inherited reached) w₁
  | builtin {visited : List String} {w₁ : World} {before after : List Namespace} {layer : Namespace}
      {op : Operation} (missing : r.reach e method w = .error (.operationNotFound method visited) w₁)
      (layers : r.builtins = before ++ layer :: after)
      (nearer : ∀ l ∈ before, l.get? method = none) (has : layer.get? method = some op) :
      Selects r e method w (.builtin layer.name op) w₁

theorem builtin?_eq_some_iff : r.builtin? method = some d ↔
    ∃ before layer after op, r.builtins = before ++ layer :: after ∧
      (∀ l ∈ before, l.get? method = none) ∧ layer.get? method = some op ∧
      d = .builtin layer.name op := by
  rw [builtin?, List.findSome?_eq_some_iff]
  constructor
  · rintro ⟨before, layer, after, layers, has, nearer⟩
    obtain ⟨op, found, rfl⟩ := Option.map_eq_some_iff.mp has
    exact ⟨before, layer, after, op, layers, fun l hl => Option.map_eq_none_iff.mp (nearer l hl),
      found, rfl⟩
  · rintro ⟨before, layer, after, op, layers, nearer, has, rfl⟩
    exact ⟨before, layer, after, layers, by rw [has]; rfl,
      fun l hl => Option.map_eq_none_iff.mpr (nearer l hl)⟩

/-! ### What is selected is on the ancestry, or nowhere there -/

/-- The ancestry of an entry comes to an end, and no namespace along it has the method. -/
def NobodyOffers (r : Registry) (e : Entry) (method : String) (w : World) : Prop :=
  ∃ chain, r.ancestry e w = .ok chain w ∧ ∀ x ∈ chain, r.Offers w x method none

theorem offers_of_known {x : Entry} {offered : Option Namespace} {found : Option Operation}
    (known : (w.cellsOf x).operations = some offered)
    (h : (offered.bind fun ns => ns.get? method) = found) : r.Offers w x method found :=
  ⟨offered, w, operations_of_known r known, h⟩

theorem offers_of_judges {before more : List Entry} {current : Entry} {reached : Reached}
    (h : w.Judges method before current more (.ok reached)) :
    r.Offers w reached.owner method (some reached.operation) := by
  generalize hv : (.ok reached : Except Error Reached) = verdict at h
  induction h with
  | found offers has =>
      cases hv
      exact offers_of_known offers has
  | missing _ _ _ => cases hv
  | cyclic _ _ _ _ => cases hv
  | next _ _ _ _ _ ih => exact ih hv

theorem line_of_judges {before more : List Entry} {current : Entry} {name : String}
    {visited : List String}
    (h : w.Judges method before current more (.error (.operationNotFound name visited))) :
    name = method ∧ w.Line current (current :: more) ∧ Unvisited (before ++ [current]) more ∧
      ∀ x ∈ current :: more, r.Offers w x method none := by
  generalize hv : (.error (.operationNotFound name visited) : Except Error Reached) = verdict at h
  induction h with
  | found _ _ => cases hv
  | missing offers lacks top =>
      cases hv
      exact ⟨rfl, .last top, unvisited_nil _,
        List.forall_mem_singleton.mpr (offers_of_known offers lacks)⟩
  | cyclic _ _ _ _ => cases hv
  | next offers lacks up new _ ih =>
      obtain ⟨same, line, unvisited, all⟩ := ih hv
      exact ⟨same, .next up line, unvisited_cons_iff.mpr ⟨new, unvisited⟩,
        List.forall_mem_cons.mpr ⟨offers_of_known offers lacks, all⟩⟩

/-- A search that finds no operation says so of its own method, and nobody on the ancestry has it. -/
theorem nobody_offers {name : String} {visited : List String} (hw : w.Sound) (held : w.Holds e)
    (h : r.reach e method w = .error (.operationNotFound name visited) w₁) :
    name = method ∧ r.NobodyOffers e method w₁ := by
  have verdict : r.reach e method w = result (.error (.operationNotFound name visited)) w₁ := h
  obtain ⟨more, judges⟩ := judges_of_reach hw held verdict rfl
  obtain ⟨same, line, new, lacks⟩ := line_of_judges judges
  refine ⟨same, e :: more, ?_, lacks⟩
  have follows : follow [e] more = .ok (e :: more) := follow_eq_ok_iff.mpr ⟨rfl, new⟩
  rw [ancestry_of_line r line, List.tail_cons, follows]
  rfl

theorem Selects.owner_offers {reached : Reached} (h : r.Selects e method w (.inherited reached) w₁)
    (hw : w.Sound) (held : w.Holds e) : r.Offers w₁ reached.owner method (some reached.operation) := by
  cases h with
  | inherited h =>
      have verdict : r.reach e method w = result (.ok reached) w₁ := h
      obtain ⟨more, judges⟩ := judges_of_reach hw held verdict trivial
      exact offers_of_judges judges

theorem Selects.nobody_offers {layer : String} {op : Operation}
    (h : r.Selects e method w (.builtin layer op) w₁) (hw : w.Sound) (held : w.Holds e) :
    r.NobodyOffers e method w₁ := by
  cases h with
  | builtin missing _ _ _ => exact (Registry.nobody_offers hw held missing).2

/-! ### Dispatch -/

theorem dispatch_eq_ok_iff (hw : w.Sound) (held : w.Holds e) :
    r.dispatch e method w = .ok d w₁ ↔ r.Selects e method w d w₁ := by
  constructor
  · intro h
    rw [dispatch] at h
    cases hr : r.reach e method w with
    | ok reached w' =>
        rw [hr] at h
        cases h
        exact .inherited hr
    | error err w' =>
        rw [hr] at h
        cases err with
        | operationNotFound name visited =>
            obtain ⟨rfl, -⟩ := nobody_offers hw held hr
            cases hb : r.builtin? name with
            | none =>
                rw [hb] at h
                cases h
            | some d' =>
                rw [hb] at h
                cases h
                obtain ⟨before, layer, after, op, layers, nearer, has, rfl⟩ :=
                  builtin?_eq_some_iff.mp hb
                exact .builtin hr layers nearer has
        | _ => cases h
  · intro h
    cases h with
    | inherited h => rw [dispatch, h]
    | @builtin visited _ before after layer op missing layers nearer has =>
        have hb : r.builtin? method = some (.builtin layer.name op) :=
          builtin?_eq_some_iff.mpr ⟨before, layer, after, op, layers, nearer, has, rfl⟩
        rw [dispatch, missing]
        dsimp only
        rw [hb]

/-! ### What help says -/

/-- Where help says that a selected operation is found. -/
def Dispatch.place : Dispatch → Params
  | .inherited reached => [("owner", .str reached.owner.name),
      ("ancestry", .str (Error.chainText reached.path))]
  | .builtin layer _ => [("builtin", .str layer)]

def helpOn (e : Entry) (method : String) (d : Dispatch) : Params :=
  [("entry", .str e.name), ("path", .str e.path.text), ("method", .str method)] ++ d.place
    ++ d.operation.describe

theorem describeMethod_apply (r : Registry) (e : Entry) (method : String) (w : World) :
    r.describeMethod e method w = match r.dispatch e method w with
      | .ok d w₁ => .ok (.obj (helpOn e method d)) w₁
      | .error err w₁ => .error err w₁ := by
  rw [describeMethod, bind_apply]
  cases r.dispatch e method w with
  | error err w₁ => rfl
  | ok d w₁ => cases d <;> rfl

theorem describeMethod_eq_ok_iff (hw : w.Sound) (held : w.Holds e) {value : Json} :
    r.describeMethod e method w = .ok value w₁ ↔
      ∃ d, r.Selects e method w d w₁ ∧ value = .obj (helpOn e method d) := by
  simp only [← dispatch_eq_ok_iff hw held]
  rw [describeMethod_apply]
  cases r.dispatch e method w with
  | error err w₁ => simp
  | ok d w₁ => simp [and_comm, eq_comm]

theorem helpOn_owner {owner : String} :
    Table.get? (helpOn e method d) "owner" = some (.str owner) ↔
      ∃ reached, d = .inherited reached ∧ reached.owner.name = owner := by
  cases d <;> simp [helpOn, Dispatch.place, Operation.describe, Table.get?]

theorem helpOn_builtin {layer : String} :
    Table.get? (helpOn e method d) "builtin" = some (.str layer) ↔
      ∃ op, d = .builtin layer op := by
  cases d <;> simp [helpOn, Dispatch.place, Operation.describe, Table.get?]

theorem helpOn_operation :
    Table.get? (helpOn e method d) "signature" = some (.str d.operation.signature) ∧
      Table.get? (helpOn e method d) "required" = some (.strings d.operation.shape.required) ∧
      Table.get? (helpOn e method d) "optional" = some (.strings d.operation.shape.optionalNames) := by
  cases d <;> simp [helpOn, Dispatch.place, Operation.describe, Table.get?]

/-! ### What an invocation runs -/

/-- The values that a selected operation is called with, those by position aside. -/
def Dispatch.bag (r : Registry) (e : Entry) (named : Params) : Dispatch → Action Params
  | .inherited _ => return withoutReserved (Table.overlay (← r.merged e) (withoutReserved named))
  | .builtin .. => return withoutReserved named

theorem received_eq (r : Registry) (e : Entry) (method : String) (positional : List Json)
    (named : Params) : r.received e method positional named = r.dispatch e method >>= fun d =>
      d.bag r e named >>= bound d.operation positional := by
  rw [received]
  congr 1
  funext d
  cases d with
  | inherited reached =>
      dsimp only [Dispatch.bag, Dispatch.operation]
      rw [bind_assoc]
      congr 1
  | builtin layer op => exact (pure_bind ..).symm

/-- The body of a selected operation is run if inherited parameters load and the values bind. -/
theorem Selects.runs (h : r.Selects e method w d w₁) (hw : w.Sound) (held : w.Holds e)
    {positional : List Json} {named bag : Params} {w₂ : World} {binding : Binding}
    (loads : d.bag r e named w₁ = .ok bag w₂)
    (binds : d.operation.shape.bind d.operation.name positional bag = .ok binding) :
    r.invoke e method positional named w = r.runBody d.operation
      ⟨e, method, ⟨d.operation.shape, binding⟩⟩ bag w₂ := by
  have received : r.received e method positional named w =
      .ok ⟨d.operation, ⟨d.operation.shape, binding⟩, bag⟩ w₂ := by
    rw [received_eq, bind_of_ok ((dispatch_eq_ok_iff hw held).mpr h), bind_of_ok loads, bound, binds]
    rfl
  rw [invoke, bind_of_ok received]

/-- Where help on a method fails, an invocation of it fails before anything is bound or run. -/
theorem fails_of_describeMethod {err : Error} (h : r.describeMethod e method w = .error err w₁)
    (positional : List Json) (named : Params) :
    r.received e method positional named w = .error err w₁ ∧
      r.invoke e method positional named w = .error err w₁ := by
  have failed : r.dispatch e method w = .error err w₁ := by
    rw [describeMethod_apply] at h
    cases hd : r.dispatch e method w with
    | ok d w' =>
        rw [hd] at h
        cases h
    | error err' w' =>
        rw [hd] at h
        cases h
        rfl
  have received : r.received e method positional named w = .error err w₁ := by
    rw [received_eq, bind_of_error failed]
  exact ⟨received, by rw [invoke, bind_of_error received]⟩

/-! ### Help tells the truth -/

/-- A selected built-in is one about the entry, or else one about the registry. -/
theorem Selects.layer (layers : r.builtins = Catalog.builtins) {layer : String} {op : Operation}
    (h : r.Selects e method w (.builtin layer op) w₁) :
    (layer = "entry" ∧ Catalog.entryLayer.get? method = some op) ∨
      (layer = "kernel" ∧ Catalog.entryLayer.get? method = none ∧
        Catalog.kernelLayer.get? method = some op) := by
  cases h with
  | @builtin _ _ before after layer _ _ split nearer has =>
      rw [layers] at split
      match before with
      | [] =>
          cases split
          exact .inl ⟨rfl, has⟩
      | [_] =>
          cases split
          exact .inr ⟨rfl, nearer _ List.mem_cons_self, has⟩
      | _ :: _ :: _ => simp [Catalog.builtins] at split

/-- Help tells the truth about dispatch. Whatever operation is selected for a method, help reports the
signature and the parameter names of that very operation, and an invocation runs its body if inherited
parameters load and the values bind. Help reports an owner if and only if an operation is selected that
this owner's namespace has; the built-in layer of entries if and only if nobody on the ancestry has the
method and that layer's operation is selected; and the layer of the registry if and only if, besides,
the layer of entries lacks the method. Where help fails, every invocation fails with the same error
before its values are bound, so that no body is run. -/
theorem describeMethod_truthful (session : Session r w) (held : w.Holds e)
    (layers : r.builtins = Catalog.builtins) (method : String) :
    (∀ d w₁, r.Selects e method w d w₁ →
      (∃ fields, r.describeMethod e method w = .ok (.obj fields) w₁ ∧
        Table.get? fields "signature" = some (.str d.operation.signature) ∧
        Table.get? fields "required" = some (.strings d.operation.shape.required) ∧
        Table.get? fields "optional" = some (.strings d.operation.shape.optionalNames)) ∧
      ∀ positional named bag w₂ binding, d.bag r e named w₁ = .ok bag w₂ →
        d.operation.shape.bind d.operation.name positional bag = .ok binding →
        r.invoke e method positional named w = r.runBody d.operation
          ⟨e, method, ⟨d.operation.shape, binding⟩⟩ bag w₂) ∧
    (∀ owner, (∃ fields w₁, r.describeMethod e method w = .ok (.obj fields) w₁ ∧
        Table.get? fields "owner" = some (.str owner)) ↔
      ∃ reached w₁, r.Selects e method w (.inherited reached) w₁ ∧ reached.owner.name = owner ∧
        r.Offers w₁ reached.owner method (some reached.operation)) ∧
    ((∃ fields w₁, r.describeMethod e method w = .ok (.obj fields) w₁ ∧
        Table.get? fields "builtin" = some (.str "entry")) ↔
      ∃ op w₁, r.NobodyOffers e method w₁ ∧ r.Selects e method w (.builtin "entry" op) w₁ ∧
        Catalog.entryLayer.get? method = some op) ∧
    ((∃ fields w₁, r.describeMethod e method w = .ok (.obj fields) w₁ ∧
        Table.get? fields "builtin" = some (.str "kernel")) ↔
      ∃ op w₁, r.NobodyOffers e method w₁ ∧ Catalog.entryLayer.get? method = none ∧
        r.Selects e method w (.builtin "kernel" op) w₁ ∧
        Catalog.kernelLayer.get? method = some op) ∧
    ∀ err w₁, r.describeMethod e method w = .error err w₁ → ∀ positional named,
      r.received e method positional named w = .error err w₁ ∧
        r.invoke e method positional named w = .error err w₁ := by
  have sound := session.sound
  have selects {fields : Params} {w₁ : World}
      (h : r.describeMethod e method w = .ok (.obj fields) w₁) :
      ∃ d, r.Selects e method w d w₁ ∧ fields = helpOn e method d := by
    obtain ⟨d, selected, same⟩ := (describeMethod_eq_ok_iff sound held).mp h
    exact ⟨d, selected, Json.obj.inj same⟩
  have reports {d : Dispatch} {w₁ : World} (h : r.Selects e method w d w₁) :
      r.describeMethod e method w = .ok (.obj (helpOn e method d)) w₁ :=
    (describeMethod_eq_ok_iff sound held).mpr ⟨d, h, rfl⟩
  refine ⟨fun d w₁ selected => ?_, fun owner => ⟨?_, ?_⟩, ⟨?_, ?_⟩, ⟨?_, ?_⟩, ?_⟩
  · exact ⟨⟨_, reports selected, helpOn_operation⟩,
      fun positional named bag w₂ binding loads binds => selected.runs sound held loads binds⟩
  · rintro ⟨fields, w₁, described, field⟩
    obtain ⟨d, selected, rfl⟩ := selects described
    obtain ⟨reached, rfl, name⟩ := helpOn_owner.mp field
    exact ⟨reached, w₁, selected, name, selected.owner_offers sound held⟩
  · rintro ⟨reached, w₁, selected, name, -⟩
    exact ⟨_, w₁, reports selected, helpOn_owner.mpr ⟨reached, rfl, name⟩⟩
  · rintro ⟨fields, w₁, described, field⟩
    obtain ⟨d, selected, rfl⟩ := selects described
    obtain ⟨op, rfl⟩ := helpOn_builtin.mp field
    obtain ⟨-, has⟩ | ⟨other, -, -⟩ := selected.layer layers
    · exact ⟨op, w₁, selected.nobody_offers sound held, selected, has⟩
    · simp at other
  · rintro ⟨op, w₁, -, selected, -⟩
    exact ⟨_, w₁, reports selected, helpOn_builtin.mpr ⟨op, rfl⟩⟩
  · rintro ⟨fields, w₁, described, field⟩
    obtain ⟨d, selected, rfl⟩ := selects described
    obtain ⟨op, rfl⟩ := helpOn_builtin.mp field
    obtain ⟨other, -⟩ | ⟨-, lacks, has⟩ := selected.layer layers
    · simp at other
    · exact ⟨op, w₁, selected.nobody_offers sound held, lacks, selected, has⟩
  · rintro ⟨op, w₁, -, -, selected, -⟩
    exact ⟨_, w₁, reports selected, helpOn_builtin.mpr ⟨op, rfl⟩⟩
  · exact fun err w₁ failed => fails_of_describeMethod failed

/-! ### An entry of its own -/

namespace Sample

def helped : Registry := { registry with builtins := Catalog.builtins }

def single : World where
  disk := ⟨[], []⟩
  cells := [upperCells]

theorem session_single : Session helped single := by
  have empty : Session helped { disk := ⟨[], []⟩ } :=
    .start (show ofConfig { collections := [] } ⟨"."⟩ [] Catalog.builtins { disk := ⟨[], []⟩ } =
      .ok helped _ from rfl)
  refine empty.move (.create ⟨"upper"⟩ "upper" upperCells ?_ ?_)
  · intro params hp
    cases hp
    rw [Table.Distinct]
    decide
  · intro p hp
    cases hp

theorem reach_upper {method : String}
    (lacks : (Namespace.ofList "upper" "" [echo "echo"]).get? method = none) :
    helped.reach upper method single = .error (.operationNotFound method ["upper"]) single := by
  have judges : single.Judges method [] upper [] (.error (.operationNotFound method ["upper"])) :=
    .missing rfl lacks rfl
  exact reach_of_judges judges

theorem nobody_upper {method : String}
    (lacks : (Namespace.ofList "upper" "" [echo "echo"]).get? method = none) :
    helped.NobodyOffers upper method single :=
  ⟨[upper], ancestry_of_line helped (.last rfl),
    List.forall_mem_singleton.mpr (offers_of_known rfl lacks)⟩

/-- Help finds the entry's own method with the entry, two built-ins in their layers, and nothing of
another name, which no invocation finds either. -/
theorem upper_described : Session helped single ∧ single.Holds upper ∧
    helped.builtins = Catalog.builtins ∧
    (∃ fields w₁, helped.describeMethod upper "echo" single = .ok (.obj fields) w₁ ∧
      Table.get? fields "owner" = some (.str "upper")) ∧
    (∃ fields w₁, helped.describeMethod upper "get_path" single = .ok (.obj fields) w₁ ∧
      Table.get? fields "builtin" = some (.str "entry")) ∧
    (∃ fields w₁, helped.describeMethod upper "version" single = .ok (.obj fields) w₁ ∧
      Table.get? fields "builtin" = some (.str "kernel")) ∧
    ∀ positional named, helped.invoke upper "none" positional named single =
      .error (.operationNotFound "none" ["upper"]) single := by
  have held : single.Holds upper := by
    rw [World.Holds]
    decide
  have reached : helped.reach upper "echo" single = .ok ⟨echo "echo", upper, ["upper"]⟩ single := by
    have judges : single.Judges "echo" [] upper [] (.ok ⟨echo "echo", upper, ["upper"]⟩) :=
      .found rfl rfl
    exact reach_of_judges judges
  have undescribed : helped.describeMethod upper "none" single =
      .error (.operationNotFound "none" ["upper"]) single := by
    rw [describeMethod_apply, dispatch, reach_upper rfl]
    rfl
  obtain ⟨-, owner, -⟩ := describeMethod_truthful session_single held rfl "echo"
  obtain ⟨-, -, entry, -⟩ := describeMethod_truthful session_single held rfl "get_path"
  obtain ⟨-, -, -, kernel, -⟩ := describeMethod_truthful session_single held rfl "version"
  obtain ⟨-, -, -, -, fails⟩ := describeMethod_truthful session_single held rfl "none"
  refine ⟨session_single, held, rfl, ?_, ?_, ?_, fun positional named =>
    (fails _ _ undescribed positional named).2⟩
  · exact (owner "upper").mpr ⟨_, _, .inherited reached, rfl, offers_of_known rfl rfl⟩
  · have layers : helped.builtins = [] ++ Catalog.entryLayer :: [Catalog.kernelLayer] := rfl
    have selected :
        helped.Selects upper "get_path" single (.builtin "entry" Builtin.getPath) single :=
      .builtin (reach_upper rfl) layers (List.forall_mem_nil _) rfl
    exact entry.mpr ⟨_, _, nobody_upper rfl, selected, rfl⟩
  · have layers : helped.builtins = [Catalog.entryLayer] ++ Catalog.kernelLayer :: [] := rfl
    have selected :
        helped.Selects upper "version" single (.builtin "kernel" Builtin.version) single :=
      .builtin (reach_upper rfl) layers (List.forall_mem_singleton.mpr rfl) rfl
    exact kernel.mpr ⟨_, _, nobody_upper rfl, rfl, selected, rfl⟩

end Sample

end Registry
end Lineage
