import Lineage.Proofs.Table
import Lineage.Shape

/-!
Binding read off the two views of a call, the values by position and the value supplied under each
name. A call that is bound gives every declared name one of them or its default, in that order, and
lets other names through only where the shape asks for them.
-/
namespace Lineage

namespace Shape

variable (s : Shape) (positional : List Json)

/-- Whether the shape takes so many values by position. -/
def Fits : Prop := s.variadic = true ∨ positional.length ≤ s.declared.length

/-- The required names that a call leaves without a value, in declared order. -/
def missing (supplied : String → Option Json) : List String :=
  (s.openRequired positional.length).filter fun name => (supplied name).isNone

/-- What an operation reads off a call: under a declared name the value in its position, else the
value supplied for it, else its default; other values only if the shape asks for them. -/
structure Receives (supplied : String → Option Json) (args : Args) : Prop where
  byPosition : ∀ i name, s.declared[i]? = some name → i < positional.length →
    args.get? name = positional[i]?
  byName : ∀ i name, s.declared[i]? = some name → positional.length ≤ i →
    args.get? name = (supplied name).or (s.defaultOf? name)
  undeclared : ∀ name, name ∉ s.declared →
    args.get? name = if s.extraNamed then supplied name else none
  extra : ∀ name, name ∉ s.declared →
    Table.get? args.named name = if s.extraNamed then supplied name else none
  rest : args.rest = positional.drop s.declared.length

/-- A call as it is bound when nothing is wrong with it. -/
def bound (named : Params) : Binding where
  positional := positional ++ (s.openRequired positional.length).filterMap (Table.get? named)
  named := named.filter fun field => s.keepsNamed positional.length field.1

variable {s positional} {named : Params} {i : Nat} {name : String}

theorem tooMany_iff :
    (!s.variadic && decide (positional.length > s.declared.length)) = true ↔ ¬ s.Fits positional := by
  rw [Fits]
  cases s.variadic <;> simp

theorem bind_of_not_fits (operation : String) (h : ¬ s.Fits positional) :
    s.bind operation positional named
      = .error (.tooManyArguments operation positional.length s.declared.length) := by
  rw [bind]
  exact if_pos (tooMany_iff.mpr h)

theorem missing_get? : s.missing positional (Table.get? named)
    = (s.openRequired positional.length).filter fun name => !Table.contains named name := by
  simp only [missing, Table.contains, Option.not_isSome]

theorem bind_of_missing (operation : String) (h : s.Fits positional)
    (hm : s.missing positional (Table.get? named) ≠ []) : s.bind operation positional named
      = .error (.missingArguments operation (s.missing positional (Table.get? named))) := by
  rw [missing_get?] at hm ⊢
  rw [bind]
  refine (if_neg fun hn => tooMany_iff.mp hn h).trans ?_
  exact if_pos hm

theorem bind_of_fits (operation : String) (h : s.Fits positional)
    (hm : s.missing positional (Table.get? named) = []) :
    s.bind operation positional named = .ok (s.bound positional named) := by
  rw [missing_get?] at hm
  rw [bind]
  refine (if_neg fun hn => tooMany_iff.mp hn h).trans ?_
  exact if_neg fun ne => ne hm

/-! ### Slots -/

theorem position_unique (distinct : s.declared.Nodup) {j : Nat} (hi : s.declared[i]? = some name)
    (hj : s.declared[j]? = some name) : i = j := by
  obtain ⟨lt, -⟩ := List.getElem?_eq_some_iff.mp hi
  exact (List.getElem?_inj lt distinct).mp (hi.trans hj.symm)

theorem positionOf?_of_getElem? (distinct : s.declared.Nodup) (h : s.declared[i]? = some name) :
    s.positionOf? name = some i := by
  have hm : name ∈ s.declared := List.mem_of_getElem? h
  obtain ⟨j, hj⟩ := Option.isSome_iff_exists.mp (List.isSome_idxOf?.mpr hm)
  obtain ⟨lt, he, -⟩ := List.idxOf?_eq_some_iff.mp hj
  rw [positionOf?, hj, position_unique distinct h (List.getElem?_eq_some_iff.mpr ⟨lt, he⟩)]

theorem positionOf?_of_not_mem (h : name ∉ s.declared) : s.positionOf? name = none := by
  rwa [positionOf?, List.idxOf?_eq_none_iff]

theorem getElem?_filterMap_of_isSome {α β : Type} {f : α → Option β} {xs : List α}
    (h : ∀ x ∈ xs, (f x).isSome) (i : Nat) : (xs.filterMap f)[i]? = xs[i]?.bind f := by
  induction xs generalizing i with
  | nil => rfl
  | cons x xs ih =>
      obtain ⟨hx, hxs⟩ := List.forall_mem_cons.mp h
      obtain ⟨y, hy⟩ := Option.isSome_iff_exists.mp hx
      rw [List.filterMap_cons, hy]
      cases i with
      | zero => simp [hy]
      | succ i => simpa using ih hxs i

theorem isSome_of_missing_nil {supplied : String → Option Json}
    (hm : s.missing positional supplied = []) :
    ∀ name ∈ s.openRequired positional.length, (supplied name).isSome := by
  intro name hn
  simpa [Option.isSome_iff_ne_none] using List.filter_eq_nil_iff.mp hm name hn

/-- Beyond the values given by position stand those of the open required names, in their places. -/
theorem slot_of_le (hm : s.missing positional (Table.get? named) = [])
    (h : positional.length ≤ i) :
    (s.bound positional named).positional[i]? = s.required[i]?.bind (Table.get? named) := by
  have filled := getElem?_filterMap_of_isSome (isSome_of_missing_nil hm) (i - positional.length)
  rw [bound, List.getElem?_append_right h, filled, openRequired, List.getElem?_drop,
    Nat.add_sub_cancel' h]

theorem getElem?_required (h : s.declared[i]? = some name) (hi : i < s.required.length) :
    s.required[i]? = some name := by
  rwa [declared, List.getElem?_append_left hi] at h

theorem keepsNamed_of_optional (distinct : s.declared.Nodup) (h : s.declared[i]? = some name)
    (hr : s.required.length ≤ i) (hp : positional.length ≤ i) :
    s.keepsNamed positional.length name = true := by
  have taken : name ∉ s.declared.take positional.length := by
    intro hm
    obtain ⟨j, hj⟩ := List.getElem?_of_mem hm
    obtain ⟨lt, -⟩ := List.getElem?_eq_some_iff.mp hj
    rw [List.length_take] at lt
    rw [List.getElem?_take_of_lt (by omega)] at hj
    have := position_unique distinct h hj
    omega
  have free : name ∉ s.openRequired positional.length := by
    intro hm
    obtain ⟨j, hj⟩ := List.getElem?_of_mem (List.mem_of_mem_drop hm)
    obtain ⟨lt, -⟩ := List.getElem?_eq_some_iff.mp hj
    have := position_unique distinct h (show s.declared[j]? = some name by
      rwa [declared, List.getElem?_append_left lt])
    omega
  have wanted : name ∈ s.optionalNames := by
    rw [declared, List.getElem?_append_right hr] at h
    exact List.mem_of_getElem? h
  simp [keepsNamed, taken, free, wanted]

theorem keepsNamed_of_not_mem (h : name ∉ s.declared) :
    s.keepsNamed positional.length name = s.extraNamed := by
  have taken : name ∉ s.declared.take positional.length := fun hm => h (List.mem_of_mem_take hm)
  have free : name ∉ s.openRequired positional.length := fun hm =>
    h (List.mem_append_left _ (List.mem_of_mem_drop hm))
  have unwanted : name ∉ s.optionalNames := fun hm => h (List.mem_append_right _ hm)
  simp [keepsNamed, taken, free, unwanted]

theorem defaultOf?_of_not_mem (h : name ∉ s.declared) : s.defaultOf? name = none := by
  rw [defaultOf?, Table.get?_eq_none_iff]
  exact fun hm => h (List.mem_append_right _ hm)

/-! ### The bound call -/

theorem get?_eq_or (args : Args) (name : String) : args.get? name
    = (args.slot? name).or ((Table.get? args.named name).or (args.shape.defaultOf? name)) := by
  rw [Args.get?, Args.named]
  cases args.slot? name with
  | some value => rfl
  | none => cases Table.get? args.binding.named name <;> rfl

theorem slot?_bound (distinct : s.declared.Nodup) (h : s.declared[i]? = some name) :
    Args.slot? ⟨s, s.bound positional named⟩ name = (s.bound positional named).positional[i]? := by
  rw [Args.slot?, positionOf?_of_getElem? distinct h]
  rfl

theorem named_bound (name : String) : Table.get? (Args.named ⟨s, s.bound positional named⟩) name
    = if s.keepsNamed positional.length name then Table.get? named name else none :=
  Table.get?_filter named (s.keepsNamed positional.length) name

theorem length_declared (s : Shape) :
    s.declared.length = s.required.length + s.optionalNames.length := List.length_append

/-- The slots that are filled by name are declared ones. -/
theorem rest_bound :
    Args.rest ⟨s, s.bound positional named⟩ = positional.drop s.declared.length := by
  have filled := List.length_filterMap_le (Table.get? named) (s.openRequired positional.length)
  have size := length_declared s
  rw [openRequired, List.length_drop] at filled
  show (positional ++ (s.openRequired positional.length).filterMap _).drop s.declared.length = _
  rw [openRequired, List.drop_append]
  have inside : ((s.required.drop positional.length).filterMap (Table.get? named)).drop
      (s.declared.length - positional.length) = [] := List.drop_eq_nil_of_le (by omega)
  rw [inside, List.append_nil]

theorem receives_bound (distinct : s.declared.Nodup)
    (hm : s.missing positional (Table.get? named) = []) :
    s.Receives positional (Table.get? named) ⟨s, s.bound positional named⟩ where
  byPosition i name h hi := by
    have slot : (s.bound positional named).positional[i]? = positional[i]? := by
      rw [bound, List.getElem?_append_left hi]
    rw [get?_eq_or, slot?_bound distinct h, slot, List.getElem?_eq_getElem hi, Option.some_or]
  byName i name h hi := by
    rw [get?_eq_or, slot?_bound distinct h, slot_of_le hm hi, named_bound]
    by_cases hr : i < s.required.length
    · -- a required name: its value has moved to its slot
      have hreq := getElem?_required h hr
      have hopen : name ∈ s.openRequired positional.length :=
        List.mem_iff_getElem?.mpr ⟨i - positional.length, by
          rw [openRequired, List.getElem?_drop, Nat.add_sub_cancel' hi, hreq]⟩
      obtain ⟨value, hv⟩ := Option.isSome_iff_exists.mp (isSome_of_missing_nil hm name hopen)
      rw [hreq, Option.bind_some, hv, Option.some_or, Option.some_or]
    · have hr : s.required.length ≤ i := Nat.le_of_not_lt hr
      rw [List.getElem?_eq_none hr, keepsNamed_of_optional distinct h hr hi]
      rfl
  undeclared name h := by
    rw [get?_eq_or, Args.slot?, positionOf?_of_not_mem h, named_bound, keepsNamed_of_not_mem h,
      defaultOf?_of_not_mem h]
    simp
  extra name h := by rw [named_bound, keepsNamed_of_not_mem h]
  rest := rest_bound

end Shape
end Lineage
