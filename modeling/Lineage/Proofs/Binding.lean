import Lineage.Proofs.Shape

/-!
Bindings as a whole. A call has too many values by position, or lacks required names, or is bound to
slots and named values that are known name by name. What was bound binds to itself; and values that
are passed in another way, some by position and the others by name, read the same.
-/
namespace Lineage

namespace Shape

variable {s : Shape} {positional : List Json} {named : Params} {b : Binding} {name : String}
  {n : Nat}

/-! ### The ways in which a call is bound -/

theorem not_fits_iff :
    ¬ s.Fits positional ↔ s.variadic = false ∧ s.declared.length < positional.length := by
  rw [Fits, not_or, Bool.not_eq_true, Nat.not_le]

theorem missing_eq (s : Shape) (positional : List Json) (named : Params) :
    s.missing positional (Table.get? named) =
      (s.required.drop positional.length).filter fun name => name ∉ Table.keys named := by
  refine List.filter_congr fun name _ => ?_
  rw [Bool.eq_iff_iff, decide_eq_true_iff, ← Table.get?_eq_none_iff, Option.isNone_iff_eq_none]

theorem bind_eq_error_iff (operation : String) {e : Error} :
    s.bind operation positional named = .error e ↔
      ¬ s.Fits positional ∧ e = .tooManyArguments operation positional.length s.declared.length ∨
      s.Fits positional ∧ s.missing positional (Table.get? named) ≠ [] ∧
        e = .missingArguments operation (s.missing positional (Table.get? named)) := by
  constructor
  · intro h
    by_cases fits : s.Fits positional
    · by_cases complete : s.missing positional (Table.get? named) = []
      · cases (bind_of_fits operation fits complete).symm.trans h
      · cases (bind_of_missing operation fits complete).symm.trans h
        exact .inr ⟨fits, complete, rfl⟩
    · cases (bind_of_not_fits operation fits).symm.trans h
      exact .inl ⟨fits, rfl⟩
  · rintro (⟨long, rfl⟩ | ⟨fits, lacking, rfl⟩)
    · exact bind_of_not_fits operation long
    · exact bind_of_missing operation fits lacking

theorem bind_eq_ok_iff (operation : String) : s.bind operation positional named = .ok b ↔
    s.Fits positional ∧ s.missing positional (Table.get? named) = [] ∧
      b = s.bound positional named := by
  constructor
  · intro h
    by_cases fits : s.Fits positional
    · by_cases complete : s.missing positional (Table.get? named) = []
      · cases (bind_of_fits operation fits complete).symm.trans h
        exact ⟨fits, complete, rfl⟩
      · cases (bind_of_missing operation fits complete).symm.trans h
    · cases (bind_of_not_fits operation fits).symm.trans h
  · rintro ⟨fits, complete, rfl⟩
    exact bind_of_fits operation fits complete

/-! ### What is bound -/

theorem map_some_positional (complete : s.missing positional (Table.get? named) = []) :
    (s.bound positional named).positional.map some =
      positional.map some ++ (s.required.drop positional.length).map (Table.get? named) := by
  have given : ((s.openRequired positional.length).map (Table.get? named)).filter (·.isSome) =
      (s.openRequired positional.length).map (Table.get? named) := by
    refine List.filter_eq_self.mpr fun value mem => ?_
    obtain ⟨name, hn, rfl⟩ := List.mem_map.mp mem
    exact isSome_of_missing_nil complete name hn
  rw [bound, List.map_append, List.map_filterMap_some_eq_filter_map_isSome, given, openRequired]

theorem keepsNamed_iff : s.keepsNamed n name = true ↔
    name ∉ s.declared.take n ∧ name ∉ s.required.drop n ∧
      (name ∈ s.optionalNames ∨ s.extraNamed = true) := by
  simp [keepsNamed, openRequired, and_assoc, or_comm]

theorem named_eq (s : Shape) (positional : List Json) (named : Params) :
    (s.bound positional named).named = named.filter fun field =>
      field.1 ∉ s.declared.take positional.length ∧ field.1 ∉ s.required.drop positional.length ∧
        (field.1 ∈ s.optionalNames ∨ s.extraNamed = true) := by
  refine List.filter_congr fun field _ => ?_
  rw [Bool.eq_iff_iff, keepsNamed_iff, decide_eq_true_iff]

theorem eq_bound_iff (complete : s.missing positional (Table.get? named) = []) :
    b = s.bound positional named ↔
      b.positional.map some =
        positional.map some ++ (s.required.drop positional.length).map (Table.get? named) ∧
      b.named = (s.bound positional named).named := by
  rw [← map_some_positional complete]
  constructor
  · rintro rfl
    exact ⟨rfl, rfl⟩
  · rintro ⟨slots, kept⟩
    obtain ⟨slots', kept'⟩ := b
    obtain rfl := List.map_injective_iff.mpr (fun _ _ => Option.some.inj) slots
    cases kept
    rfl

/-! ### Binding again -/

theorem length_positional (complete : s.missing positional (Table.get? named) = []) :
    (s.bound positional named).positional.length = max positional.length s.required.length := by
  have length := congrArg List.length (map_some_positional complete)
  simp only [List.length_map, List.length_append, List.length_drop] at length
  omega

theorem fits_bound (fits : s.Fits positional)
    (complete : s.missing positional (Table.get? named) = []) :
    s.Fits (s.bound positional named).positional := by
  refine fits.imp_right fun short => ?_
  have size := length_declared s
  rw [length_positional complete]
  omega

/-- All required names have their slots. -/
theorem openRequired_bound (complete : s.missing positional (Table.get? named) = []) :
    s.openRequired (s.bound positional named).positional.length = [] := by
  rw [openRequired, length_positional complete]
  exact List.drop_eq_nil_of_le (Nat.le_max_right _ _)

/-- A named value that is kept stays one when the open required names have got their slots. -/
theorem keepsNamed_max (h : s.keepsNamed n name = true) :
    s.keepsNamed (max n s.required.length) name = true := by
  rcases Nat.le_total s.required.length n with enough | short
  · rwa [Nat.max_eq_left enough]
  · obtain ⟨free, unmoved, wanted⟩ := keepsNamed_iff.mp h
    rw [declared, List.take_append_of_le_length short] at free
    have other : name ∉ s.required := by
      rw [← List.take_append_drop n s.required, List.mem_append, not_or]
      exact ⟨free, unmoved⟩
    rw [Nat.max_eq_right short, keepsNamed_iff, declared, List.take_left, List.drop_length]
    exact ⟨other, List.not_mem_nil, wanted⟩

theorem bound_bound (complete : s.missing positional (Table.get? named) = []) :
    s.bound (s.bound positional named).positional (s.bound positional named).named =
      s.bound positional named := by
  have kept : (s.bound positional named).named.filter
      (fun field => s.keepsNamed (s.bound positional named).positional.length field.1) =
        (s.bound positional named).named := by
    refine List.filter_eq_self.mpr fun field mem => ?_
    rw [length_positional complete]
    exact keepsNamed_max (List.mem_filter.mp mem).2
  rw [bound, kept, openRequired_bound complete, List.filterMap_nil, List.append_nil]

theorem bind_bound (operation : String) (fits : s.Fits positional)
    (complete : s.missing positional (Table.get? named) = []) :
    s.bind operation (s.bound positional named).positional (s.bound positional named).named =
      .ok (s.bound positional named) := by
  have again : s.missing (s.bound positional named).positional
      (Table.get? (s.bound positional named).named) = [] := by
    rw [missing, openRequired_bound complete, List.filter_nil]
  rw [bind_of_fits operation (fits_bound fits complete) again, bound_bound complete]

/-! ### The exact result -/

/-- A call fails if it has more values by position than there are declared names, unless the shape
takes any number of them; else if required names beyond those given by position have no value, and it
names just these. Otherwise these names have their values moved behind the ones by position, and of
the named values those are kept whose names have no slot and are optional or admitted as extra ones.
What was bound binds to itself. -/
theorem bind_exact (s : Shape) (operation : String) (positional : List Json) (named : Params) :
    let covered := s.declared.take positional.length
    let remaining := s.required.drop positional.length
    let absent := remaining.filter fun name => name ∉ Table.keys named
    (∀ e, s.bind operation positional named = .error e ↔
      (s.variadic = false ∧ s.declared.length < positional.length) ∧
        e = .tooManyArguments operation positional.length s.declared.length ∨
      (s.variadic = true ∨ positional.length ≤ s.declared.length) ∧ absent ≠ [] ∧
        e = .missingArguments operation absent) ∧
    (∀ b, s.bind operation positional named = .ok b ↔
      (s.variadic = true ∨ positional.length ≤ s.declared.length) ∧ absent = [] ∧
        b.positional.map some = positional.map some ++ remaining.map (Table.get? named) ∧
        b.named = named.filter fun field => field.1 ∉ covered ∧ field.1 ∉ remaining ∧
          (field.1 ∈ s.optionalNames ∨ s.extraNamed = true)) ∧
    ∀ b, s.bind operation positional named = .ok b →
      s.bind operation b.positional b.named = .ok b := by
  refine ⟨?_, ?_, ?_⟩
  · intro e
    rw [bind_eq_error_iff, not_fits_iff, missing_eq, Fits]
  · intro b
    rw [bind_eq_ok_iff, ← missing_eq]
    refine and_congr_right fun _ => and_congr_right fun complete => ?_
    rw [eq_bound_iff complete, named_eq]
  · intro b ok
    obtain ⟨fits, complete, rfl⟩ := (bind_eq_ok_iff operation).mp ok
    exact bind_bound operation fits complete

namespace Sample

/-- Names repeat among the required ones, and one of them has a default as well. -/
def repeating : Shape where
  required := ["a", "b", "a"]
  optional := [("c", .int 10), ("b", .int 0)]

theorem repeating_rebound :
    let b : Binding := ⟨[.int 1, .int 2, .int 3], [("c", .int 4)]⟩
    repeating.bind "op" [.int 1] [("z", .int 9), ("c", .int 4), ("a", .int 3), ("b", .int 2)] =
        .ok b ∧ repeating.bind "op" b.positional b.named = .ok b := by
  intro b
  have bound : repeating.bind "op" [.int 1]
      [("z", .int 9), ("c", .int 4), ("a", .int 3), ("b", .int 2)] = .ok b := rfl
  exact ⟨bound, (bind_exact repeating "op" _ _).2.2 b bound⟩

end Sample

/-! ### Other ways to pass the same values -/

/-- A call that passes values and extra fields: the values of the first `k` declared names by
position, and those of the other ones by name. What it gives by name for the first `k` is free. -/
structure Passes (s : Shape) (values : String → Option Json) (extra : Params) (k : Nat)
    (positional : List Json) (named : Params) : Prop where
  byPosition : positional.map some = (s.declared.take k).map values
  byName : ∀ name ∈ s.declared.drop k, Table.get? named name = values name
  beside : (named.filter fun field => field.1 ∉ s.declared) = extra

/-- What is read under a name, whichever way the values are passed. -/
def reading (s : Shape) (values : String → Option Json) (extra : Params) (name : String) :
    Option Json :=
  if name ∈ s.declared then (values name).or (s.defaultOf? name)
  else if s.extraNamed then Table.get? extra name else none

section

variable {values : String → Option Json} {extra : Params} {k i : Nat}

namespace Passes

variable (passes : s.Passes values extra k positional named)

include passes

theorem length_eq : positional.length = min k s.declared.length := by
  have length := congrArg List.length passes.byPosition
  rwa [List.length_map, List.length_map, List.length_take] at length

theorem fits : s.Fits positional := by
  refine .inr ?_
  rw [passes.length_eq]
  exact Nat.min_le_right _ _

theorem placed (declared : s.declared[i]? = some name) (given : i < positional.length) :
    positional[i]? = values name := by
  have before : i < k := by
    have := passes.length_eq
    omega
  have slot := congrArg (·[i]?) passes.byPosition
  simp only [List.getElem?_map, List.getElem?_take_of_lt before, declared, Option.map_some] at slot
  obtain ⟨value, found, same⟩ := Option.map_eq_some_iff.mp slot
  rw [found, same]

theorem unplaced (declared : s.declared[i]? = some name) (open_ : positional.length ≤ i) :
    Table.get? named name = values name := by
  refine passes.byName name (List.mem_iff_getElem?.mpr ⟨i - k, ?_⟩)
  have within := (List.getElem?_eq_some_iff.mp declared).1
  have length := passes.length_eq
  rw [List.getElem?_drop, Nat.add_sub_cancel' (by omega), declared]

theorem undeclared (other : name ∉ s.declared) : Table.get? named name = Table.get? extra name := by
  rw [← passes.beside, Table.get?_filter named (fun key => key ∉ s.declared),
    if_pos (decide_eq_true other)]

/-- The open required names have their values by name. -/
theorem complete (given : ∀ name ∈ s.required, (values name).isSome) :
    s.missing positional (Table.get? named) = [] := by
  refine List.filter_eq_nil_iff.mpr fun name mem => ?_
  obtain ⟨j, hj⟩ := List.mem_iff_getElem?.mp mem
  rw [openRequired, List.getElem?_drop] at hj
  have required := (List.getElem?_eq_some_iff.mp hj).1
  have declared : s.declared[positional.length + j]? = some name := by
    rwa [Shape.declared, List.getElem?_append_left required]
  have value := given name (List.mem_of_getElem? hj)
  rw [passes.unplaced declared (Nat.le_add_right _ _), Option.isNone_iff_eq_none,
    ← Option.not_isSome_iff_eq_none, not_not]
  exact value

theorem get?_eq (distinct : s.declared.Nodup)
    (given : ∀ name ∈ s.required, (values name).isSome) (name : String) :
    Args.get? ⟨s, s.bound positional named⟩ name = s.reading values extra name := by
  have receives := receives_bound distinct (passes.complete given)
  rw [reading]
  split
  · rename_i mem
    obtain ⟨i, declared⟩ := List.mem_iff_getElem?.mp mem
    by_cases lt : i < positional.length
    · have slot := passes.placed declared lt
      rw [receives.byPosition i name declared lt, ← slot, List.getElem?_eq_getElem lt,
        Option.some_or]
    · have le := Nat.le_of_not_lt lt
      rw [receives.byName i name declared le, passes.unplaced declared le]
  · rename_i other
    rw [receives.undeclared name other, passes.undeclared other]

end Passes

theorem isSome_reading (given : ∀ name ∈ s.required, (values name).isSome)
    (mem : name ∈ s.declared) : (s.reading values extra name).isSome := by
  rw [reading, if_pos mem, Option.isSome_or]
  rcases List.mem_append.mp mem with required | optional
  · rw [given name required, Bool.true_or]
  · have default : (s.defaultOf? name).isSome := by
      rw [defaultOf?, Option.isSome_iff_ne_none, Ne, Table.get?_eq_none_iff, not_not]
      exact optional
    rw [default, Bool.or_true]

/-- Of the named values with undeclared names all are kept, or none. -/
theorem filter_named_bound (s : Shape) (positional : List Json) (named : Params) :
    ((s.bound positional named).named.filter fun field => field.1 ∉ s.declared) =
      if s.extraNamed then named.filter fun field => field.1 ∉ s.declared else [] := by
  have kept (field : String × Json) :
      (decide (field.1 ∉ s.declared) && s.keepsNamed positional.length field.1) =
        (decide (field.1 ∉ s.declared) && s.extraNamed) := by
    by_cases mem : field.1 ∈ s.declared
    · simp [mem]
    · rw [keepsNamed_of_not_mem mem]
  rw [bound, List.filter_filter]
  simp only [kept]
  cases s.extraNamed <;> simp

end

end Shape

namespace Args

variable {a : Args}

theorem toTable_foldl (a : Args) : a.toTable =
    a.named.foldl (fun acc field =>
      if Table.contains acc field.1 then acc else Table.insert acc field.1 field.2)
      (a.shape.declared.foldl (fun acc name => (a.get? name).elim acc (Table.insert acc name)) []) := by
  rw [toTable]
  congr 2
  funext acc name
  cases a.get? name <;> rfl

/-- Declared names with their values stand first, and then the named values with other names. -/
theorem toTable_eq (distinct : a.shape.declared.Nodup)
    (given : ∀ name ∈ a.shape.declared, (a.get? name).isSome)
    (apart : Table.Distinct (a.named.filter fun field => field.1 ∉ a.shape.declared)) :
    a.toTable = (a.shape.declared.filterMap fun name => (a.get? name).map (name, ·)) ++
      a.named.filter fun field => field.1 ∉ a.shape.declared := by
  have keys := Table.keys_filterMap_of_isSome given
  rw [← keys] at apart
  rw [toTable_foldl, Table.foldl_insert_found distinct a.get? fun _ _ => List.not_mem_nil,
    List.nil_append, Table.foldl_insert_absent apart, keys]

end Args

namespace Shape

/-- An operation cannot tell how its arguments were passed. However many of the values for declared
names stand by position, and in whatever order the others and the extra fields come by name, the call
is bound, a name has the same value or default, and the arguments as a whole are the declared names in
declared order, and after them the extra fields in their order if the shape takes any. -/
theorem passing_indifferent {s : Shape} (distinct : s.declared.Nodup) {values : String → Option Json}
    (given : ∀ name ∈ s.required, (values name).isSome) {extra : Params}
    (apart : Table.Distinct extra) {k : Nat} {positional : List Json} {named : Params}
    (passes : s.Passes values extra k positional named) (operation : String) :
    ∃ b, s.bind operation positional named = .ok b ∧
      (∀ name, Args.get? ⟨s, b⟩ name = s.reading values extra name) ∧
      (∀ name, Args.require ⟨s, b⟩ name = match s.reading values extra name with
        | some value => .ok value
        | none => .error (.failed s!"argument '{name}' has no value")) ∧
      Args.toTable ⟨s, b⟩ =
        (s.declared.filterMap fun name => ((values name).or (s.defaultOf? name)).map (name, ·)) ++
          (if s.extraNamed then extra else []) ∧
      Table.keys (Args.toTable ⟨s, b⟩) =
        s.declared ++ if s.extraNamed then Table.keys extra else [] := by
  let a : Args := ⟨s, s.bound positional named⟩
  have get (name : String) : a.get? name = s.reading values extra name :=
    passes.get?_eq distinct given name
  have found : ∀ name ∈ s.declared, (a.get? name).isSome := by
    intro name mem
    rw [get]
    exact isSome_reading given mem
  have beside : (a.named.filter fun field => field.1 ∉ s.declared) =
      if s.extraNamed then extra else [] := by
    rw [← passes.beside]
    exact filter_named_bound s positional named
  have all : a.toTable = (s.declared.filterMap fun name => (a.get? name).map (name, ·)) ++
      if s.extraNamed then extra else [] := by
    rw [← beside]
    refine Args.toTable_eq distinct found ?_
    rw [beside]
    split
    · exact apart
    · exact Table.distinct_nil
  refine ⟨s.bound positional named, bind_of_fits operation passes.fits (passes.complete given), get,
    ?_, ?_, ?_⟩
  · intro name
    rw [← get name]
    rfl
  · have declared : ∀ name ∈ s.declared,
        a.get? name = (values name).or (s.defaultOf? name) := by
      intro name mem
      rw [get, reading, if_pos mem]
    refine all.trans (congrArg (· ++ _) (List.filterMap_congr fun name mem => ?_))
    rw [declared name mem]
  · rw [all, Table.keys_append, Table.keys_filterMap_of_isSome found]
    split <;> rfl

namespace Sample

def layered : Shape where
  required := ["a", "b"]
  optional := [("c", .int 10), ("d", .int 20)]
  extraNamed := true

theorem layered_passed : ∃ b,
    layered.bind "op" [.int 1] [("c", .int 3), ("x", .int 9), ("a", .int 7), ("b", .int 2)] = .ok b ∧
      Args.toTable ⟨layered, b⟩ =
        [("a", .int 1), ("b", .int 2), ("c", .int 3), ("d", .int 20), ("x", .int 9)] := by
  have passes : layered.Passes (Table.get? [("b", .int 2), ("a", .int 1), ("c", .int 3)])
      [("x", .int 9)] 1 [.int 1] [("c", .int 3), ("x", .int 9), ("a", .int 7), ("b", .int 2)] := by
    refine ⟨rfl, ?_, rfl⟩
    show ∀ name ∈ ["b", "c", "d"], _
    simp [Table.get?]
  have apart : Table.Distinct [("x", Json.int 9)] := List.nodup_singleton "x"
  obtain ⟨b, bound, -, -, all, -⟩ :=
    passing_indifferent (by decide) (by decide) apart passes "op"
  exact ⟨b, bound, all⟩

end Sample
end Shape
end Lineage
