import Lineage.Proofs.Registry.Identity

/-!
The collections of a valid configuration. Their names are all different, so each is found by its name.
Their places need not be: a place that several collections have is left to the last of them, and the
others are not found by their paths.
-/
namespace Lineage

open World Action

/-! ### Valid configurations -/

namespace Config

/-- Without complaints, no name comes up twice. -/
theorem names_of_collectionProblems {i : Nat} {earlier : List String} {specs : List CollectionSpec}
    (h : collectionProblems i earlier specs = []) :
    (specs.map CollectionSpec.name).Nodup ∧ ∀ spec ∈ specs, spec.name ∉ earlier := by
  induction specs generalizing i earlier with
  | nil => exact ⟨List.nodup_nil, List.forall_mem_nil _⟩
  | cons c rest ih =>
      simp only [collectionProblems, List.append_eq_nil_iff, List.contains_eq_mem,
        decide_eq_true_eq, ite_eq_right_iff, List.cons_ne_nil, imp_false] at h
      obtain ⟨⟨-, new⟩, h⟩ := h
      obtain ⟨nodup, apart⟩ := ih h
      refine ⟨List.nodup_cons.mpr ⟨fun again => ?_, nodup⟩, List.forall_mem_cons.mpr ⟨new, ?_⟩⟩
      · obtain ⟨spec, hs, same⟩ := List.mem_map.mp again
        exact apart spec hs (same ▸ List.mem_cons_self ..)
      · exact fun spec hs known => apart spec hs (List.mem_cons_of_mem _ known)

theorem names_nodup {config : Config} (valid : config.problems = []) :
    (config.collections.map CollectionSpec.name).Nodup := by
  simp only [problems, List.append_eq_nil_iff] at valid
  exact (names_of_collectionProblems valid.1.1.1.1.2).1

end Config

namespace Registry

/-! ### Who comes last -/

/-- The last of some entries with a key. -/
def lastWith {κ : Type} [DecidableEq κ] (key : Entry → κ) (entries : List Entry) (k : κ) :
    Option Entry :=
  entries.reverse.find? fun e => key e = k

section

variable {κ : Type} [DecidableEq κ] {key : Entry → κ}

theorem lastWith_cons (e : Entry) (entries : List Entry) (k : κ) :
    lastWith key (e :: entries) k =
      (lastWith key entries k).or (if key e = k then some e else none) := by
  simp only [lastWith, List.reverse_cons, List.find?_append, List.find?_singleton,
    decide_eq_true_eq]

theorem mem_of_lastWith {entries : List Entry} {k : κ}
    {e : Entry} (h : lastWith key entries k = some e) : e ∈ entries ∧ key e = k :=
  ⟨List.mem_reverse.mp (List.mem_of_find?_eq_some h), by simpa using List.find?_some h⟩

/-- An entry is the last one with its key if and only if none after it has the key. -/
theorem lastWith_eq_some_iff (key : Entry → κ) {before after : List Entry} {e : Entry}
    (new : e ∉ after) :
    lastWith key (before ++ e :: after) (key e) = some e ↔ ∀ x ∈ after, key x ≠ key e := by
  have split : lastWith key (before ++ e :: after) (key e) =
      (lastWith key after (key e)).or (some e) := by
    simp [lastWith, List.find?_append]
  rw [split]
  cases h : lastWith key after (key e) with
  | none => simpa [lastWith] using h
  | some x =>
      have there : x ∈ after := List.mem_reverse.mp (List.mem_of_find?_eq_some h)
      have same : key x = key e := by simpa using List.find?_some h
      refine iff_of_false (fun he => new ?_) fun apart => apart x there same
      obtain rfl : x = e := by simpa using he
      exact there

end

/-! ### The roots of a registry -/

theorem createRoot_ok (base : Path) (spec : CollectionSpec) (w : World) :
    ∃ root w', createRoot base spec w = .ok root w' ∧ root.path = rootPlace base spec ∧
      root.name = spec.name ∧ root.id = w.cells.length ∧ w'.cells = w.cells ++ [({} : Cells)] ∧
      w'.disk = w.disk ∧ w'.byPath = Table.insert w.byPath root.path.components root ∧
      w'.byName = Table.insert w.byName root.name root :=
  ⟨_, _, createRoot_apply base spec w, rfl, rfl, rfl, rfl, rfl, rfl, rfl⟩

/-- What the collections of a configuration become, one after the other: entries with numbers of
their own, of which nothing is loaded. A later one takes the place and the name of an earlier one. -/
structure Rooted (base : Path) (specs : List CollectionSpec) (w : World) (roots : List Entry)
    (w' : World) : Prop where
  made : roots.map (fun e => (e.path, e.name)) = specs.map fun s => (rootPlace base s, s.name)
  ids : roots.map Entry.id = List.range' w.cells.length specs.length
  cells : w'.cells = w.cells ++ List.replicate specs.length ({} : Cells)
  disk : w'.disk = w.disk
  path : ∀ place, Table.get? w'.byPath place =
    (lastWith (fun e => e.path.components) roots place).or (Table.get? w.byPath place)
  name : ∀ name, Table.get? w'.byName name =
    (lastWith Entry.name roots name).or (Table.get? w.byName name)

theorem mapM_createRoot_ok (base : Path) (specs : List CollectionSpec) (w : World) :
    ∃ roots w', specs.mapM (createRoot base) w = .ok roots w' ∧ Rooted base specs w roots w' := by
  induction specs generalizing w with
  | nil => exact ⟨[], w, rfl, rfl, rfl, (List.append_nil _).symm, rfl, fun _ => rfl, fun _ => rfl⟩
  | cons spec specs ih =>
      obtain ⟨root, w₁, first, path, name, id, cells, disk, knownPath, knownName⟩ :=
        createRoot_ok base spec w
      obtain ⟨roots, w', rest, rooted⟩ := ih w₁
      refine ⟨root :: roots, w', ?_, ⟨?_, ?_, ?_, ?_, fun place => ?_, fun name => ?_⟩⟩
      · rw [List.mapM_cons, bind_of_ok first, bind_of_ok rest]
        rfl
      · rw [List.map_cons, List.map_cons, rooted.made, path, name]
      · rw [List.map_cons, rooted.ids, id, cells, List.length_append, List.length_cons]
        rfl
      · rw [rooted.cells, cells, List.append_assoc]
        rfl
      · rw [rooted.disk, disk]
      · rw [rooted.path, knownPath, Table.get?_insert, lastWith_cons, Option.or_assoc]
        split <;> rfl
      · rw [rooted.name, knownName, Table.get?_insert, lastWith_cons, Option.or_assoc]
        split <;> rfl

theorem Rooted.holds {base : Path} {specs : List CollectionSpec} {w w' : World}
    {roots : List Entry} (h : Rooted base specs w roots w') : ∀ root ∈ roots, w'.Holds root := by
  intro root hroot
  have id := h.ids ▸ List.mem_map_of_mem (f := Entry.id) hroot
  simp only [List.mem_range'_1] at id
  rw [Holds, h.cells, List.length_append, List.length_replicate]
  exact id.2

/-- The roots of a registry are entries of every world of a session. -/
theorem Session.holds_roots {r : Registry} {w : World} (h : Session r w) :
    ∀ root ∈ r.roots, w.Holds root := by
  induction h with
  | @start config base catalog builtins disk w h =>
      obtain ⟨roots, w₁, made, rooted⟩ := mapM_createRoot_ok base config.collections { disk }
      rw [ofConfig, bind_of_ok made] at h
      cases h
      exact rooted.holds
  | move before h ih =>
      exact fun root hroot => (h.grows_sound before.sound).1.holds (ih root hroot)

/-- A path leads to an entry at its place if and only if that is the last of those there. -/
theorem byPath_eq_ok_iff {p : Path} {w : World} {before after : List Entry} {e : Entry}
    (last : Table.get? w.byPath p.normalize.components =
      lastWith (fun e => e.path.components) (before ++ e :: after) p.normalize.components)
    (path : e.path = p.normalize) (normal : ∀ x ∈ after, x.path.normalize = x.path)
    (new : e ∉ after) : byPath p w = .ok e w ↔ ∀ x ∈ after, x.path ≠ e.path := by
  obtain ⟨found, hfound⟩ : ∃ found, lastWith (fun e => e.path.components) (before ++ e :: after)
      p.normalize.components = some found := by
    refine Option.isSome_iff_exists.mp (List.find?_isSome.mpr ⟨e, ?_, ?_⟩)
    · simp
    · simp [path]
  have answer : byPath p w = .ok e w ↔ some found = some e := by
    rw [byPath_of_known (last.trans hfound)]
    simp
  rw [answer, ← hfound, ← path, lastWith_eq_some_iff (fun e => e.path.components) new]
  have spelled : e.path.normalize = e.path := path ▸ Path.normalize_normalize p
  exact forall₂_congr fun x hx => not_congr
    ⟨Path.eq_of_components (normal x hx) spelled, congrArg Path.components⟩

/-- Every collection of a valid configuration is found by its name, whoever else has its place. By
its path it is found if and only if no later collection has its place. -/
theorem valid_collections_found {config : Config} (valid : config.problems = []) (base : Path)
    (catalog : Catalog) (builtins : List Namespace) (disk : Disk) :
    ∃ r w, ofConfig config base catalog builtins { disk } = .ok r w ∧
      r.roots.length = config.collections.length ∧
      ∀ before spec after, config.collections = before ++ spec :: after →
        ∃ root, r.roots[before.length]? = some root ∧ root.name = spec.name ∧
          cached spec.name w = .ok (some root) w ∧ r.byName spec.name w = .ok (some root) w ∧
          (byPath (base.join spec.path.text) w = .ok root w ↔
            ∀ later ∈ after, rootPlace base later ≠ rootPlace base spec) := by
  obtain ⟨roots, w, made, same, -, -, -, hpath, hname⟩ :=
    mapM_createRoot_ok base config.collections { disk }
  refine ⟨_, w, bind_of_ok made _, ?_, fun before spec after split => ?_⟩
  · simpa using congrArg List.length same
  have nodup := Config.names_nodup valid
  rw [split, List.map_append, List.map_cons] at same nodup
  obtain ⟨front, back, rfl, hfront, hback⟩ := List.map_eq_append_iff.mp same
  obtain ⟨root, later, rfl, hroot, hlater⟩ := List.map_eq_cons_iff.mp hback
  obtain ⟨path, name⟩ := Prod.mk.inj hroot
  have size : front.length = before.length := by simpa using congrArg List.length hfront
  have names : later.map Entry.name = after.map CollectionSpec.name := by
    simpa [Function.comp_def] using congrArg (List.map Prod.snd) hlater
  have paths : later.map Entry.path = after.map (rootPlace base) := by
    simpa [Function.comp_def] using congrArg (List.map Prod.fst) hlater
  have apart : ∀ x ∈ later, x.name ≠ root.name := by
    intro x hx again
    have twice : spec.name ∈ after.map CollectionSpec.name :=
      names ▸ name ▸ again ▸ List.mem_map_of_mem hx
    exact (List.nodup_cons.mp (List.nodup_append.mp nodup).2.1).1 twice
  have new : root ∉ later := fun h => apart root h rfl
  have known : Table.get? w.byName spec.name = some root := by
    rw [hname, ← name, (lastWith_eq_some_iff Entry.name new).mpr apart]
    rfl
  refine ⟨root, ?_, name, ?_, byName_of_cached known, ?_⟩
  · simp [← size]
  · rw [cached_apply, known]
  have normal : ∀ q ∈ later.map Entry.path, q.normalize = q := by
    rw [paths]
    exact List.forall_mem_map.mpr fun s _ => Path.normalize_normalize _
  rw [byPath_eq_ok_iff ((hpath _).trans (Option.or_none ..)) path (List.forall_mem_map.mp normal) new,
    ← List.forall_mem_map (P := fun q => q ≠ root.path), paths, List.forall_mem_map, path]

namespace Sample

/-- Two collections at one place, in different spellings. -/
def oneShelf : Config where
  collections := [⟨"shelf", ⟨"x"⟩⟩, ⟨"again", ⟨"./x"⟩⟩]

def shelf : Entry := ⟨0, ⟨"x"⟩, "shelf"⟩

def again : Entry := ⟨1, ⟨"x"⟩, "again"⟩

def oneShelfWorld : World where
  disk := ⟨[], []⟩
  cells := [{}, {}]
  byPath := [([.name "x"], again)]
  byName := [("shelf", shelf), ("again", again)]

def oneShelfRegistry : Registry := ⟨⟨""⟩, oneShelf, [shelf, again], [], []⟩

theorem oneShelf_starts :
    ofConfig oneShelf ⟨""⟩ [] [] { disk := ⟨[], []⟩ } = .ok oneShelfRegistry oneShelfWorld := rfl

/-- Of two collections at one place, each is found by its name and the second by its path. -/
theorem second_collection_found : oneShelf.problems = [] ∧
    ofConfig oneShelf ⟨""⟩ [] [] { disk := ⟨[], []⟩ } = .ok oneShelfRegistry oneShelfWorld ∧
    oneShelfRegistry.byName "shelf" oneShelfWorld = .ok (some shelf) oneShelfWorld ∧
    byPath ⟨"x"⟩ oneShelfWorld ≠ .ok shelf oneShelfWorld ∧
    oneShelfRegistry.byName "again" oneShelfWorld = .ok (some again) oneShelfWorld ∧
    byPath ⟨"./x"⟩ oneShelfWorld = .ok again oneShelfWorld := by
  have valid : oneShelf.problems = [] := by decide
  obtain ⟨r, w, start, -, found⟩ := valid_collections_found valid ⟨""⟩ [] [] ⟨[], []⟩
  rw [oneShelf_starts] at start
  cases start
  obtain ⟨_, hfirst, -, -, named, placed⟩ := found [] _ _ rfl
  obtain ⟨_, hsecond, -, -, named', placed'⟩ := found [_] _ _ rfl
  cases hfirst
  cases hsecond
  refine ⟨valid, oneShelf_starts, named, fun h => ?_, named', placed'.mpr (List.forall_mem_nil _)⟩
  exact placed.mp h _ (List.mem_singleton_self _) (by decide)

/-- A valid configuration with a collection that is not what its path leads to. -/
theorem place_shared_by_valid_collections : oneShelf.problems = [] ∧
    ofConfig oneShelf ⟨""⟩ [] [] { disk := ⟨[], []⟩ } = .ok oneShelfRegistry oneShelfWorld ∧
    oneShelf.collections[0]? = some ⟨"shelf", ⟨"x"⟩⟩ ∧ oneShelfRegistry.roots[0]? = some shelf ∧
    byPath (Path.join ⟨""⟩ "x") oneShelfWorld = .ok again oneShelfWorld ∧ again ≠ shelf :=
  ⟨by decide, oneShelf_starts, rfl, rfl, rfl, by decide⟩

end Sample

end Registry
end Lineage
