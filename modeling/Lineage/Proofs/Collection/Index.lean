import Mathlib.Data.List.Permutation
import Lineage.Proofs.Collection.Edits

/-!
The index of a collection under edits. In memory and in the document of the collection it is what the
successful edits make of the index at first, one after the other; the other own parameters stay, and
an edit that is rejected leaves everything as it was.
-/
namespace Lineage

open World Action Registry
open Component (IsName)
open Disk (Within)

namespace Collection

/-- What an edit makes of an index, given how it was answered: what is added comes last, and what is
deleted is left out. -/
def replay (index : Params) : Edit × Except Error Outcome → Params
  | (.add args, .ok _) =>
    match args.requireText "entry_name" with
    | .ok name => index ++ [(name, .str name)]
    | .error _ => index
  | (.delete args, .ok _) =>
    match args.requireText "entry_name" with
    | .ok name => index.filter fun field => field.1 ≠ name
    | .error _ => index
  | (_, .error _) => index

/-- Why an edit is rejected: it has no name, or data that are no map, or a name that is not valid, is
listed already or is not listed. -/
inductive Rejected (index : Params) : Edit → Prop
  | unnamed {edit err} (h : edit.name = .error err) : Rejected index edit
  | data {args err} (h : dataOf args = .error err) : Rejected index (.add args)
  | invalid {args name} (h : args.requireText "entry_name" = .ok name)
      (bad : name = "" ∨ name.toList.contains '/' = true) : Rejected index (.add args)
  | listed {args name} (h : args.requireText "entry_name" = .ok name)
      (there : Table.contains index name = true) : Rejected index (.add args)
  | unlisted {args name} (h : args.requireText "entry_name" = .ok name)
      (missing : Table.get? index name = none) : Rejected index (.delete args)

variable {r : Registry} {c : Entry} {own index : Params} {w w' : World} {name : String}
  {data : Params} {outcome : Outcome} {edit : Edit} {answer : Except Error Outcome}

/-! ### Successful edits -/

/-- An index is that of the loaded parameters of a collection, and stored with them. -/
structure Indexed (r : Registry) (c : Entry) (own index : Params) (w : World) : Prop where
  loaded : r.OwnLoaded c (Table.insert own indexKey (.obj index)) w
  stored : ∃ rest dir, r.Stored c (Table.insert own indexKey (.obj index)) w.disk rest dir

theorem storing_loaded (h : r.OwnLoaded c own w) (ok : storing r c index w = .ok () w') :
    r.OwnLoaded c (Table.insert own indexKey (.obj index)) w' := by
  obtain ⟨w₁, set, loaded, -⟩ := h.setParameter indexKey (.obj index)
  rw [storing, bind_of_ok set] at ok
  have kept := loaded.persist (fun _ => rfl)
  rwa [after_of_ok ok] at kept

theorem storing_ok (plain : IsName r.config.parameters.file) (h : r.OwnLoaded c own w)
    (ok : storing r c index w = .ok () w') : Indexed r c own index w' := by
  refine ⟨storing_loaded h ok, ?_⟩
  obtain ⟨w₁, set, loaded, -⟩ := h.setParameter indexKey (.obj index)
  rw [storing, bind_of_ok set] at ok
  exact stored_of_persist plain loaded.hosts.normal loaded.known ok

theorem insertion_ok (plain : IsName r.config.parameters.file) (hosts : r.Hosts c w)
    (known : value (r.own c) w = .ok own) (ordinary : name ≠ "." ∧ name ≠ "..")
    (ok : insertion r c name data w = .ok outcome w') :
    IsName name ∧ Indexed r c own (indexOf own ++ [(name, .str name)]) w' := by
  obtain ⟨accepted, own₁, w₁, d, e, w₂, w₃, w₄, load, new, -, found, updated, written, stored, -⟩ :=
    insertion_eq_ok_iff.mp ok
  have hn := isName_of_accepted accepted ordinary
  obtain ⟨loaded, -, same⟩ := loaded_of_own hosts load
  cases same.symm.trans known
  obtain ⟨loaded, -, proper, place⟩ := (loaded.onDisk d).byPath found
  rw [Path.normalize_join hosts.normal hn] at place
  have edited := (loaded.updateParameters (id_ne_of_join hosts.normal hn proper place) data).1
  rw [after_of_ok updated] at edited
  have kept := edited.persist proper
  rw [after_of_ok written] at kept
  rw [← Table.insert_of_new new]
  exact ⟨hn, storing_ok plain kept stored⟩

theorem erasure_ok (plain : IsName r.config.parameters.file) (hosts : r.Hosts c w)
    (known : value (r.own c) w = .ok own) (children : Children (indexOf own))
    (ok : erasure r c name w = .ok outcome w') :
    Indexed r c own (Table.erase (indexOf own) name) w' := by
  obtain ⟨own₁, w₁, place, w₂, load, listed, stored, -, left⟩ := erasure_eq_ok_iff.mp ok
  obtain ⟨loaded, -, same⟩ := loaded_of_own hosts load
  cases same.symm.trans known
  have indexed := storing_ok plain loaded stored
  rcases left with ⟨-, rfl⟩ | ⟨-, d, removed, rfl⟩
  · exact indexed
  · obtain ⟨_, he, hp⟩ := children.get? listed
    cases he
    obtain ⟨rest, dir, h⟩ := indexed.stored
    have within : Within dir (dir ++ [r.config.parameters.file]) w₂.disk d := by
      rw [← Disk.left_of_ok removed]
      exact Disk.removeDirs_within hosts.normal hp h.leads
    exact ⟨indexed.loaded.onDisk d, rest, dir, h.leads.within hosts.normal within, h.spelled, h.fits,
      Disk.removeDirs_keeps hosts.normal hp h.leads h.document removed⟩

/-- What a successful edit makes of the index is the index from then on. -/
theorem act_ok (plain : IsName r.config.parameters.file) (hosts : r.Hosts c w)
    (known : value (r.own c) w = .ok own) (children : Children (indexOf own))
    (ordinary : edit.Ordinary) (ok : edit.act r c w = .ok outcome w') :
    Indexed r c own (replay (indexOf own) (edit, .ok outcome)) w' ∧
      Children (replay (indexOf own) (edit, .ok outcome)) := by
  cases edit with
  | add args =>
      obtain ⟨name, w₁, read, ok⟩ := bind_eq_ok_iff.mp ok
      obtain ⟨given, rfl⟩ := Script.known_eq_ok.mp read
      obtain ⟨data, w₂, map, ok⟩ := bind_eq_ok_iff.mp ok
      obtain ⟨-, rfl⟩ := Script.known_eq_ok.mp map
      obtain ⟨hn, indexed⟩ := insertion_ok plain hosts known (ordinary name given) ok
      simp only [replay, given]
      refine ⟨indexed, fun field hf => ?_⟩
      rcases List.mem_append.mp hf with hf | hf
      · exact children field hf
      · rw [List.mem_singleton.mp hf]
        exact ⟨name, rfl, hn⟩
  | delete args =>
      obtain ⟨name, w₁, read, ok⟩ := bind_eq_ok_iff.mp ok
      obtain ⟨given, rfl⟩ := Script.known_eq_ok.mp read
      simp only [replay, given]
      exact ⟨erasure_ok plain hosts known children ok, children.erase name⟩

/-! ### Rejected edits -/

theorem rejected_add {args : Args} (hosts : r.Hosts c w)
    (given : args.requireText "entry_name" = .ok name)
    (rejected : ∀ data, dataOf args = .ok data →
      ∃ err w', insertion r c name data w = .error err w' ∧ r.Same c w w') :
    ∃ err w', (Edit.add args).act r c w = .error err w' ∧ r.Same c w w' := by
  cases map : dataOf args with
  | error err =>
      refine ⟨err, w, ?_, .refl hosts⟩
      rw [Edit.act, given, map]
      rfl
  | ok data =>
      rw [Edit.act_add r c given map]
      exact rejected data map

theorem rejected_act (hosts : r.Hosts c w) (known : value (r.own c) w = .ok own)
    (rejected : Rejected (indexOf own) edit) :
    ∃ err w', edit.act r c w = .error err w' ∧ r.Same c w w' := by
  obtain ⟨w₁, load⟩ : ∃ w₁, r.own c w = .ok own w₁ := by
    refine ⟨after (r.own c) w, ?_⟩
    rw [eq_result (r.own c) w, known, result]
  have same := ((own_leaves (fun _ => rfl)).of_ok hosts load).1
  cases rejected with
  | unnamed h => exact ⟨_, w, Edit.act_unnamed r c w h, .refl hosts⟩
  | @data args err h =>
      cases named : args.requireText "entry_name" with
      | error err' => exact ⟨err', w, Edit.act_unnamed r c w named, .refl hosts⟩
      | ok name => exact rejected_add hosts named fun data map => by cases h.symm.trans map
  | @invalid args name h bad =>
      refine rejected_add hosts h fun data _ => ?_
      rw [insertion, if_pos bad]
      exact ⟨_, w, rfl, .refl hosts⟩
  | @listed args name h there =>
      refine rejected_add hosts h fun data _ => ?_
      rw [insertion]
      split
      · exact ⟨_, w, rfl, .refl hosts⟩
      · rw [bind_of_ok load, if_pos there]
        exact ⟨_, w₁, rfl, same⟩
  | @unlisted args name h missing =>
      rw [Edit.act_delete r c h, erasure, bind_of_ok load, missing]
      exact ⟨_, w₁, rfl, same⟩

/-! ### Runs -/

theorem call_rejected (hosts : r.Hosts c w) (known : value (r.own c) w = .ok own)
    (call : Calls r c edit answer w w') (rejected : Rejected (indexOf own) edit) :
    (∃ err, answer = .error err) ∧ r.Same c w w' := by
  obtain ⟨w₁, inner, same, act, answered⟩ := call.acts hosts
  obtain ⟨err, w₂, act', same'⟩ := rejected_act same.hosts (same.own.trans known) rejected
  obtain ⟨rfl, rfl⟩ := error_eq_result.mp (act'.symm.trans act)
  cases answer with
  | ok outcome => cases (answered outcome).mp rfl
  | error err' => exact ⟨⟨err', rfl⟩, same.trans same'⟩

theorem call_ok (plain : IsName r.config.parameters.file) (hosts : r.Hosts c w)
    (known : value (r.own c) w = .ok own) (children : Children (indexOf own))
    (ordinary : edit.Ordinary) (call : Calls r c edit (.ok outcome) w w') :
    Indexed r c own (replay (indexOf own) (edit, .ok outcome)) w' ∧
      Children (replay (indexOf own) (edit, .ok outcome)) := by
  obtain ⟨w₁, inner, same, act, answered⟩ := call.acts hosts
  rw [(answered outcome).mp rfl] at act
  exact act_ok plain same.hosts (same.own.trans known) children ordinary act

/-- An edit that succeeds, not under `.` or `..`, or that the index of the collection rejects. -/
def Decided (r : Registry) (c : Entry) (w : World) (edit : Edit) (answer : Except Error Outcome) :
    Prop :=
  edit.Ordinary ∧ ((∃ outcome, answer = .ok outcome) ∨
    ∃ own, value (r.own c) w = .ok own ∧ Rejected (indexOf own) edit)

/-- Whether an edit of a run was successful. -/
def Succeeds (log : List (Edit × Except Error Outcome)) : Prop :=
  ∃ call ∈ log, ∃ outcome, call.2 = .ok outcome

/-- What a run of edits makes of the own parameters of a collection. -/
structure Follows (r : Registry) (c : Entry) (log : List (Edit × Except Error Outcome))
    (own : Params) (w : World) (own' : Params) (w' : World) : Prop where
  hosts : r.Hosts c w'
  known : value (r.own c) w' = .ok own'
  index : indexOf own' = log.foldl replay (indexOf own)
  others : ∀ key, key ≠ indexKey → Table.get? own' key = Table.get? own key
  stored : Succeeds log → ∃ rest dir, r.Stored c own' w'.disk rest dir
  still : ¬ Succeeds log → own' = own ∧ w'.disk = w.disk

section

variable {log : List (Edit × Except Error Outcome)} {own' : Params} {w₁ : World}

theorem succeeds_error {err : Error} : Succeeds ((edit, .error err) :: log) ↔ Succeeds log := by
  constructor
  · rintro ⟨call, h, outcome, ok⟩
    rcases List.mem_cons.mp h with rfl | h
    · cases ok
    · exact ⟨call, h, outcome, ok⟩
  · rintro ⟨call, h, outcome, ok⟩
    exact ⟨call, List.mem_cons_of_mem _ h, outcome, ok⟩

/-- After a success the parameters are stored, also if nothing succeeds later. -/
theorem Follows.of_ok
    (indexed : Indexed r c own (replay (indexOf own) (edit, .ok outcome)) w₁)
    (later : Follows r c log
      (Table.insert own indexKey (.obj (replay (indexOf own) (edit, .ok outcome)))) w₁ own' w') :
    Follows r c ((edit, .ok outcome) :: log) own w own' w' where
  hosts := later.hosts
  known := later.known
  index := by rw [later.index, indexOf_insert, List.foldl_cons]
  others key other := by
    rw [later.others key other, Table.get?_insert, if_neg (Ne.symm other)]
  stored _ := by
    by_cases again : Succeeds log
    · exact later.stored again
    · obtain ⟨same, disk⟩ := later.still again
      rw [same, disk]
      exact indexed.stored
  still failed := absurd ⟨_, List.mem_cons_self .., outcome, rfl⟩ failed

theorem Follows.of_error {err : Error} (same : r.Same c w w₁)
    (later : Follows r c log own w₁ own' w') :
    Follows r c ((edit, .error err) :: log) own w own' w' where
  hosts := later.hosts
  known := later.known
  index := by
    rw [later.index, List.foldl_cons]
    cases edit <;> rfl
  others := later.others
  stored := by
    rw [succeeds_error]
    exact later.stored
  still := by
    rw [succeeds_error, ← same.disk]
    exact later.still

theorem Follows.same (same : r.Same c w w₁) (later : Follows r c log own w₁ own' w') :
    Follows r c log own w own' w' :=
  { later with still := same.disk ▸ later.still }

end

theorem run_follows (plain : IsName r.config.parameters.file)
    {log : List (Edit × Except Error Outcome)} (run : Run r c (Decided r c) w log w')
    (hosts : r.Hosts c w) (known : value (r.own c) w = .ok own) (children : Children (indexOf own)) :
    ∃ own', Follows r c log own w own' w' := by
  induction run generalizing own with
  | done w =>
      refine ⟨own, hosts, known, rfl, fun _ _ => rfl, ?_, fun _ => ⟨rfl, rfl⟩⟩
      rintro ⟨_, h, -⟩
      cases h
  | edit call decided rest ih =>
      obtain ⟨ordinary, ⟨outcome, rfl⟩ | ⟨own₁, known₁, rejected⟩⟩ := decided
      · obtain ⟨indexed, children₁⟩ := call_ok plain hosts known children ordinary call
        obtain ⟨own', later⟩ := ih indexed.loaded.hosts indexed.loaded.value
          ((indexOf_insert own _).symm ▸ children₁)
        exact ⟨own', .of_ok indexed later⟩
      · cases known₁.symm.trans known
        obtain ⟨⟨err, rfl⟩, same⟩ := call_rejected hosts known call rejected
        obtain ⟨own', later⟩ := ih same.hosts (same.own.trans known) children
        exact ⟨own', .of_error same later⟩
  | refused call rest ih =>
      have same := (received_leaves (fun _ => rfl) _ _ _).of_error hosts call
      obtain ⟨own', later⟩ := ih same.hosts (same.own.trans known) children
      exact ⟨own', later.same same⟩

/-! ### The main statement -/

/-- The index of a collection follows its edits. Where a collection lists children and is edited by
calls that succeed, not adding `.` or `..`, or that its index rejects: its own parameters have the
index that the successful edits make of the first one, in the order of the edits, and all else as it
was; from the first success on they are stored in its document, and if this is read back as it was
written, any registry that has yet to load them finds them there; and an edit that the index rejects
is an error that leaves the disk and the own parameters alone. -/
theorem index_follows_edits {log : List (Edit × Except Error Outcome)}
    (plain : IsName r.config.parameters.file) (hosts : r.Hosts c w)
    (known : value (r.own c) w = .ok own) (children : Children (indexOf own))
    (run : Run r c (Decided r c) w log w') :
    ∃ own', value (r.own c) w' = .ok own' ∧
    indexOf own' = log.foldl replay (indexOf own) ∧
    (∀ key, key ≠ indexKey → Table.get? own' key = Table.get? own key) ∧
    (Succeeds log → ∃ rest dir, r.Stored c own' w'.disk rest dir ∧
      let format := DocumentFormat.ofPath (c.path.join r.config.parameters.file)
      let whole := documentOf r.config.parameters rest own'
      (format.read (format.write whole) = .ok whole → ∀ (r' : Registry) (e : Entry) (w'' : World),
        r'.config.parameters = r.config.parameters → e.path = c.path → w''.disk = w'.disk →
          (w''.cellsOf e).own = none → value (r'.own e) w'' = .ok own')) ∧
    ∀ edit answer w'', Calls r c edit answer w' w'' → Rejected (indexOf own') edit →
      (∃ err, answer = .error err) ∧ w''.disk = w'.disk ∧ value (r.own c) w'' = .ok own' := by
  obtain ⟨own', follows⟩ := run_follows plain run hosts known children
  refine ⟨own', follows.known, follows.index, follows.others, fun success => ?_, ?_⟩
  · obtain ⟨rest, dir, stored⟩ := follows.stored success
    exact ⟨rest, dir, stored, fun reads r' e w'' config place disk unknown =>
      stored.read plain hosts.normal reads config place disk unknown⟩
  · intro edit answer w'' call rejected
    obtain ⟨failed, same⟩ := call_rejected follows.hosts follows.known call rejected
    exact ⟨failed, same.disk, same.own.trans follows.known⟩

namespace Sample

/-- A world in which the disk is as after the child was added, and nothing has been read from it. -/
def reopened : World where
  disk := childAdded.disk
  cells := [{}]

theorem child_listed : ∃ err, Calls registry shelf (.add (given addEntry "x")) (.error err)
    childAdded childAdded := by
  have received : registry.received shelf "add_entry" [.str "x"] [] childAdded =
      .ok ⟨addEntry, given addEntry "x", childIndexed⟩ childAdded :=
    received_of_top rfl rfl rfl rfl rfl
  have act : (Edit.add (given addEntry "x")).act registry shelf childAdded =
      result (.error (.failed "'x' is already in collection 'shelf'")) childAdded := rfl
  exact ⟨_, .of_act received act⟩

theorem childIndexed_read : DocumentFormat.json.read (DocumentFormat.json.write (.obj childIndexed)) =
    .ok (.obj childIndexed) := by
  cbv

/-- The child is listed once it was added, the second time in vain, and is found when the collection
is opened anew. -/
theorem shelf_index_followed : ∃ err own,
    Run registry shelf (Decided registry shelf) (world [] [] [])
      [(.add (given addEntry "x"), .ok (.entry child)), (.add (given addEntry "x"), .error err)]
      childAdded ∧
    value (registry.own shelf) childAdded = .ok own ∧ indexOf own = [("x", .str "x")] ∧
    value (registry.own shelf) reopened = .ok own := by
  obtain ⟨err, again⟩ := child_listed
  have ordinary : (Edit.add (given addEntry "x")).Ordinary := by
    intro name named
    cases named
    decide
  have listed : Rejected (indexOf childIndexed) (.add (given addEntry "x")) := .listed rfl rfl
  have run : Run registry shelf (Decided registry shelf) (world [] [] [])
      [(.add (given addEntry "x"), .ok (.entry child)), (.add (given addEntry "x"), .error err)]
      childAdded :=
    .edit adds_child ⟨ordinary, .inl ⟨_, rfl⟩⟩ <|
      .edit again ⟨ordinary, .inr ⟨childIndexed, rfl, listed⟩⟩ (.done childAdded)
  obtain ⟨own, known, index, -, stored, -⟩ :=
    index_follows_edits isName_parameters hosts rfl (fun _ h => nomatch h) run
  obtain ⟨rest, dir, -, reads⟩ := stored ⟨_, List.mem_cons_self .., _, rfl⟩
  refine ⟨err, own, run, known, index, ?_⟩
  cases known
  have format : DocumentFormat.ofPath (shelf.path.join registry.config.parameters.file) = .json := rfl
  rw [format] at reads
  exact reads childIndexed_read registry shelf reopened rfl rfl rfl rfl

end Sample

end Collection
end Lineage
