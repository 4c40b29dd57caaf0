import Mathlib.Data.Prod.Lex
import Mathlib.Order.WellFounded
import Lineage.Proofs.Disk.Spots
import Lineage.Proofs.Loop
import Lineage.Proofs.Registry.Faults
import Lineage.Proofs.Registry.Since

/-!
Every search ends. Where the parameters of an entry are a file in its directory, finitely many
places can have them, and a collection that is made on the way to any other place leads nowhere. So
however collections refer to each other, a search visits finitely many that lead on.
-/
namespace Lineage

open World Action
open Component (IsName)
open Loop (Finishes ends_of_rank turnOf run_eq_some_iff)

/-- An action comes to a value or an error in a world, and is not given up as one without end. -/
def Action.Answers {α : Type} (act : Action α) (w : World) : Prop :=
  ∀ w', act w ≠ .error .unbounded w'

namespace Action

variable {α β : Type} {w : World}

theorem Fails.answers {act : Action α} (h : Fails (· ≠ .unbounded) act) (w : World) :
    Answers act w :=
  fun w' he => h w _ w' he rfl

theorem Answers.bind {act : Action α} {next : α → Action β} (h : Answers act w)
    (hn : ∀ a w₁, act w = .ok a w₁ → Answers (next a) w₁) : Answers (act >>= next) w := by
  intro w' he
  rcases bind_eq_error_iff.mp he with he | ⟨a, w₁, ha, he⟩
  · exact h w' he
  · exact hn a w₁ ha w' he

end Action

theorem faulty_answers : Error.Faulty (· ≠ .unbounded) :=
  ⟨fun _ _ => Error.noConfusion, fun _ _ => Error.noConfusion⟩

namespace Registry

/-! ### The steps of a search -/

/-- A search between two steps. -/
structure Seeking where
  leads : List Lead
  visited : List Path
  world : World

/-- A search goes on by following its first lead. -/
def seek (r : Registry) (name : String) (s : Seeking) :
    Seeking ⊕ EStateM.Result Error World Finding :=
  match s.leads with
  | [] => .inr (.ok (none, s.visited) s.world)
  | lead :: rest =>
    match r.pursue name lead rest s.visited s.world with
    | .error e w => .inr (.error e w)
    | .ok (.found e visited) w => .inr (.ok (some e, visited) w)
    | .ok (.going leads visited) w => .inl ⟨leads, visited, w⟩

variable {r : Registry} {name : String} {w₀ w w' : World} {e : Entry}

/-- A step of a search is a round of its loop. -/
theorem seek_eq_round (r : Registry) (name : String) (s : List Lead × List Path) (w : World) :
    r.seek name ⟨s.1, s.2, w⟩ =
      turnOf (fun s w => ⟨s.1, s.2, w⟩) (r.searchRound name s w) := by
  obtain ⟨leads, visited⟩ := s
  cases leads with
  | nil => rfl
  | cons lead rest =>
      rw [seek, searchRound_cons]
      dsimp only
      cases r.pursue name lead rest visited w with
      | error e w => rfl
      | ok next w => cases next <;> rfl

theorem search_of_ends {s : Seeking} {states : List Seeking}
    {answer : EStateM.Result Error World Finding} (h : Finishes (r.seek name) s states answer) :
    r.search name s.leads s.visited s.world = answer := by
  rw [search_eq_loop]
  exact loop_of_some ((run_eq_some_iff (seek_eq_round r name)).mpr ⟨states, h⟩)

/-! ### The end of a search -/

/-- How many paths of a cover are yet to be visited. -/
def unseen (cover visited : List Path) : Nat := (cover.filter fun p => !p.isIn visited).length

theorem isIn_snoc (p q : Path) (visited : List Path) :
    p.isIn (visited ++ [q]) = (p.isIn visited || p.same q) := by
  simp [Path.isIn]

theorem unseen_snoc (cover visited : List Path) (q : Path) : unseen cover (visited ++ [q]) =
    ((cover.filter fun p => !p.isIn visited).filter fun p => !p.same q).length := by
  rw [unseen, List.filter_filter]
  congr 2
  funext p
  rw [isIn_snoc, Bool.not_or, Bool.and_comm]

theorem unseen_snoc_le (cover visited : List Path) (q : Path) :
    unseen cover (visited ++ [q]) ≤ unseen cover visited := by
  rw [unseen_snoc, unseen]
  exact List.length_filter_le _ _

theorem unseen_snoc_lt {cover visited : List Path} {q : Path} (mem : q ∈ cover)
    (new : q.isIn visited = false) : unseen cover (visited ++ [q]) < unseen cover visited := by
  rw [unseen_snoc, unseen]
  refine List.length_filter_lt_length_iff_exists.mpr ⟨q, ?_, ?_⟩
  · exact List.mem_filter.mpr ⟨mem, by simp [new]⟩
  · simp [Path.same]

/-- Places one after the other, none of them twice or among those seen before. -/
def Once (seen places : List Path) : Prop :=
  (places.map Path.components).Nodup ∧ ∀ p ∈ places, p.isIn seen = false

theorem Once.snoc {seen places : List Path} {p : Path} (h : Once seen places)
    (new : p.isIn (seen ++ places) = false) : Once seen (places ++ [p]) := by
  have new : p.isIn seen = false ∧ p.isIn places = false := by
    simpa [Path.isIn] using new
  refine ⟨?_, ?_⟩
  · rw [List.map_append, List.map_singleton]
    refine h.1.append (List.nodup_singleton _) (List.disjoint_singleton.mpr fun mem => ?_)
    obtain ⟨q, hq, same⟩ := List.mem_map.mp mem
    exact List.any_eq_false.mp new.2 q hq (by simp [Path.same, same])
  · intro q hq
    rcases List.mem_append.mp hq with hq | hq
    · exact h.2 q hq
    · rw [List.mem_singleton.mp hq]
      exact new.1

/-- Paths that take in everyone listed in a world, and every place with a document. -/
structure Covers (r : Registry) (w₀ : World) (cover : List Path) : Prop where
  listed : ∀ e, w₀.Listed e → e.path ∈ cover
  documented : ∀ p, w₀.disk.Documented r.config.parameters.file p → p ∈ cover

theorem exists_cover (hn : IsName r.config.parameters.file) (w₀ : World) (starts : List Path) :
    ∃ cover, r.Covers w₀ cover ∧ starts ⊆ cover := by
  obtain ⟨documented, h⟩ := Disk.documented_cover hn w₀.disk
  refine ⟨starts ++ (w₀.byPath.map fun f => f.2.path) ++ (w₀.byName.map fun f => f.2.path) ++
    documented, ⟨?_, fun p hp => List.mem_append_right _ (h p hp)⟩, fun p hp => by simp [hp]⟩
  rintro e (⟨key, he⟩ | ⟨key, he⟩)
  · have mem : e.path ∈ w₀.byPath.map fun f => f.2.path :=
      List.mem_map.mpr ⟨_, Table.mem_of_get? he, rfl⟩
    simp [mem]
  · have mem : e.path ∈ w₀.byName.map fun f => f.2.path :=
      List.mem_map.mpr ⟨_, Table.mem_of_get? he, rfl⟩
    simp [mem]

/-- A search on its way from a world, after some places were visited before: whom it goes on from, and
where it has been. -/
structure Sought (r : Registry) (w₀ : World) (cover before : List Path) (s : Seeking) : Prop where
  since : r.Since w₀ s.world
  met : ∀ lead ∈ s.leads, Met w₀ s.world lead.start
  covered : ∀ lead ∈ s.leads, w₀.Holds lead.start → lead.start.path ∈ cover
  visited : ∃ places, s.visited = before ++ places ∧ Once before places

/-- A search that goes on has fewer paths of the cover to visit, or else fewer leads to follow. -/
def Seeking.rank (cover : List Path) (s : Seeking) : ℕ ×ₗ ℕ :=
  toLex (unseen cover s.visited, s.leads.length)

theorem seek_eq_inl {s t : Seeking} (h : r.seek name s = .inl t) : ∃ lead rest,
    s.leads = lead :: rest ∧
      r.pursue name lead rest s.visited s.world = .ok (.going t.leads t.visited) t.world := by
  rw [seek] at h
  split at h
  · cases h
  · rename_i lead rest hl
    split at h <;> cases h
    exact ⟨lead, rest, hl, ‹_›⟩

/-- A collection off the cover has no document and is new, so that it leads nowhere. -/
theorem Covers.leads_nowhere {cover : List Path} {c : Entry} (covers : r.Covers w₀ cover)
    (h : r.Since w₀ w) (met : Met w₀ w c) (old : w₀.Holds c → c.path ∈ cover)
    (off : c.path ∉ cover) : ¬ w₀.Holds c ∧ c.Bare r.config.parameters w₀.disk := by
  have new : ¬ w₀.Holds c := fun held => off (old held)
  have normal := h.normal c (h.known met new) new
  exact ⟨new, Bool.eq_false_iff.mpr fun there => off (covers.documented _ ⟨normal, there⟩)⟩

theorem sought_seek {cover before : List Path} (covers : r.Covers w₀ cover) {s t : Seeking}
    (hs : r.Sought w₀ cover before s) (step : r.seek name s = .inl t) :
    r.Sought w₀ cover before t ∧ t.rank cover < s.rank cover := by
  obtain ⟨lead, rest, hl, pursued⟩ := seek_eq_inl step
  obtain ⟨since, met, covered, places, hplaces, once⟩ := hs
  obtain ⟨leads, visited, w⟩ := s
  obtain ⟨leads', visited', w'⟩ := t
  dsimp only at hl pursued since met covered hplaces
  subst hl
  obtain ⟨first, others⟩ := List.forall_mem_cons.mp covered
  have hr := ((pursue_along r name lead rest visited).of_ok since.sound trivial pursued).1.1.recalls
  obtain ⟨since', outcome⟩ := pursue_since since (met lead List.mem_cons_self) pursued
  have met' := outcome.met since' fun l hl => (met l hl).recalls hr
  cases outcome with
  | passed =>
      refine ⟨⟨since', met', others, places, hplaces, once⟩, ?_⟩
      exact Prod.Lex.toLex_lt_toLex.mpr (.inr ⟨rfl, Nat.lt_succ_self _⟩)
  | @onward c params comes new blank =>
      have old : w₀.Holds c → c.path ∈ cover := by
        intro held
        rcases comes with rfl | listed
        · exact first held
        · exact covers.listed c (since'.old c listed held)
      have metc : Met w₀ w' c := by
        rcases comes with rfl | listed
        · exact (met lead List.mem_cons_self).recalls hr
        · exact since'.listed c listed
      subst hplaces
      refine ⟨⟨since', met', ?_, places ++ [c.path], List.append_assoc .., once.snoc new⟩, ?_⟩
      · intro l hl
        rcases List.mem_append.mp hl with hl | hl
        · obtain ⟨item, -, rfl⟩ := List.mem_map.mp hl
          exact old
        · exact others l hl
      · by_cases mem : c.path ∈ cover
        · exact Prod.Lex.toLex_lt_toLex.mpr (.inl (unseen_snoc_lt mem new))
        · obtain ⟨newcomer, bare⟩ := covers.leads_nowhere since' metc old mem
          rw [blank newcomer bare]
          have le := unseen_snoc_le cover (before ++ places) c.path
          exact Prod.Lex.toLex_lt_toLex.mpr (le.lt_or_eq.imp id fun same => ⟨same, Nat.lt_succ_self _⟩)

/-- A search ends, and visits no place twice. -/
theorem search_ends (sound : w.Sound) (parameters : IsName r.config.parameters.file) (name : String)
    {leads : List Lead} (held : ∀ lead ∈ leads, w.Holds lead.start) (visited : List Path) :
    (r.search name leads visited).Answers w ∧
    ∃ states, Finishes (r.seek name) ⟨leads, visited, w⟩ states (r.search name leads visited w) ∧
      ∀ s ∈ states, ∃ places, s.visited = visited ++ places ∧ Once visited places := by
  obtain ⟨cover, covers, starts⟩ :=
    exists_cover parameters w (leads.map fun lead => lead.start.path)
  have keeps : Loop.Preserves (r.seek name) (r.Sought w cover visited) :=
    fun s t hs step => (sought_seek covers hs step).1
  have start : r.Sought w cover visited ⟨leads, visited, w⟩ :=
    ⟨.refl sound, fun lead hlead => .inl (held lead hlead),
      fun lead hlead _ => starts (List.mem_map_of_mem hlead),
      [], (List.append_nil _).symm, List.nodup_nil, fun p hp => nomatch hp⟩
  obtain ⟨states, answer, ends⟩ := ends_of_rank (Seeking.rank cover) keeps
    (fun s t hs step => (sought_seek covers hs step).2) start
  obtain rfl : r.search name leads visited w = answer := search_of_ends ends
  refine ⟨fun w' he => ?_, states, ends, fun s hs => (ends.all keeps start s hs).visited⟩
  obtain ⟨s, -, last⟩ := ends.answers
  rw [he, seek] at last
  split at last
  · cases last
  · rename_i lead rest _
    split at last <;> cases last
    exact pursue_fails faulty_answers r name lead rest s.visited _ _ _ ‹_› rfl

/-! ### Lookups by name and parents -/

theorem byName_answers (sound : w.Sound) (roots : ∀ root ∈ r.roots, w.Holds root)
    (parameters : IsName r.config.parameters.file) (name : String) : (r.byName name).Answers w := by
  intro w' he
  cases hn : Table.get? w.byName name with
  | some e =>
      rw [byName_of_cached hn] at he
      cases he
  | none =>
      rw [byName_of_unknown hn] at he
      split at he <;> cases he
      exact (search_ends sound parameters name (List.forall_mem_map.mpr roots) []).1 _ ‹_›

theorem parent_answers (sound : w.Sound) (roots : ∀ root ∈ r.roots, w.Holds root)
    (parameters : IsName r.config.parameters.file) (e : Entry) : (r.parent e).Answers w := by
  have finds : (r.findParent e).Answers w := by
    refine .bind ((metadataValue_fails faulty_answers r e _).answers w) fun value w₁ hv => ?_
    obtain ⟨hr, sound₁, -⟩ := (metadataValue_along r e _).of_ok sound trivial hv
    split
    · exact (Fails.pure _).answers w₁
    · exact (Fails.pure _).answers w₁
    · rw [parentNamed]
      split
      · exact (Fails.pure _).answers w₁
      · split
        · exact ((byPath_fails _).bind fun _ => .pure _).answers w₁
        · exact byName_answers sound₁ (fun root h => hr.grows.holds (roots root h)) parameters _
    · exact (Fails.throw Error.noConfusion).answers w₁
  intro w' he
  rw [parent_eq_once] at he
  cases hk : Cells.Part.parent.known (w.cellsOf e) with
  | some found => rw [once_of_known hk] at he; cases he
  | none =>
      rw [once_of_unknown hk] at he
      split at he <;> cases he
      exact finds _ ‹_›

end Registry
end Lineage
