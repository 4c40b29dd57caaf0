import Lineage.Proofs.Registry.Lookups

/-!
Lines of known parents. A walk along the ancestry of an entry leaves behind such a line, follows one
that is there without another look at the disk, and goes the same way from an entry further out.
-/
namespace Lineage

open World Action

namespace World

/-- The entries from one outwards, each the known parent of the one before it, up to one that is
known to have none. -/
inductive Line (w : World) : Entry → List Entry → Prop
  | last {e} (h : (w.cellsOf e).parent = some none) : Line w e [e]
  | next {e p chain} (h : (w.cellsOf e).parent = some (some p)) (tail : Line w p chain) :
      Line w e (e :: chain)

theorem Line.head {w : World} {e : Entry} {chain : List Entry} (h : w.Line e chain) :
    ∃ more, chain = e :: more := by
  cases h with
  | last _ => exact ⟨[], rfl⟩
  | next _ _ => exact ⟨_, rfl⟩

theorem Line.keep {w w' : World}
    (parent : ∀ e found, (w.cellsOf e).parent = some found → (w'.cellsOf e).parent = some found)
    {e : Entry} {chain : List Entry} (h : w.Line e chain) : w'.Line e chain := by
  induction h with
  | last h => exact .last (parent _ _ h)
  | next h _ ih => exact .next (parent _ _ h) ih

theorem Line.extends {γ : Type} {view : Cells → γ} {w w' : World} (hw : Extends view w w')
    {e : Entry} {chain : List Entry} (h : w.Line e chain) : w'.Line e chain :=
  h.keep fun x => (hw.kept x).parent

end World

namespace Registry

/-! ### Ways that visit no place twice -/

/-- No entry of `more` is at a place of `chain` or of an entry of `more` before it. -/
def Unvisited (chain more : List Entry) : Prop :=
  ∀ before p after, more = before ++ p :: after → hasBeenAt (chain ++ before) p = false

theorem unvisited_nil (chain : List Entry) : Unvisited chain [] := by
  intro before p after h
  simp at h

theorem unvisited_cons_iff {chain more : List Entry} {p : Entry} :
    Unvisited chain (p :: more) ↔ hasBeenAt chain p = false ∧ Unvisited (chain ++ [p]) more := by
  constructor
  · intro h
    refine ⟨by simpa using h [] p more rfl, fun before q after he => ?_⟩
    simpa using h (p :: before) q after (by rw [he]; rfl)
  · rintro ⟨hp, hmore⟩ before q after he
    cases before with
    | nil =>
        obtain ⟨rfl, -⟩ := List.cons.inj he
        simpa using hp
    | cons q' before =>
        obtain ⟨rfl, hm⟩ := List.cons.inj he
        simpa using hmore before q after hm

theorem hasBeenAt_append {front chain : List Entry} {p : Entry} :
    hasBeenAt (front ++ chain) p = (hasBeenAt front p || hasBeenAt chain p) := by
  simp [hasBeenAt, Path.isIn]

/-! ### Walks -/

theorem parent_of_known (r : Registry) {e : Entry} {found : Option Entry} {w : World}
    (h : (w.cellsOf e).parent = some found) : r.parent e w = .ok found w := by
  rw [parent_eq_once]
  exact once_of_known h _

theorem own_of_known (r : Registry) {e : Entry} {params : Params} {w : World}
    (h : (w.cellsOf e).own = some params) : r.own e w = .ok params w := by
  rw [own_eq_once]
  exact once_of_known h _

variable {r : Registry} {t t' : Trail} {w w₁ : World}

theorem above_of_top (h : r.parent t.last w = .ok none w₁) : r.above t w = .ok none w₁ := by
  rw [above, bind_of_ok h]
  rfl

theorem above_of_been {p : Entry} (h : r.parent t.last w = .ok (some p) w₁)
    (been : hasBeenAt t.chain p = true) : r.above t w = .error (cycle t.chain p) w₁ := by
  rw [above, bind_of_ok h]
  exact congrFun (if_pos been) w₁

theorem above_of_new {p : Entry} (h : r.parent t.last w = .ok (some p) w₁)
    (new : hasBeenAt t.chain p = false) :
    r.above t w = .ok (some ⟨t.chain ++ [p], p⟩) w₁ := by
  rw [above, bind_of_ok h]
  exact congrFun (if_neg (Bool.eq_false_iff.mp new)) w₁

/-- What there is above the last entry of a trail. -/
theorem above_cases (r : Registry) (t : Trail) (w : World) :
    (∃ e w₁, r.parent t.last w = .error e w₁ ∧ r.above t w = .error e w₁) ∨
    (∃ w₁, r.parent t.last w = .ok none w₁ ∧ r.above t w = .ok none w₁) ∨
    (∃ p w₁, r.parent t.last w = .ok (some p) w₁ ∧ hasBeenAt t.chain p = true ∧
      r.above t w = .error (cycle t.chain p) w₁) ∨
    ∃ p w₁, r.parent t.last w = .ok (some p) w₁ ∧ hasBeenAt t.chain p = false ∧
      r.above t w = .ok (some ⟨t.chain ++ [p], p⟩) w₁ := by
  cases h : r.parent t.last w with
  | error e w₁ => exact .inl ⟨e, w₁, rfl, bind_of_error h _⟩
  | ok found w₁ =>
      cases found with
      | none => exact .inr (.inl ⟨w₁, rfl, above_of_top h⟩)
      | some p =>
          cases been : hasBeenAt t.chain p with
          | true => exact .inr (.inr (.inl ⟨p, w₁, rfl, been, above_of_been h been⟩))
          | false => exact .inr (.inr (.inr ⟨p, w₁, rfl, been, above_of_new h been⟩))

/-- A round for the ancestry answers at an entry without a parent, and else goes on. -/
theorem ancestryRound_apply (r : Registry) (t : Trail) (w : World) :
    r.ancestryRound t w = match r.above t w with
      | .ok (some t') w₁ => .ok (.inl t') w₁
      | .ok none w₁ => .ok (.inr t.chain) w₁
      | .error e w₁ => .error e w₁ := by
  rw [ancestryRound, bind_apply]
  cases r.above t w with
  | error e w₁ => rfl
  | ok next w₁ => cases next <;> rfl

theorem walk_of_top (h : r.parent t.last w = .ok none w₁) :
    r.ancestryRound.run t w = some (.ok t.chain w₁) :=
  run_of_inr (by rw [ancestryRound_apply, above_of_top h])

theorem walk_of_been {p : Entry} (h : r.parent t.last w = .ok (some p) w₁)
    (been : hasBeenAt t.chain p = true) :
    r.ancestryRound.run t w = some (.error (cycle t.chain p) w₁) :=
  run_of_error (by rw [ancestryRound_apply, above_of_been h been])

theorem walk_of_new {p : Entry} (h : r.parent t.last w = .ok (some p) w₁)
    (new : hasBeenAt t.chain p = false) :
    r.ancestryRound.run t w = r.ancestryRound.run ⟨t.chain ++ [p], p⟩ w₁ :=
  run_of_inl (by rw [ancestryRound_apply, above_of_new h new])

/-- What a walk that goes on from a chain along a line comes to. -/
def follow : List Entry → List Entry → Except Error (List Entry)
  | chain, [] => .ok chain
  | chain, p :: more =>
    if hasBeenAt chain p then .error (cycle chain p) else follow (chain ++ [p]) more

theorem follow_eq_ok_iff {chain more whole : List Entry} :
    follow chain more = .ok whole ↔ whole = chain ++ more ∧ Unvisited chain more := by
  induction more generalizing chain with
  | nil => simp [follow, unvisited_nil, eq_comm]
  | cons p more ih =>
      rw [follow, unvisited_cons_iff]
      cases hp : hasBeenAt chain p with
      | true => simp
      | false => simp [ih]

/-- Along a line of known parents a walk changes nothing. -/
theorem walk_of_line (r : Registry) {last : Entry} {line : List Entry} (h : w.Line last line)
    (chain : List Entry) :
    r.ancestryRound.run ⟨chain, last⟩ w = some (result (follow chain line.tail) w) := by
  induction h generalizing chain with
  | last top => exact walk_of_top (parent_of_known r top)
  | @next e p line up tail ih =>
      obtain ⟨more, rfl⟩ := tail.head
      have parent := parent_of_known r up
      rw [List.tail_cons, follow]
      cases hp : hasBeenAt chain p with
      | true => exact walk_of_been (t := ⟨chain, e⟩) parent hp
      | false => exact (walk_of_new (t := ⟨chain, e⟩) parent hp).trans (ih _)

/-- A walk that comes to an end leaves a line behind. -/
theorem line_of_walk {out : EStateM.Result Error World (List Entry)}
    (h : r.ancestryRound.run t w = some out) : w.Sound → w.Holds t.last → ∀ whole w',
      out = .ok whole w' → Extends Cells.nothing w w' ∧
        ∃ more, w'.Line t.last (t.last :: more) ∧ follow t.chain more = .ok whole := by
  refine run_induct (motive := fun t w out => w.Sound → w.Holds t.last → ∀ whole w',
    out = .ok whole w' → Extends Cells.nothing w w' ∧
      ∃ more, w'.Line t.last (t.last :: more) ∧ follow t.chain more = .ok whole) (fun t w => ?_) h
  rw [ancestryRound_apply]
  obtain ⟨e, w₁, -, h⟩ | ⟨w₁, hp, h⟩ | ⟨p, w₁, -, -, h⟩ | ⟨p, w₁, hp, new, h⟩ :=
    above_cases r t w <;> rw [h] <;> dsimp only
  · intro _ _ _ _ ho
    cases ho
  · intro hw held whole w' ho
    cases ho
    obtain ⟨hr, -, -, known⟩ := (parent_along r t.last).of_ok hw trivial hp
    exact ⟨hr, [], .last (known (hr.grows.holds held)), rfl⟩
  · intro _ _ _ _ ho
    cases ho
  · intro out ih hw held whole w' ho
    obtain ⟨hr, hw₁, hheld, known⟩ := (parent_along r t.last).of_ok hw trivial hp
    obtain ⟨hr', more, line, hfollow⟩ := ih hw₁ (hheld p rfl) whole w' ho
    refine ⟨(extends_course _).trans hr hr', p :: more, .next ?_ line, ?_⟩
    · exact (hr'.kept t.last).parent _ (known (hr.grows.holds held))
    · rw [follow, if_neg (Bool.eq_false_iff.mp new)]
      exact hfollow

theorem walk_of_ancestry {e : Entry} {chain : List Entry} {w' : World}
    (h : r.ancestry e w = .ok chain w') :
    r.ancestryRound.run ⟨[e], e⟩ w = some (.ok chain w') := by
  have final : (.ok chain : Except Error (List Entry)) ≠ .error .unbounded := nofun
  exact some_of_loop (show r.ancestry e w = result (.ok chain) w' from h) final

/-- The ancestry of an entry, once it is resolved, is there to be read. -/
theorem line_of_ancestry (r : Registry) {e : Entry} {chain : List Entry} {w w' : World}
    (hw : w.Sound) (held : w.Holds e) (h : r.ancestry e w = .ok chain w') :
    w'.Line e chain ∧ heldAll chain w' ∧ Extends Cells.nothing w w' ∧ w'.Sound ∧
      Unvisited [e] chain.tail := by
  obtain ⟨hr, hs, hheld⟩ := (ancestry_along r e).of_ok hw held h
  obtain ⟨-, more, hline, hfollow⟩ := line_of_walk (walk_of_ancestry h) hw held _ _ rfl
  obtain ⟨rfl, unvisited⟩ := follow_eq_ok_iff.mp hfollow
  exact ⟨hline, hheld, hr, hs, unvisited⟩

theorem ancestry_of_line (r : Registry) {e : Entry} {chain : List Entry} {w : World}
    (h : w.Line e chain) : r.ancestry e w = result (follow [e] chain.tail) w :=
  loop_of_some (walk_of_line r h [e])

/-- A walk that has come to an end comes to the same end when it is made again. -/
theorem ancestry_again (r : Registry) {e : Entry} {chain : List Entry} {w w' w'' : World}
    (hw : w.Sound) (held : w.Holds e) (h : r.ancestry e w = .ok chain w')
    (hext : Extends Cells.nothing w' w'') : r.ancestry e w'' = .ok chain w'' := by
  obtain ⟨hline, -, -, -, unvisited⟩ := line_of_ancestry r hw held h
  have hline := hline.extends hext
  obtain ⟨more, rfl⟩ := hline.head
  rw [ancestry_of_line r hline, follow_eq_ok_iff.mpr ⟨rfl, unvisited⟩]
  rfl

/-- What comes of a walk along a chain comes of one along the later part of it. -/
theorem walk_drop {front chain rest : List Entry} {last : Entry} {w w' : World}
    (h : r.ancestryRound.run ⟨front ++ chain, last⟩ w = some (.ok (front ++ rest) w')) :
    r.ancestryRound.run ⟨chain, last⟩ w = some (.ok rest w') := by
  refine run_induct (motive := fun t w out => ∀ chain, t.chain = front ++ chain →
    out = .ok (front ++ rest) w' →
    r.ancestryRound.run ⟨chain, t.last⟩ w = some (.ok rest w')) (fun t w => ?_) h chain rfl rfl
  rw [ancestryRound_apply]
  obtain ⟨e, w₁, -, h⟩ | ⟨w₁, hp, h⟩ | ⟨p, w₁, -, -, h⟩ | ⟨p, w₁, hp, new, h⟩ :=
    above_cases r t w <;> rw [h] <;> dsimp only
  · intro _ _ ho
    cases ho
  · intro chain hc ho
    rw [hc] at ho
    injection ho with ho hw
    cases List.append_cancel_left ho
    cases hw
    exact walk_of_top (t := ⟨_, t.last⟩) hp
  · intro _ _ ho
    cases ho
  · intro out ih chain hc ho
    rw [hc, hasBeenAt_append, Bool.or_eq_false_iff] at new
    refine (walk_of_new (t := ⟨chain, t.last⟩) hp new.2).trans (ih _ ?_ ho)
    rw [hc, List.append_assoc]

/-- The ancestry of an entry is the entry and the ancestry of its parent. -/
theorem ancestry_of_parent (r : Registry) {e p : Entry} {chain : List Entry} {w w₁ w' : World}
    (hw : w.Sound) (held : w.Holds e) (hp : r.parent e w = .ok (some p) w₁)
    (h : r.ancestry e w = .ok chain w') :
    ∃ rest, chain = e :: rest ∧ r.ancestry p w₁ = .ok rest w' := by
  obtain ⟨rest, rfl⟩ := (line_of_ancestry r hw held h).1.head
  refine ⟨rest, rfl, loop_of_some ?_⟩
  have walk := walk_of_ancestry h
  cases been : hasBeenAt [e] p with
  | true => cases (walk_of_been (t := ⟨[e], e⟩) hp been).symm.trans walk
  | false =>
      rw [walk_of_new (t := ⟨[e], e⟩) hp been] at walk
      exact walk_drop walk

end Registry
end Lineage
