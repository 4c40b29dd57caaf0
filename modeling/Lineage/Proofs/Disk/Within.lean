import Lineage.Proofs.Disk.Walk

/-!
Changes within a directory. What is made, written or removed at a name in a directory changes nothing
outside it, leaves a working directory that is no worse, and keeps the document of the directory.
-/
namespace Lineage.Disk

open Component (IsName)

variable {d d' d'' : Disk} {dir doc : Location} {p : Path} {name : String}

/-- A disk that has changed strictly below a directory only, where the working directory can have
been removed, and where a document is still a file. -/
structure Within (dir doc : Location) (d d' : Disk) : Prop where
  node : ∀ loc, ¬ Below dir loc → d'.node? loc = d.node? loc
  cwd : d'.cwd = d.cwd ∨ ∃ rest rest', rest ≠ [] ∧ rest'.length = rest.length ∧
    d.cwd = dir ++ rest ∧ d'.cwd = dir ++ rest'
  stays : d.node? d.cwd = some .dir → d'.node? d'.cwd = some .dir
  keeps : ∀ text, d.node? doc = some (.file text) → ∃ text', d'.node? doc = some (.file text')

namespace Within

theorem refl (dir doc : Location) (d : Disk) : Within dir doc d d :=
  ⟨fun _ _ => rfl, .inl rfl, fun h => h, fun text h => ⟨text, h⟩⟩

theorem trans (h : Within dir doc d d') (h' : Within dir doc d' d'') : Within dir doc d d'' where
  node loc hl := (h'.node loc hl).trans (h.node loc hl)
  cwd := by
    rcases h.cwd with same | ⟨rest, rest', ne, length, from_, to_⟩
    · rw [← same]
      exact h'.cwd
    · rcases h'.cwd with same | ⟨rest₁, rest₁', -, length₁, from₁, to₁⟩
      · exact .inr ⟨rest, rest', ne, length, from_, same.trans to_⟩
      · obtain rfl : rest' = rest₁ := List.append_cancel_left (to_.symm.trans from₁)
        exact .inr ⟨rest, rest₁', ne, length₁.trans length, from_, to₁⟩
  stays hd := h'.stays (h.stays hd)
  keeps text ht := by
    obtain ⟨text', ht'⟩ := h.keeps text ht
    exact h'.keeps text' ht'

/-- Changes within a directory inside another are within that. -/
theorem outward {name : String} {doc' : Location} (h : Within (dir ++ [name]) doc' d d')
    (outside : ¬ Below (dir ++ [name]) doc) : Within dir doc d d' where
  node loc hl := h.node loc fun below => hl below.of_snoc
  cwd := h.cwd.imp_right fun ⟨rest, rest', ne, length, from_, to_⟩ =>
    ⟨name :: rest, name :: rest', List.cons_ne_nil _ _, by simp [length], by simp [from_],
      by simp [to_]⟩
  stays := h.stays
  keeps text ht := ⟨text, (h.node doc outside).trans ht⟩

end Within

theorem not_below_sibling (dir : Location) (name other : String) :
    ¬ Below (dir ++ [name]) (dir ++ [other]) := by
  intro h
  have lt := h.length_lt
  simp at lt

/-! ### Single changes -/

theorem put_cwd (d : Disk) (loc : Location) (node : FileNode) : (d.put loc node).cwd = d.cwd := by
  rw [put]
  split <;> rfl

theorem within_put {node : FileNode} (ne : name ≠ "")
    (sits : node = .dir ∨ d.node? (dir ++ [name]) ≠ some .dir)
    (keeps : ∀ text, d.node? doc = some (.file text) → doc = dir ++ [name] →
      ∃ text', node = .file text') :
    Within dir doc d (d.put (dir ++ [name]) node) where
  node loc hl := by
    rw [node?_put (named_snoc dir ne), if_neg]
    rintro rfl
    exact hl (below_snoc dir name)
  cwd := .inl (put_cwd d _ _)
  stays hd := by
    rw [put_cwd, node?_put (named_snoc dir ne)]
    split
    · rename_i he
      rcases sits with rfl | sits
      · rfl
      · exact absurd (he ▸ hd) sits
    · exact hd
  keeps text ht := by
    rw [node?_put (named_snoc dir ne)]
    split
    · rename_i he
      obtain ⟨text', rfl⟩ := keeps text ht he
      exact ⟨text', rfl⟩
    · exact ⟨text, ht⟩

/-! ### The working directory -/

theorem cwdWithin_of_append {outer rest : Location} (h : outer ++ rest = d.cwd) :
    d.cwdWithin outer.length = outer ++ List.replicate rest.length "" := by
  rw [cwdWithin, ← h, List.take_left, List.length_append, Nat.add_sub_cancel_left]

/-- A working directory of which only the first names are left is gone, if it had more of them. -/
theorem node?_gone (d : Disk) (outer : Location) {n : Nat} (h : n ≠ 0) :
    d.node? (outer ++ List.replicate n "") = some .dir := by
  rw [node?, if_pos]
  obtain ⟨m, rfl⟩ := Nat.exists_eq_succ_of_ne_zero h
  rw [List.replicate_succ', ← List.append_assoc, isGone, List.getLast?_concat]
  exact .inr rfl

/-- Removing a name takes the working directory along, if that is there or below. -/
theorem remove_cwd (d : Disk) (dir : Location) (name : String) :
    (∃ rest, d.cwd = dir ++ name :: rest ∧
      (d.remove (dir ++ [name])).cwd = dir ++ List.replicate (rest.length + 1) "") ∨
    ¬ dir ++ [name] <+: d.cwd ∧ (d.remove (dir ++ [name])).cwd = d.cwd := by
  by_cases h : dir ++ [name] <+: d.cwd
  · obtain ⟨rest, hrest⟩ := h
    rw [List.append_assoc, List.singleton_append] at hrest
    refine .inl ⟨rest, hrest.symm, ?_⟩
    have inside : (dir ++ [name]).isPrefixOf d.cwd = true := by simp [← hrest]
    rw [remove, if_pos inside, List.length_append, List.length_singleton, Nat.add_sub_cancel,
      cwdWithin_of_append hrest, List.length_cons]
  · refine .inr ⟨h, ?_⟩
    rw [remove, if_neg (mt List.isPrefixOf_iff_prefix.mp h)]

theorem clear_cwd (d : Disk) (dir : Location) (name : String) :
    (∃ rest, d.cwd = dir ++ name :: rest ∧
      (d.clear (dir ++ [name])).cwd = dir ++ name :: List.replicate rest.length "") ∨
    ¬ dir ++ [name] <+: d.cwd ∧ (d.clear (dir ++ [name])).cwd = d.cwd := by
  by_cases h : dir ++ [name] <+: d.cwd
  · obtain ⟨rest, hrest⟩ := h
    have inside : (dir ++ [name]).isPrefixOf d.cwd = true := by
      simp [← hrest]
    refine .inl ⟨rest, by rw [← hrest, List.append_assoc, List.singleton_append], ?_⟩
    rw [clear, if_pos inside, cwdWithin_of_append hrest, List.append_assoc, List.singleton_append]
  · refine .inr ⟨h, ?_⟩
    rw [clear, if_neg (mt List.isPrefixOf_iff_prefix.mp h)]

/-! ### Removals -/

theorem within_remove (keeps : ∀ text, d.node? doc = some (.file text) → doc ≠ dir ++ [name]) :
    Within dir doc d (d.remove (dir ++ [name])) where
  node loc hl := by
    refine node?_remove ?_
    rintro rfl
    exact hl (below_snoc dir name)
  cwd := by
    rcases remove_cwd d dir name with ⟨rest, from_, to_⟩ | ⟨-, same⟩
    · exact .inr ⟨_, _, List.cons_ne_nil _ _, by simp, from_, to_⟩
    · exact .inl same
  stays hd := by
    rcases remove_cwd d dir name with ⟨rest, -, to_⟩ | ⟨away, same⟩
    · rw [to_]
      exact node?_gone _ _ (Nat.succ_ne_zero _)
    · rw [same, node?_remove, hd]
      intro he
      exact away (he ▸ List.prefix_rfl)
  keeps text ht := ⟨text, (node?_remove (keeps text ht)).trans ht⟩

theorem within_clear (outside : ¬ Below (dir ++ [name]) doc) :
    Within dir doc d (d.clear (dir ++ [name])) where
  node loc hl := node?_clear fun below => hl below.of_snoc
  cwd := by
    rcases clear_cwd d dir name with ⟨rest, from_, to_⟩ | ⟨-, same⟩
    · exact .inr ⟨_, _, List.cons_ne_nil _ _, by simp, from_, to_⟩
    · exact .inl same
  stays hd := by
    rcases clear_cwd d dir name with ⟨rest, from_, to_⟩ | ⟨away, same⟩
    · cases rest with
      | nil =>
          -- The working directory is what is cleared, and is itself left there.
          rw [to_, List.length_nil, List.replicate_zero, ← from_, node?_clear, hd]
          rw [from_]
          exact fun below => below.2 rfl
      | cons x rest =>
          have gone := node?_gone (d.clear (dir ++ [name])) (dir ++ [name])
            (show (x :: rest).length ≠ 0 by simp)
          rwa [List.append_assoc, List.singleton_append, ← to_] at gone
    · rw [same, node?_clear fun below => away below.1, hd]
  keeps text ht := ⟨text, (node?_clear outside).trans ht⟩

end Lineage.Disk
