import Lineage.Proofs.Disk.Directory
import Lineage.Proofs.Table

/-!
Documents of a directory. One is stored by way of a name beside its own, and what is stored is what
the document is found to hold.
-/
namespace Lineage.Disk

open Component (IsName)

variable {d d' : Disk} {dir doc : Location} {p : Path} {name file : String} {value : Json}

/-- The disk that an action leaves, whether or not it was refused. -/
def left {ε α : Type} (act : EStateM ε Disk α) (d : Disk) : Disk :=
  match act d with
  | .ok _ d' => d'
  | .error _ d' => d'

/-! ### Steps on a disk -/

section

variable {ε α β : Type}

theorem disk_bind_apply (act : EStateM ε Disk α) (next : α → EStateM ε Disk β) (d : Disk) :
    (act >>= next) d = match act d with
      | .ok a d₁ => next a d₁
      | .error e d₁ => .error e d₁ := by
  change EStateM.bind act next d = _
  rw [EStateM.bind]
  cases act d <;> rfl

theorem left_bind (act : EStateM ε Disk α) (next : α → EStateM ε Disk β) (d : Disk) :
    left (act >>= next) d = match act d with
      | .ok a d₁ => left (next a) d₁
      | .error _ d₁ => d₁ := by
  rw [left, disk_bind_apply]
  cases act d <;> rfl

theorem left_of_ok {act : EStateM ε Disk α} {a : α} (h : act d = .ok a d') : left act d = d' := by
  rw [left, h]

end

/-! ### Making and removing at a name -/

theorem makeDirs_within (normal : p.normalize = p) (hn : IsName name) (h : d.Leads p dir) :
    Within dir doc d (left (makeDirs (p.join name)) d) := by
  rcases makeDirs_join normal hn h with ⟨e, made⟩ | ⟨-, ⟨-, made⟩ | ⟨free, made⟩⟩ <;> rw [left, made]
  · exact .refl dir doc d
  · exact .refl dir doc d
  · refine within_put (ne_empty hn) (.inl rfl) fun text ht he => ?_
    rw [he, free] at ht
    cases ht

/-- A name that was made is a directory to which the path joined to it leads. -/
theorem makeDirs_leads (normal : p.normalize = p) (hn : IsName name) (h : d.Leads p dir)
    (made : makeDirs (p.join name) d = .ok () d') : d'.Leads (p.join name) (dir ++ [name]) := by
  have within : Within dir dir d (left (makeDirs (p.join name)) d) := makeDirs_within normal hn h
  rw [left_of_ok made] at within
  have leads := h.within normal within
  rcases makeDirs_join normal hn h with ⟨e, made'⟩ | ⟨check, ⟨there, made'⟩ | ⟨-, made'⟩⟩
  · cases made'.symm.trans made
  · cases made'.symm.trans made
    exact leads.join normal hn check there
  · cases made'.symm.trans made
    refine leads.join normal hn check ?_
    rw [node?_put (named_snoc dir (ne_empty hn)), if_pos rfl]

theorem removeDirs_within (normal : p.normalize = p) (hn : IsName name) (h : d.Leads p dir) :
    Within dir (dir ++ [file]) d (left (removeDirs (p.join name)) d) := by
  rcases removeDirs_join normal hn h with ⟨e, removed⟩ | ⟨there, removed⟩ <;> rw [left, removed]
  · exact .refl dir _ d
  · have outside : ¬ Below (dir ++ [name]) (dir ++ [file]) := not_below_sibling dir name file
    refine (within_clear outside).trans (within_remove fun text ht he => ?_)
    rw [node?_clear outside, he, there] at ht
    cases ht

theorem removeDirs_keeps (normal : p.normalize = p) (hn : IsName name) (h : d.Leads p dir)
    {text : String} (there : d.node? (dir ++ [file]) = some (.file text))
    (removed : removeDirs (p.join name) d = .ok () d') :
    d'.node? (dir ++ [file]) = some (.file text) := by
  rcases removeDirs_join normal hn h with ⟨e, removed'⟩ | ⟨isDir, removed'⟩
  · cases removed'.symm.trans removed
  · cases removed'.symm.trans removed
    have other : dir ++ [file] ≠ dir ++ [name] := by
      intro he
      rw [he, isDir] at there
      cases there
    rw [node?_remove other, node?_clear (not_below_sibling dir name file), there]

/-! ### Writing and moving files -/

theorem write_join_ok (normal : p.normalize = p) (hn : IsName name) {text : String}
    (h : d.write (p.join name) text = .ok d') :
    ∃ dir, d.Leads p dir ∧ d.node? (dir ++ [name]) ≠ some .dir ∧
      d' = d.put (dir ++ [name]) (.file text) := by
  rw [write] at h
  obtain ⟨t, target, h⟩ := bind_eq_ok.mp h
  split at h
  · cases h
  · obtain ⟨_, check, h⟩ := bind_eq_ok.mp h
    obtain ⟨leads, -, ht⟩ := leads_of_target normal hn target check
    rw [ht] at h
    refine ⟨t.dir, leads, ?_⟩
    rw [Target.location] at h
    split at h
    · cases h
    · rename_i free
      exact ⟨fun he => free he, (Except.ok.inj h).symm⟩

theorem moveFile_join_ok {old : String} (normal : p.normalize = p) (ho : IsName old)
    (hn : IsName name) (h : d.moveFile (p.join old) (p.join name) = .ok d') :
    ∃ dir text, d.Leads p dir ∧ checkText (p.join name) = .ok () ∧ checkName dir name = .ok () ∧
      d.node? (dir ++ [old]) = some (.file text) ∧ d.node? (dir ++ [name]) ≠ some .dir ∧
        d' = (d.remove (dir ++ [old])).put (dir ++ [name]) (.file text) := by
  rw [moveFile] at h
  obtain ⟨s, source, h⟩ := bind_eq_ok.mp h
  obtain ⟨t, target, h⟩ := bind_eq_ok.mp h
  split at h
  · cases h
  · obtain ⟨_, check, h⟩ := bind_eq_ok.mp h
    obtain ⟨leads, -, hs⟩ := leads_of_target normal ho source check
    rw [hs] at h
    split at h
    · cases h
    · cases h
    · rename_i text there
      obtain ⟨_, check', h⟩ := bind_eq_ok.mp h
      obtain ⟨leads', spelled, ht⟩ := leads_of_target normal hn target check'
      have same := leads.unique leads'
      rw [Target.checkName, ht, ← same] at check'
      rw [ht, ← same] at h
      refine ⟨s.dir, text, leads, spelled, check', there, ?_⟩
      simp only [Bool.or_self, Bool.false_eq_true, if_false, Target.location] at h
      split at h
      · cases h
      · rename_i free
        exact ⟨fun he => free he, (Except.ok.inj h).symm⟩

/-! ### Storing a document -/

theorem isName_temporary (hf : IsName file) : IsName (file ++ ".tmp") := by
  have long : 4 ≤ (file ++ ".tmp").length := by
    rw [String.length_append]
    exact Nat.le_add_left 4 _
  have ne {s : String} (short : s.length < 4) : file ++ ".tmp" ≠ s := by
    rintro rfl
    omega
  refine ⟨?_, ne (by decide), ?_⟩
  · have empty := ne (s := "") (by decide)
    have here := ne (s := ".") (by decide)
    simp only [trivialSegment, beq_eq_false_iff_ne.mpr empty, beq_eq_false_iff_ne.mpr here,
      Bool.or_self]
  · simp [String.toList_append, hf.whole]

theorem temporary_join (p : Path) (hf : IsName file) :
    temporary (p.join file) = p.join (file ++ ".tmp") := by
  rw [temporary, Path.join, Path.join, Path.isAbsolute_of_whole hf.whole,
    Path.isAbsolute_of_whole (isName_temporary hf).whole, if_neg Bool.false_ne_true,
    if_neg Bool.false_ne_true]
  split <;> simp only [String.append_assoc]

theorem temporary_ne (file : String) : file ++ ".tmp" ≠ file := by
  intro he
  have length := congrArg String.length he
  rw [String.length_append] at length
  exact absurd length (by simp)

theorem write_within (normal : p.normalize = p) (hn : IsName name) (h : d.Leads p dir)
    {text : String} (written : d.write (p.join name) text = .ok d') : Within dir doc d d' := by
  obtain ⟨dir', leads, free, rfl⟩ := write_join_ok normal hn written
  obtain rfl := h.unique leads
  exact within_put (ne_empty hn) (.inr free) fun _ _ _ => ⟨text, rfl⟩

theorem moveFile_within {old : String} (normal : p.normalize = p) (ho : IsName old)
    (hn : IsName name) (ne : old ≠ name) (h : d.Leads p dir)
    (moved : d.moveFile (p.join old) (p.join name) = .ok d') : Within dir (dir ++ [name]) d d' := by
  obtain ⟨dir', text, leads, -, -, -, free, rfl⟩ := moveFile_join_ok normal ho hn moved
  obtain rfl := h.unique leads
  have other : dir ++ [name] ≠ dir ++ [old] := by simpa using Ne.symm ne
  refine (within_remove fun _ _ => other).trans (within_put (ne_empty hn) (.inr ?_) ?_)
  · rwa [node?_remove other]
  · exact fun _ _ _ => ⟨text, rfl⟩

/-- The disk once the directories above a path are made, as far as that goes. -/
def withAbove (d : Disk) (q : Path) : Disk := q.parent?.elim d fun dir => left (makeDirs dir) d

/-- How far a document is stored: directories are made above it, it is written beside its place, and
then moved there. -/
theorem store_steps (value : Json) (q : Path) (d : Disk) :
    (∃ err, store value q d = .error err (d.withAbove q)) ∨
      ∃ d₁, (d.withAbove q).write (temporary q) ((DocumentFormat.ofPath q).write value) = .ok d₁ ∧
        ((∃ err, store value q d = .error err d₁) ∨
          ∃ d', d₁.moveFile (temporary q) q = .ok d' ∧ store value q d = .ok () d') := by
  rw [store, withAbove]
  generalize (DocumentFormat.ofPath q).write value = text
  have replaced (d₀ : Disk) (reason reason' : DiskError → String) :
      let act := refusedAs (temporary q) reason
        (DiskAction.step fun d => d.write (temporary q) text) >>= fun _ =>
          refusedAs q reason' (DiskAction.step fun d => d.moveFile (temporary q) q)
      (∃ err, act d₀ = .error err d₀) ∨ ∃ d₁, d₀.write (temporary q) text = .ok d₁ ∧
        ((∃ err, act d₀ = .error err d₁) ∨
          ∃ d', d₁.moveFile (temporary q) q = .ok d' ∧ act d₀ = .ok () d') := by
    simp only [disk_bind_apply, refusedAs, DiskAction.step]
    cases d₀.write (temporary q) text with
    | error e => exact .inl ⟨_, rfl⟩
    | ok d₁ =>
        refine .inr ⟨d₁, rfl, ?_⟩
        dsimp only
        cases d₁.moveFile (temporary q) q with
        | error e => exact .inl ⟨_, rfl⟩
        | ok d' => exact .inr ⟨d', rfl, rfl⟩
  generalize q.parent? = outer
  cases outer with
  | none => exact replaced d _ _
  | some dir =>
      rw [Option.elim_some, left]
      dsimp only
      rw [disk_bind_apply, refusedAs]
      cases makeDirs dir d with
      | error e d₀ => exact .inl ⟨_, rfl⟩
      | ok u d₀ => exact replaced d₀ _ _

theorem store_eq_ok {q : Path} (h : store value q d = .ok () d') :
    ∃ d₁, (d.withAbove q).write (temporary q) ((DocumentFormat.ofPath q).write value) = .ok d₁ ∧
      d₁.moveFile (temporary q) q = .ok d' := by
  obtain ⟨_, refused⟩ | ⟨d₁, written, ⟨_, refused⟩ | ⟨_, moved, stored⟩⟩ := store_steps value q d
  · cases refused.symm.trans h
  · cases refused.symm.trans h
  · cases stored.symm.trans h
    exact ⟨d₁, written, moved⟩

theorem withAbove_there (normal : p.normalize = p) (hf : IsName file) (h : d.Leads p dir) :
    d.withAbove (p.join file) = d := by
  rw [withAbove, Path.parent?_join normal hf, Option.elim_some, left]
  rcases makeDirs_there h with made | ⟨e, made⟩ <;> rw [made]

/-- A document of a directory is stored within it. -/
theorem store_within (normal : p.normalize = p) (hf : IsName file) (h : d.Leads p dir)
    (value : Json) : Within dir (dir ++ [file]) d (left (store value (p.join file)) d) := by
  have beside := isName_temporary hf
  have steps := store_steps value (p.join file) d
  rw [withAbove_there normal hf h, temporary_join p hf] at steps
  rw [left]
  obtain ⟨_, refused⟩ | ⟨d₁, written, steps⟩ := steps
  · rw [refused]
    exact .refl dir _ d
  · have aside : Within dir (dir ++ [file]) d d₁ := write_within normal beside h written
    obtain ⟨_, refused⟩ | ⟨d', moved, stored⟩ := steps
    · rw [refused]
      exact aside
    · rw [stored]
      have leads := h.within normal aside
      exact aside.trans (moveFile_within normal beside hf (temporary_ne file) leads moved)

/-- What is stored is what the document then holds, in a directory that its path leads to. -/
theorem store_ok (normal : p.normalize = p) (hf : IsName file) {value : Json}
    (h : store value (p.join file) d = .ok () d') :
    ∃ dir, d'.Leads p dir ∧ checkText (p.join file) = .ok () ∧ checkName dir file = .ok () ∧
      d'.node? (dir ++ [file]) =
        some (.file ((DocumentFormat.ofPath (p.join file)).write value)) := by
  have beside := isName_temporary hf
  obtain ⟨d₁, written, moved⟩ := store_eq_ok h
  rw [temporary_join p hf] at written moved
  obtain ⟨dir, leads, -, put⟩ := write_join_ok normal beside written
  have aside : Within dir dir (d.withAbove (p.join file)) d₁ :=
    write_within normal beside leads written
  have kept := leads.within normal aside
  have within := moveFile_within normal beside hf (temporary_ne file) kept moved
  obtain ⟨dir', text, leads', spelled, check, there, -, rfl⟩ :=
    moveFile_join_ok normal beside hf moved
  obtain rfl := kept.unique leads'
  rw [put, node?_put (named_snoc dir (ne_empty beside)), if_pos rfl] at there
  cases there
  refine ⟨dir, kept.within normal within, spelled, check, ?_⟩
  rw [node?_put (named_snoc dir (ne_empty hf)), if_pos rfl]

/-- A document of a directory is stored by way of two files there; directories stay, and so does all
else. -/
theorem store_elsewhere (normal : p.normalize = p) (hf : IsName file) (h : d.Leads p dir)
    {value : Json} (stored : store value (p.join file) d = .ok () d') :
    (∀ loc, loc ≠ dir ++ [file] → loc ≠ dir ++ [file ++ ".tmp"] → d'.node? loc = d.node? loc) ∧
      ∀ loc, d.node? loc = some .dir → d'.node? loc = some .dir := by
  have beside := isName_temporary hf
  obtain ⟨d₁, written, moved⟩ := store_eq_ok stored
  rw [withAbove_there normal hf h, temporary_join p hf] at written
  rw [temporary_join p hf] at moved
  have aside : Within dir dir d d₁ := write_within normal beside h written
  have kept := h.within normal aside
  obtain ⟨l, leads, free₀, rfl⟩ := write_join_ok normal beside written
  obtain rfl := h.unique leads
  obtain ⟨l, text, leads, -, -, there, free, rfl⟩ := moveFile_join_ok normal beside hf moved
  obtain rfl := kept.unique leads
  have named := named_snoc dir (ne_empty hf)
  have named₀ := named_snoc dir (ne_empty beside)
  rw [node?_put named₀, if_pos rfl] at there
  cases there
  refine ⟨fun loc ne ne₀ => ?_, fun loc isDir => ?_⟩
  · rw [node?_moved named₀ named, if_neg ne, if_neg ne₀]
  · have ne₀ : loc ≠ dir ++ [file ++ ".tmp"] := by
      rintro rfl
      exact free₀ isDir
    have ne : loc ≠ dir ++ [file] := by
      rintro rfl
      rw [node?_put named₀, if_neg ne₀] at free
      exact free isDir
    rw [node?_moved named₀ named, if_neg ne, if_neg ne₀, isDir]

/-! ### Loading a document -/

theorem stat_join (normal : p.normalize = p) (hn : IsName name) (h : d.Leads p dir)
    (spelled : checkText (p.join name) = .ok ()) (check : checkName dir name = .ok ())
    {node : FileNode} (there : d.node? (dir ++ [name]) = some node) :
    d.stat (p.join name) = .ok node := by
  refine stat_eq_ok_iff.mpr ⟨dir ++ [name], ?_, there⟩
  rw [locate_join normal hn h, spelled]
  exact enter_name h.isDir hn check (by rw [there]; rfl)

theorem readAt_writeBelow (tree : Params) (key : String) (rest : List String) (value : Json) :
    (Json.obj (tree.writeBelow key rest value)).readAt (key :: rest) = .ok value := by
  induction rest generalizing tree key with
  | nil =>
      rw [Params.writeBelow, Json.readAt, Table.get?_insert_self, Option.getD_some]
      cases value <;> rfl
  | cons next rest ih =>
      rw [Params.writeBelow, Json.readAt, Table.get?_insert_self, Option.getD_some]
      exact ih _ next

theorem load_of_stat {path : Path} {text : String} (stat : d.stat path = .ok (.file text)) {whole : Json}
    (reads : (DocumentFormat.ofPath path).read text = .ok whole) {nested : List String}
    (found : whole.readAt nested = .ok value) : d.load path nested = .ok (value, true) := by
  have exists_ : d.exists? path = true := by rw [exists?, stat]
  have read : d.read path = .ok text := by
    rw [Disk.read, stat]
    rfl
  rw [load, exists_, read]
  simp [reads, found]

/-- A document in a directory is read, at a key path that leads somewhere in it. -/
theorem load_join (normal : p.normalize = p) (hf : IsName file) (h : d.Leads p dir)
    (spelled : checkText (p.join file) = .ok ()) (check : checkName dir file = .ok ())
    {text : String} (there : d.node? (dir ++ [file]) = some (.file text)) {whole : Json}
    (reads : (DocumentFormat.ofPath (p.join file)).read text = .ok whole) {nested : List String}
    (found : whole.readAt nested = .ok value) : d.load (p.join file) nested = .ok (value, true) :=
  load_of_stat (stat_join normal hf h spelled check there) reads found

end Lineage.Disk
