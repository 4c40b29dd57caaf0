import Lineage.Table
import Mathlib.Data.List.Nodup
import Mathlib.Data.List.Induction

/-!
Ordered tables through their two views: the value under a key, and the keys in order. Inserting and
overlaying are described through both; a table that was built by them has each key once.
-/
namespace Lineage.Table

variable {κ α : Type}

def Distinct (t : Table κ α) : Prop := (keys t).Nodup

theorem distinct_nil : Distinct ([] : Table κ α) := List.nodup_nil

@[simp] theorem keys_nil : keys ([] : Table κ α) = [] := rfl

@[simp] theorem keys_cons (k : κ) (v : α) (t : Table κ α) : keys ((k, v) :: t) = k :: keys t := rfl

theorem keys_append (t u : Table κ α) : keys (t ++ u) = keys t ++ keys u := List.map_append

theorem keys_filterMap_of_isSome {names : List κ} {find : κ → Option α}
    (found : ∀ key ∈ names, (find key).isSome) :
    keys (names.filterMap fun key => (find key).map (key, ·)) = names := by
  induction names with
  | nil => rfl
  | cons key names ih =>
      obtain ⟨here, later⟩ := List.forall_mem_cons.mp found
      obtain ⟨value, hv⟩ := Option.isSome_iff_exists.mp here
      rw [List.filterMap_cons, hv]
      exact congrArg (key :: ·) (ih later)

variable [DecidableEq κ]

@[simp] theorem get?_nil (key : κ) : get? ([] : Table κ α) key = none := rfl

theorem get?_eq_none_iff (t : Table κ α) (key : κ) : get? t key = none ↔ key ∉ keys t := by
  induction t with
  | nil => simp
  | cons field t ih =>
      obtain ⟨k, v⟩ := field
      by_cases h : k = key
      · simp [get?, h]
      · simp [get?, h, ih, Ne.symm h]

theorem get?_append (t u : Table κ α) (key : κ) : get? (t ++ u) key = (get? t key).or (get? u key) := by
  induction t with
  | nil => rfl
  | cons field t ih =>
      obtain ⟨k, v⟩ := field
      by_cases h : k = key
      · simp [get?, h]
      · simp [get?, h, ih]

theorem mem_of_get? {t : Table κ α} {key : κ} {value : α} (h : get? t key = some value) :
    (key, value) ∈ t := by
  induction t with
  | nil => cases h
  | cons head t ih =>
      obtain ⟨k, v⟩ := head
      by_cases hk : k = key
      · obtain rfl : v = value := by simpa [get?, hk] using h
        simp [hk]
      · exact List.mem_cons_of_mem _ (ih (by simpa [get?, hk] using h))

theorem get?_eq_some_iff {t : Table κ α} (distinct : Distinct t) {key : κ} {value : α} :
    get? t key = some value ↔ (key, value) ∈ t := by
  refine ⟨mem_of_get?, fun mem => ?_⟩
  induction t with
  | nil => cases mem
  | cons field t ih =>
      obtain ⟨k, v⟩ := field
      obtain ⟨new, distinct⟩ := List.nodup_cons.mp distinct
      rcases List.mem_cons.mp mem with same | later
      · cases same
        exact if_pos rfl
      · have ne : k ≠ key := by
          rintro rfl
          exact new (List.mem_map.mpr ⟨_, later, rfl⟩)
        rw [get?, if_neg ne]
        exact ih distinct later

theorem get?_insert (t : Table κ α) (key other : κ) (value : α) :
    get? (insert t key value) other = if key = other then some value else get? t other := by
  induction t with
  | nil => simp [insert, get?]
  | cons field t ih =>
      obtain ⟨k, v⟩ := field
      by_cases h : k = key
      · by_cases ho : key = other <;> simp [insert, get?, h, ho]
      · by_cases ho : key = other
        · subst ho
          simp [insert, get?, h, ih]
        · simp [insert, get?, h, ih, ho]

theorem get?_insert_self (t : Table κ α) (key : κ) (value : α) :
    get? (insert t key value) key = some value := by
  rw [get?_insert, if_pos rfl]

theorem insert_of_new {t : Table κ α} {key : κ} (new : contains t key = false) (value : α) :
    insert t key value = t ++ [(key, value)] := by
  induction t with
  | nil => rfl
  | cons field t ih =>
      obtain ⟨k, v⟩ := field
      by_cases h : k = key
      · simp [contains, get?, h] at new
      · rw [contains, get?, if_neg h] at new
        rw [insert, if_neg h, ih new, List.cons_append]

theorem insert_of_get? {t : Table κ α} {key : κ} {value : α} (found : get? t key = some value) :
    insert t key value = t := by
  induction t with
  | nil => cases found
  | cons field t ih =>
      obtain ⟨k, v⟩ := field
      by_cases h : k = key
      · rw [get?, if_pos h] at found
        rw [insert, if_pos h, Option.some.inj found]
      · rw [get?, if_neg h] at found
        rw [insert, if_neg h, ih found]

theorem keys_insert (t : Table κ α) (key : κ) (value : α) :
    keys (insert t key value) = if key ∈ keys t then keys t else keys t ++ [key] := by
  induction t with
  | nil => simp [insert]
  | cons field t ih =>
      obtain ⟨k, v⟩ := field
      by_cases h : k = key
      · simp [insert, h]
      · by_cases hm : key ∈ keys t <;> simp [insert, h, ih, hm, Ne.symm h]

theorem Distinct.insert {t : Table κ α} (h : Distinct t) (key : κ) (value : α) :
    Distinct (insert t key value) := by
  rw [Distinct]
  rw [keys_insert]
  split
  · exact h
  · rename_i hm
    exact List.Nodup.append h (by simp) (by simpa using hm)

theorem mem_insert {t : Table κ α} {key : κ} {value : α} {field : κ × α}
    (h : field ∈ insert t key value) : field = (key, value) ∨ field ∈ t := by
  induction t with
  | nil => simpa [insert] using h
  | cons head t ih =>
      obtain ⟨k, v⟩ := head
      by_cases hk : k = key
      · simp only [insert, hk, if_true, List.mem_cons] at h
        exact h.imp_right (List.mem_cons_of_mem _)
      · simp only [insert, hk, if_false, List.mem_cons] at h
        rcases h with rfl | h
        · exact .inr (by simp)
        · exact (ih h).imp_right (List.mem_cons_of_mem _)

theorem overlay_nil (lower : Table κ α) : overlay lower [] = lower := rfl

theorem overlay_cons (lower upper : Table κ α) (k : κ) (v : α) :
    overlay lower ((k, v) :: upper) = overlay (Table.insert lower k v) upper := rfl

/-- Fields without a repeated key are a table as they stand. -/
theorem overlay_of_apart {lower upper : Table κ α} (h : (keys (lower ++ upper)).Nodup) :
    overlay lower upper = lower ++ upper := by
  induction upper generalizing lower with
  | nil => rw [overlay_nil, List.append_nil]
  | cons field upper ih =>
      obtain ⟨k, v⟩ := field
      have new : contains lower k = false := by
        rw [contains, Option.isSome_eq_false_iff, Option.isNone_iff_eq_none, get?_eq_none_iff]
        rw [keys, List.map_append] at h
        intro known
        exact (List.nodup_append.mp h).2.2 k known k List.mem_cons_self rfl
      have h' : (keys ((lower ++ [(k, v)]) ++ upper)).Nodup := by simpa using h
      rw [overlay_cons, insert_of_new new, ih h', List.append_assoc, List.singleton_append]

theorem ofFields_of_distinct {fields : Table κ α} (h : Distinct fields) : ofFields fields = fields :=
  overlay_of_apart h

theorem mem_overlay {lower upper : Table κ α} {field : κ × α} (h : field ∈ overlay lower upper) :
    field ∈ upper ∨ field ∈ lower := by
  induction upper generalizing lower with
  | nil => exact .inr h
  | cons head upper ih =>
      rcases ih (show field ∈ overlay (insert lower head.1 head.2) upper from h) with h | h
      · exact .inl (List.mem_cons_of_mem _ h)
      · exact (mem_insert h).imp_left fun e => by simp [e]

theorem Distinct.overlay {lower : Table κ α} (h : Distinct lower) (upper : Table κ α) :
    Distinct (overlay lower upper) := by
  induction upper generalizing lower with
  | nil => exact h
  | cons field upper ih => exact ih (h.insert field.1 field.2)

theorem distinct_ofFields (fields : List (κ × α)) : Distinct (ofFields fields) :=
  distinct_nil.overlay fields

theorem get?_overlay (lower : Table κ α) {upper : Table κ α} (h : Distinct upper) (key : κ) :
    get? (overlay lower upper) key = (get? upper key).or (get? lower key) := by
  induction upper generalizing lower with
  | nil => rfl
  | cons field upper ih =>
      obtain ⟨k, v⟩ := field
      obtain ⟨hk, hu⟩ := List.nodup_cons.mp (show (k :: keys upper).Nodup from h)
      rw [overlay_cons, ih _ hu, get?_insert]
      by_cases he : k = key
      · subst he
        simp [get?, (get?_eq_none_iff upper k).mpr hk]
      · simp [get?, he]

/-- Nothing of `lower` is seen under `upper` just if all its keys are hidden. -/
theorem get?_overlay_eq_iff (lower : Table κ α) {upper : Table κ α} (h : Distinct upper) :
    (∀ key, get? (overlay lower upper) key = get? upper key) ↔ ∀ key ∈ keys lower, key ∈ keys upper := by
  simp only [get?_overlay lower h]
  constructor
  · intro same key mem
    by_contra new
    have missing := same key
    rw [(get?_eq_none_iff upper key).mpr new] at missing
    exact (get?_eq_none_iff lower key).mp missing mem
  · intro hidden key
    cases found : get? upper key with
    | some v => rfl
    | none =>
        have new := (get?_eq_none_iff upper key).mp found
        exact (get?_eq_none_iff lower key).mpr fun mem => new (hidden key mem)

theorem insert_insert_self (t : Table κ α) (key : κ) (value value' : α) :
    insert (insert t key value) key value' = insert t key value' := by
  induction t with
  | nil => simp [insert]
  | cons field t ih =>
      obtain ⟨k, v⟩ := field
      by_cases h : k = key <;> simp [insert, h, ih]

/-- Insertions under two keys commute where one of the keys has its place already. -/
theorem insert_comm {t : Table κ α} {key other : κ} (ne : key ≠ other) (mem : key ∈ keys t)
    (value value' : α) :
    insert (insert t key value) other value' = insert (insert t other value') key value := by
  induction t with
  | nil => cases mem
  | cons field t ih =>
      obtain ⟨k, v⟩ := field
      by_cases h : k = key
      · subst h
        simp [insert, ne]
      · have mem : key ∈ keys t := by simpa [Ne.symm h] using mem
        by_cases ho : k = other <;> simp [insert, h, ho, ih mem, Ne.symm ne]

theorem insert_overlay {lower upper : Table κ α} {key : κ} (mem : key ∈ keys lower)
    (new : key ∉ keys upper) (value : α) :
    insert (overlay lower upper) key value = overlay (insert lower key value) upper := by
  induction upper generalizing lower with
  | nil => rfl
  | cons field upper ih =>
      obtain ⟨k, v⟩ := field
      obtain ⟨ne, new⟩ : key ≠ k ∧ key ∉ keys upper := by simpa using new
      have kept : key ∈ keys (insert lower k v) := by
        rw [keys_insert]
        split
        · exact mem
        · exact List.mem_append_left _ mem
      rw [overlay_cons, overlay_cons, ih kept new, insert_comm ne mem]

/-- To lay an extended table upon another is to extend what was laid. -/
theorem overlay_insert (lower : Table κ α) {upper : Table κ α} (h : Distinct upper) (key : κ)
    (value : α) :
    overlay lower (insert upper key value) = insert (overlay lower upper) key value := by
  induction upper generalizing lower with
  | nil => rfl
  | cons field upper ih =>
      obtain ⟨k, v⟩ := field
      obtain ⟨new, hu⟩ := List.nodup_cons.mp (show (k :: keys upper).Nodup from h)
      by_cases hk : k = key
      · subst hk
        have mem : k ∈ keys (insert lower k v) := by
          rw [keys_insert]
          split <;> simp_all
        rw [overlay_cons, insert_overlay mem new, insert_insert_self, insert, if_pos rfl,
          overlay_cons]
      · rw [insert, if_neg hk, overlay_cons, overlay_cons, ih _ hu]

theorem eraseDups_of_nodup {xs : List κ} (h : xs.Nodup) : xs.eraseDups = xs := by
  induction xs with
  | nil => rfl
  | cons x xs ih =>
      obtain ⟨hx, hxs⟩ := List.nodup_cons.mp h
      have keep : (xs.filter fun y => !y == x) = xs := by
        apply List.filter_eq_self.mpr
        intro y hy
        have ne : y ≠ x := fun e => hx (e ▸ hy)
        simpa using ne
      rw [List.eraseDups_cons, keep, ih hxs]

theorem eraseDups_snoc (xs : List κ) (x : κ) :
    (xs ++ [x]).eraseDups = if x ∈ xs then xs.eraseDups else xs.eraseDups ++ [x] := by
  rw [List.eraseDups_append, List.removeAll]
  by_cases mem : x ∈ xs <;> simp [mem, List.eraseDups_cons]

/-- The keys of `lower` in order, and then the new ones of `upper` in order. -/
theorem keys_overlay {lower : Table κ α} (h : Distinct lower) (upper : Table κ α) :
    keys (overlay lower upper) = (keys lower ++ keys upper).eraseDups := by
  induction upper generalizing lower with
  | nil => rw [overlay_nil, keys_nil, List.append_nil, eraseDups_of_nodup h]
  | cons field upper ih =>
      obtain ⟨k, v⟩ := field
      rw [overlay_cons, ih (h.insert k v), keys_insert, keys_cons]
      split
      · rename_i hm
        have drop : (k :: keys upper).removeAll (keys lower) = (keys upper).removeAll (keys lower) := by
          simp [List.removeAll, hm]
        rw [List.eraseDups_append, List.eraseDups_append, drop]
      · rw [List.append_assoc, List.singleton_append]

/-- Laying levels upon each other one by one is laying all their fields in a row. -/
theorem foldl_overlay (levels : List (Table κ α)) (lower : Table κ α) :
    levels.foldl overlay lower = overlay lower levels.flatten := by
  simp only [overlay, List.foldl_flatten]
  rfl

theorem keys_foldl_overlay (levels : List (Table κ α)) :
    keys (levels.foldl overlay []) = (levels.flatMap keys).eraseDups := by
  rw [foldl_overlay, keys_overlay distinct_nil, keys_nil, List.nil_append]
  simp only [keys, List.map_flatten, List.flatMap]
  rfl

/-- The last level that has a key decides. -/
theorem get?_foldl_overlay (levels : List (Table κ α)) (h : ∀ t ∈ levels, Distinct t) (key : κ) :
    get? (levels.foldl overlay []) key = levels.reverse.findSome? fun t => get? t key := by
  induction levels using List.reverseRecOn with
  | nil => rfl
  | append_singleton levels t ih =>
      have ht : Distinct t := h t (by simp)
      have hl : ∀ u ∈ levels, Distinct u := fun u hu => h u (by simp [hu])
      rw [List.foldl_append, List.foldl_cons, List.foldl_nil, get?_overlay _ ht, ih hl,
        List.reverse_append, List.reverse_singleton, List.singleton_append, List.findSome?_cons]
      cases get? t key <;> rfl

/-- A filter by keys alone hides the keys that it drops and no other. -/
theorem get?_filter (t : Table κ α) (p : κ → Bool) (key : κ) :
    get? (t.filter fun field => p field.1) key = if p key then get? t key else none := by
  induction t with
  | nil => simp
  | cons field t ih =>
      obtain ⟨k, v⟩ := field
      by_cases hk : k = key
      · subst hk
        cases hp : p k <;> simp [get?, hp, ih]
      · cases hp : p k <;> simp [get?, hp, hk, ih]

/-! ### Tables made field by field -/

/-- Inserting what is found under each of some new keys. -/
theorem foldl_insert_found {names : List κ} (distinct : names.Nodup) (find : κ → Option α)
    {t : Table κ α} (new : ∀ key ∈ names, key ∉ keys t) :
    names.foldl (fun acc key => (find key).elim acc (insert acc key)) t =
      t ++ names.filterMap fun key => (find key).map (key, ·) := by
  induction names generalizing t with
  | nil => simp
  | cons key names ih =>
      obtain ⟨apart, distinct⟩ := List.nodup_cons.mp distinct
      obtain ⟨here, later⟩ := List.forall_mem_cons.mp new
      rw [List.foldl_cons, List.filterMap_cons]
      cases find key with
      | none => exact ih distinct later
      | some value =>
          have absent : contains t key = false := by
            rw [contains, (get?_eq_none_iff t key).mpr here, Option.isSome_none]
          have later : ∀ other ∈ names, other ∉ keys (t ++ [(key, value)]) := by
            intro other mem
            have ne : other ≠ key := fun same => apart (same ▸ mem)
            simpa [keys_append, ne] using later other mem
          rw [Option.elim_some, Option.map_some, insert_of_new absent, ih distinct later, List.append_assoc, List.singleton_append]

/-- Adding fields only where their keys are absent. -/
theorem foldl_insert_absent {fields t : Table κ α}
    (distinct : Distinct (fields.filter fun field => field.1 ∉ keys t)) :
    fields.foldl (fun acc field =>
      if contains acc field.1 then acc else insert acc field.1 field.2) t =
        t ++ fields.filter fun field => field.1 ∉ keys t := by
  induction fields generalizing t with
  | nil => simp
  | cons field fields ih =>
      obtain ⟨key, value⟩ := field
      rw [List.foldl_cons]
      by_cases mem : key ∈ keys t
      · have known : contains t key = true := by
          rw [contains, Option.isSome_iff_ne_none, Ne, get?_eq_none_iff, not_not]
          exact mem
        have drop : ((key, value) :: fields).filter (fun field => field.1 ∉ keys t) =
            fields.filter fun field => field.1 ∉ keys t := List.filter_cons_of_neg (by simpa using mem)
        rw [drop] at distinct ⊢
        rw [if_pos known, ih distinct]
      · have absent : contains t key = false := by
          rw [contains, (get?_eq_none_iff t key).mpr mem, Option.isSome_none]
        have keep : ((key, value) :: fields).filter (fun field => field.1 ∉ keys t) =
            (key, value) :: fields.filter fun field => field.1 ∉ keys t :=
          List.filter_cons_of_pos (by simpa using mem)
        rw [keep] at distinct ⊢
        obtain ⟨apart, distinct⟩ := List.nodup_cons.mp distinct
        -- No later field that is to be added has this key.
        have same : fields.filter (fun field => field.1 ∉ keys (t ++ [(key, value)])) =
            fields.filter fun field => field.1 ∉ keys t := by
          refine List.filter_congr fun other among => ?_
          have ne (new : other.1 ∉ keys t) : other.1 ≠ key := by
            intro eq
            have kept : other ∈ fields.filter fun field => field.1 ∉ keys t :=
              List.mem_filter.mpr ⟨among, decide_eq_true new⟩
            exact apart (List.mem_map.mpr ⟨other, kept, eq⟩)
          rw [decide_eq_decide, keys_append, keys_cons, keys_nil, List.mem_append,
            List.mem_singleton, not_or]
          exact ⟨And.left, fun new => ⟨new, ne new⟩⟩
        rw [if_neg (by rw [absent]; exact Bool.false_ne_true), insert_of_new absent,
          ih (same ▸ distinct), same, List.append_assoc, List.singleton_append]

end Lineage.Table
