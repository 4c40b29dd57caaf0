import Mathlib.Data.Set.Basic
import Mathlib.Data.Set.Insert
import Mathlib.Data.List.Nodup

/-!
Depth-first order. Vertices are visited in preorder, one after the other of those that are pending,
and none that was seen before; a search stops at the first vertex that hits. What is visited is what
can be reached past the seen vertices, once each. The order is determined, and exists if finitely
much can be reached. A search that keeps one list of what is pending goes through the same vertices,
and what it has seen from earlier starts hides no hit from a later one.
-/
namespace Lineage.DepthFirst

variable {α : Type} (next : α → List α)

/-- A vertex can be reached from another without a seen one on the way. -/
inductive Reaches (seen : Set α) : α → α → Prop
  | here {a} (h : a ∉ seen) : Reaches seen a a
  | step {a b c} (h : a ∉ seen) (edge : b ∈ next a) (rest : Reaches seen b c) : Reaches seen a c

/-- The vertices visited, in preorder: a new vertex, then what is visited from it, then what is
visited from those pending after it. -/
inductive Preorder : Set α → List α → List α → Prop
  | done {seen} : Preorder seen [] []
  | skip {seen a pending order} (h : a ∈ seen) (rest : Preorder seen pending order) :
      Preorder seen (a :: pending) order
  | visit {seen a pending inner outer} (h : a ∉ seen)
      (inside : Preorder (insert a seen) (next a) inner)
      (rest : Preorder (insert a seen ∪ {x | x ∈ inner}) pending outer) :
      Preorder seen (a :: pending) (a :: (inner ++ outer))

/-- The vertices visited up to the first that hits, if there is one. -/
inductive Explores (hit : α → Bool) : Set α → List α → List α → Option α → Prop
  | done {seen} : Explores hit seen [] [] none
  | skip {seen a pending visits result} (h : a ∈ seen)
      (rest : Explores hit seen pending visits result) :
      Explores hit seen (a :: pending) visits result
  | hit {seen a pending} (h : a ∉ seen) (hits : hit a = true) :
      Explores hit seen (a :: pending) [a] (some a)
  | within {seen a pending inner d} (h : a ∉ seen) (misses : hit a = false)
      (inside : Explores hit (insert a seen) (next a) inner (some d)) :
      Explores hit seen (a :: pending) (a :: inner) (some d)
  | after {seen a pending inner outer result} (h : a ∉ seen) (misses : hit a = false)
      (inside : Explores hit (insert a seen) (next a) inner none)
      (rest : Explores hit (insert a seen ∪ {x | x ∈ inner}) pending outer result) :
      Explores hit seen (a :: pending) (a :: (inner ++ outer)) result

/-- The same, in so many steps, with what a vertex leads to put before what else is pending. -/
inductive Stacked (hit : α → Bool) : Nat → Set α → List α → List α → Option α → Prop
  | done {seen} : Stacked hit 0 seen [] [] none
  | skip {n seen a pending visits result} (h : a ∈ seen)
      (rest : Stacked hit n seen pending visits result) :
      Stacked hit (n + 1) seen (a :: pending) visits result
  | hit {seen a pending} (h : a ∉ seen) (hits : hit a = true) :
      Stacked hit 0 seen (a :: pending) [a] (some a)
  | visit {n seen a pending visits result} (h : a ∉ seen) (misses : hit a = false)
      (rest : Stacked hit n (insert a seen) (next a ++ pending) visits result) :
      Stacked hit (n + 1) seen (a :: pending) (a :: visits) result

variable {next} {seen : Set α} {pending order : List α}

namespace Reaches

theorem unseen {a c : α} (h : Reaches next seen a c) : a ∉ seen ∧ c ∉ seen := by
  induction h with
  | here h => exact ⟨h, h⟩
  | step h _ _ ih => exact ⟨h, ih.2⟩

theorem mono {fewer : Set α} (h : fewer ⊆ seen) {a c : α} (r : Reaches next seen a c) :
    Reaches next fewer a c := by
  induction r with
  | here h' => exact .here fun ha => h' (h ha)
  | step h' edge _ ih => exact .step (fun ha => h' (h ha)) edge ih

theorem trans {a b c : α} (h : Reaches next seen a b) (h' : Reaches next seen b c) :
    Reaches next seen a c := by
  induction h with
  | here _ => exact h'
  | step h edge _ ih => exact .step h edge (ih h')

/-- A set that edges lead out of only to seen vertices is not left. -/
theorem mem_of_closed {s : Set α} (closed : ∀ a ∈ s, ∀ b ∈ next a, b ∈ seen ∨ b ∈ s) {a c : α}
    (h : Reaches next seen a c) (ha : a ∈ s) : c ∈ s := by
  induction h with
  | here _ => exact ha
  | step _ edge rest ih =>
      rcases closed _ ha _ edge with hb | hb
      · exact absurd hb rest.unseen.1
      · exact ih hb

end Reaches

namespace Preorder

theorem reaches (h : Preorder next seen pending order) :
    ∀ c ∈ order, ∃ a ∈ pending, Reaches next seen a c := by
  induction h with
  | done => intro c hc; cases hc
  | skip _ _ ih =>
      intro c hc
      obtain ⟨a, ha, r⟩ := ih c hc
      exact ⟨a, List.mem_cons_of_mem _ ha, r⟩
  | @visit seen a pending inner outer h _ _ ihInside ihRest =>
      intro c hc
      rcases List.mem_cons.mp hc with rfl | hc
      · exact ⟨c, List.mem_cons_self .., .here h⟩
      rcases List.mem_append.mp hc with hc | hc
      · obtain ⟨b, hb, r⟩ := ihInside c hc
        exact ⟨a, List.mem_cons_self .., .step h hb (r.mono (Set.subset_insert a seen))⟩
      · obtain ⟨b, hb, r⟩ := ihRest c hc
        refine ⟨b, List.mem_cons_of_mem _ hb, r.mono fun x hx => ?_⟩
        exact .inl (Set.mem_insert_of_mem a hx)

theorem unseen (h : Preorder next seen pending order) : ∀ c ∈ order, c ∉ seen := by
  intro c hc
  obtain ⟨a, -, r⟩ := h.reaches c hc
  exact r.unseen.2

theorem nodup (h : Preorder next seen pending order) : order.Nodup := by
  induction h with
  | done => exact List.nodup_nil
  | skip _ _ ih => exact ih
  | @visit seen a pending inner outer h inside rest ihInside ihRest =>
      have apart : ∀ c ∈ outer, c ∉ inner := fun c hc hin => rest.unseen c hc (.inr hin)
      rw [List.nodup_cons, List.mem_append, not_or]
      refine ⟨⟨fun ha => inside.unseen a ha (Set.mem_insert a seen),
        fun ha => rest.unseen a ha (.inl (Set.mem_insert a seen))⟩, ?_⟩
      exact ihInside.append ihRest fun c hin hout => apart c hout hin

/-- Nothing pending is missed. -/
theorem covers (h : Preorder next seen pending order) : ∀ a ∈ pending, a ∈ seen ∨ a ∈ order := by
  induction h with
  | done => intro a ha; cases ha
  | skip h _ ih =>
      intro a ha
      rcases List.mem_cons.mp ha with rfl | ha
      · exact .inl h
      · exact ih a ha
  | @visit seen a pending inner outer _ _ _ _ ihRest =>
      intro b hb
      rcases List.mem_cons.mp hb with rfl | hb
      · exact .inr (List.mem_cons_self ..)
      rcases ihRest b hb with ((rfl | hb) | hb) | hb
      · exact .inr (List.mem_cons_self ..)
      · exact .inl hb
      · exact .inr (List.mem_cons_of_mem _ (List.mem_append_left _ hb))
      · exact .inr (List.mem_cons_of_mem _ (List.mem_append_right _ hb))

/-- Edges from a visited vertex lead to seen or visited ones: by the end, all that was pruned had
been visited. -/
theorem closed (h : Preorder next seen pending order) :
    ∀ a ∈ order, ∀ b ∈ next a, b ∈ seen ∨ b ∈ order := by
  induction h with
  | done => intro a ha; cases ha
  | skip _ _ ih => exact ih
  | @visit seen a pending inner outer _ inside _ ihInside ihRest =>
      have inner_or : ∀ b, b ∈ insert a seen ∨ b ∈ inner →
          b ∈ seen ∨ b ∈ a :: (inner ++ outer) := by
        rintro b ((rfl | hb) | hb)
        · exact .inr (List.mem_cons_self ..)
        · exact .inl hb
        · exact .inr (List.mem_cons_of_mem _ (List.mem_append_left _ hb))
      intro x hx b hb
      rcases List.mem_cons.mp hx with rfl | hx
      · exact inner_or b (inside.covers b hb)
      rcases List.mem_append.mp hx with hx | hx
      · exact inner_or b (ihInside x hx b hb)
      · rcases ihRest x hx b hb with hb | hb
        · exact inner_or b hb
        · exact .inr (List.mem_cons_of_mem _ (List.mem_append_right _ hb))

/-- What is visited is what can be reached. -/
theorem mem_iff (h : Preorder next seen pending order) (c : α) :
    c ∈ order ↔ ∃ a ∈ pending, Reaches next seen a c := by
  refine ⟨h.reaches c, fun ⟨a, ha, r⟩ => ?_⟩
  rcases h.covers a ha with hs | ho
  · exact absurd hs r.unseen.1
  · exact r.mem_of_closed h.closed ho

/-! ### Existence -/

theorem exists_of_closed (left : List α) (closed : ∀ a ∈ left, ∀ b ∈ next a, b ∈ seen ∨ b ∈ left)
    (here : ∀ b ∈ pending, b ∈ seen ∨ b ∈ left) : ∃ order, Preorder next seen pending order := by
  classical
  -- The vertices that are left get fewer with each one visited, also in what is pending after it.
  induction hn : left.length using Nat.strong_induction_on generalizing left seen pending with
  | _ n ih =>
    induction pending generalizing left seen with
    | nil => exact ⟨[], .done⟩
    | cons a pending ihPending =>
        obtain ⟨first, later⟩ := List.forall_mem_cons.mp here
        by_cases ha : a ∈ seen
        · obtain ⟨order, h⟩ := ihPending left closed later hn
          exact ⟨order, .skip ha h⟩
        · have hleft : a ∈ left := first.resolve_left ha
          have shorter : (left.erase a).length < n := by
            have := List.length_pos_of_mem hleft
            rw [List.length_erase_of_mem hleft]
            omega
          have still : ∀ b, b ∈ seen ∨ b ∈ left → b ∈ insert a seen ∨ b ∈ left.erase a := by
            rintro b (hb | hb)
            · exact .inl (Set.mem_insert_of_mem a hb)
            · by_cases hba : b = a
              · exact .inl (.inl hba)
              · exact .inr ((List.mem_erase_of_ne hba).mpr hb)
          have closed' : ∀ x ∈ left.erase a, ∀ b ∈ next x, b ∈ insert a seen ∨ b ∈ left.erase a :=
            fun x hx b hb => still b (closed x (List.mem_of_mem_erase hx) b hb)
          obtain ⟨inner, inside⟩ :=
            ih _ shorter _ closed' (fun b hb => still b (closed a hleft b hb)) rfl
          have closed'' : ∀ x ∈ left.erase a, ∀ b ∈ next x,
              b ∈ insert a seen ∪ {x | x ∈ inner} ∨ b ∈ left.erase a :=
            fun x hx b hb => (closed' x hx b hb).imp_left .inl
          obtain ⟨outer, rest⟩ := ih _ shorter _ closed''
            (fun b hb => (still b (later b hb)).imp_left .inl) rfl
          exact ⟨_, .visit ha inside rest⟩

theorem exists_of_finite {cover : List α}
    (finite : ∀ a ∈ pending, ∀ c, Reaches next seen a c → c ∈ cover) :
    ∃ order, Preorder next seen pending order := by
  classical
  refine exists_of_closed (cover.filter fun c => ∃ a ∈ pending, Reaches next seen a c) ?_ ?_
  · intro x hx b hb
    obtain ⟨-, reached⟩ := List.mem_filter.mp hx
    obtain ⟨a, ha, r⟩ := of_decide_eq_true reached
    by_cases hs : b ∈ seen
    · exact .inl hs
    · have r' := r.trans (.step r.unseen.2 hb (.here hs))
      exact .inr (List.mem_filter.mpr ⟨finite a ha b r', decide_eq_true ⟨a, ha, r'⟩⟩)
  · intro b hb
    by_cases hs : b ∈ seen
    · exact .inl hs
    · have r : Reaches next seen b b := .here hs
      exact .inr (List.mem_filter.mpr ⟨finite b hb b r, decide_eq_true ⟨b, hb, r⟩⟩)

end Preorder

/-! ### Searches -/

section

variable {hit : α → Bool} {visits : List α} {result : Option α}

theorem Preorder.explores (hit : α → Bool) (h : Preorder next seen pending order) :
    ∃ visits, Explores next hit seen pending visits (order.find? hit) ∧
      (order.find? hit = none → visits = order) := by
  induction h with
  | done => exact ⟨[], .done, fun _ => rfl⟩
  | skip h _ ih =>
      obtain ⟨visits, explores, all⟩ := ih
      exact ⟨visits, .skip h explores, all⟩
  | @visit seen a pending inner outer h _ _ ihInside ihRest =>
      obtain ⟨visits, inside, allInside⟩ := ihInside
      obtain ⟨more, rest, allRest⟩ := ihRest
      cases ha : hit a with
      | true =>
          rw [List.find?_cons_of_pos ha]
          exact ⟨[a], .hit h ha, fun h => (nomatch h)⟩
      | false =>
          rw [List.find?_cons_of_neg (Bool.eq_false_iff.mp ha), List.find?_append]
          cases hi : inner.find? hit with
          | some d =>
              rw [hi] at inside
              exact ⟨a :: visits, .within h ha inside, fun h => (nomatch h)⟩
          | none =>
              rw [hi] at inside
              rw [allInside hi] at inside
              refine ⟨a :: (inner ++ more), .after h ha inside rest, fun none => ?_⟩
              rw [allRest none]

theorem seen_after (seen : Set α) (a : α) (inner outer : List α) :
    insert a seen ∪ {x | x ∈ inner} ∪ {x | x ∈ outer}
      = seen ∪ {x | x ∈ a :: (inner ++ outer)} := by
  ext x
  simp only [Set.mem_union, Set.mem_insert_iff, Set.mem_ofPred_eq, List.mem_cons, List.mem_append]
  tauto

namespace Explores

/-- A search without a hit goes through all there is. -/
theorem preorder (h : Explores next hit seen pending visits none) :
    Preorder next seen pending visits ∧ ∀ a ∈ visits, hit a = false := by
  generalize hr : (none : Option α) = result at h
  induction h with
  | done => exact ⟨.done, fun a ha => nomatch ha⟩
  | skip h _ ih => exact ⟨.skip h (ih hr).1, (ih hr).2⟩
  | hit _ _ => cases hr
  | within _ _ _ _ => cases hr
  | after h misses _ _ ihInside ihRest =>
      obtain ⟨inside, missesInside⟩ := ihInside rfl
      obtain ⟨rest, missesRest⟩ := ihRest hr
      refine ⟨.visit h inside rest, List.forall_mem_cons.mpr ⟨misses, fun a ha => ?_⟩⟩
      exact (List.mem_append.mp ha).elim (missesInside a) (missesRest a)

/-- A search ends with the first of its visits that hits. -/
theorem ends (h : Explores next hit seen pending visits result) {d : α} (hd : result = some d) :
    hit d = true ∧ (∃ before, visits = before ++ [d] ∧ ∀ a ∈ before, hit a = false) ∧
      ∃ a ∈ pending, Reaches next seen a d := by
  induction h with
  | done => cases hd
  | skip _ _ ih =>
      obtain ⟨hits, first, a, ha, r⟩ := ih hd
      exact ⟨hits, first, a, List.mem_cons_of_mem _ ha, r⟩
  | hit h hits =>
      cases hd
      exact ⟨hits, ⟨[], rfl, fun a ha => (nomatch ha)⟩, d, List.mem_cons_self .., .here h⟩
  | @within seen a _ _ _ h misses _ ih =>
      obtain ⟨hits, ⟨before, rfl, first⟩, b, hb, r⟩ := ih hd
      exact ⟨hits, ⟨a :: before, rfl, List.forall_mem_cons.mpr ⟨misses, first⟩⟩, a,
        List.mem_cons_self .., .step h hb (r.mono (Set.subset_insert a seen))⟩
  | @after seen a _ inner _ _ h misses inside _ _ ih =>
      obtain ⟨hits, ⟨before, rfl, first⟩, b, hb, r⟩ := ih hd
      refine ⟨hits, ⟨a :: (inner ++ before), by simp, ?_⟩, b, List.mem_cons_of_mem _ hb,
        r.mono fun x hx => .inl (Set.mem_insert_of_mem a hx)⟩
      refine List.forall_mem_cons.mpr ⟨misses, fun x hx => ?_⟩
      exact (List.mem_append.mp hx).elim (inside.preorder.2 x) (first x)

/-- A search comes to a hit if and only if one can be reached. -/
theorem isSome_iff (h : Explores next hit seen pending visits result) :
    result.isSome ↔ ∃ a ∈ pending, ∃ c, Reaches next seen a c ∧ hit c = true := by
  cases result with
  | some d =>
      obtain ⟨hits, -, a, ha, r⟩ := h.ends rfl
      exact iff_of_true rfl ⟨a, ha, d, r, hits⟩
  | none =>
      obtain ⟨order, misses⟩ := h.preorder
      refine iff_of_false Bool.false_ne_true fun ⟨a, ha, c, r, hits⟩ => ?_
      rw [misses c ((order.mem_iff c).mpr ⟨a, ha, r⟩)] at hits
      cases hits

theorem unique (h : Explores next hit seen pending visits result) {visits' : List α}
    {result' : Option α} (h' : Explores next hit seen pending visits' result') :
    visits = visits' ∧ result = result' := by
  induction h generalizing visits' result' with
  | done => cases h'; exact ⟨rfl, rfl⟩
  | skip h _ ih =>
      cases h' with
      | skip _ rest => exact ih rest
      | hit new _ | within new _ _ | after new _ _ _ => exact absurd h new
  | hit h hits =>
      cases h' with
      | skip old _ => exact absurd old h
      | hit _ _ => exact ⟨rfl, rfl⟩
      | within _ misses _ | after _ misses _ _ => rw [hits] at misses; cases misses
  | within h misses _ ih =>
      cases h' with
      | skip old _ => exact absurd old h
      | hit _ hits => rw [hits] at misses; cases misses
      | within _ _ inside =>
          obtain ⟨rfl, hd⟩ := ih inside
          exact ⟨rfl, hd⟩
      | after _ _ inside _ => cases (ih inside).2
  | after h misses _ _ ihInside ihRest =>
      cases h' with
      | skip old _ => exact absurd old h
      | hit _ hits => rw [hits] at misses; cases misses
      | within _ _ inside => cases (ihInside inside).2
      | after _ _ inside rest =>
          obtain ⟨rfl, -⟩ := ihInside inside
          obtain ⟨rfl, hr⟩ := ihRest rest
          exact ⟨rfl, hr⟩

theorem find? (h : Explores next hit seen pending visits result)
    (h' : Preorder next seen pending order) : order.find? hit = result := by
  obtain ⟨_, explores, -⟩ := h'.explores hit
  exact (explores.unique h).2

theorem exists_of_finite {cover : List α} (hit : α → Bool)
    (finite : ∀ a ∈ pending, ∀ c, Reaches next seen a c → c ∈ cover) :
    ∃ visits result, Explores next hit seen pending visits result := by
  obtain ⟨order, h⟩ := Preorder.exists_of_finite finite
  obtain ⟨visits, explores, -⟩ := h.explores hit
  exact ⟨visits, _, explores⟩

/-! ### One list of what is pending -/

/-- A search of pending vertices is the start of one with more of them. -/
theorem stacked_append (h : Explores next hit seen pending visits result) :
    (∀ d, result = some d → ∀ more, ∃ n, Stacked next hit n seen (pending ++ more) visits (some d)) ∧
    (result = none → ∀ more visits' result' m,
      Stacked next hit m (seen ∪ {x | x ∈ visits}) more visits' result' →
      ∃ n, Stacked next hit n seen (pending ++ more) (visits ++ visits') result') := by
  induction h with
  | done =>
      refine ⟨fun d hd => (nomatch hd), fun _ more visits' result' m h => ⟨m, ?_⟩⟩
      simpa using h
  | skip h _ ih =>
      refine ⟨fun d hd more => ?_, fun hr more visits' result' m h' => ?_⟩
      · obtain ⟨n, rest⟩ := ih.1 d hd more
        exact ⟨n + 1, .skip h rest⟩
      · obtain ⟨n, rest⟩ := ih.2 hr more visits' result' m h'
        exact ⟨n + 1, .skip h rest⟩
  | hit h hits =>
      refine ⟨fun d hd more => ?_, fun hr => (nomatch hr)⟩
      cases hd
      exact ⟨0, .hit h hits⟩
  | @within seen a pending inner d h misses _ ih =>
      refine ⟨fun d' hd more => ?_, fun hr => (nomatch hr)⟩
      obtain ⟨n, rest⟩ := ih.1 d' hd (pending ++ more)
      exact ⟨n + 1, .visit h misses rest⟩
  | @after seen a pending inner outer result h misses _ _ ihInside ihRest =>
      refine ⟨fun d hd more => ?_, fun hr more visits' result' m h' => ?_⟩
      · obtain ⟨n, rest⟩ := ihRest.1 d hd more
        obtain ⟨k, inside⟩ := ihInside.2 rfl _ _ _ n rest
        exact ⟨k + 1, .visit h misses inside⟩
      · rw [← seen_after] at h'
        obtain ⟨n, rest⟩ := ihRest.2 hr more visits' result' m h'
        obtain ⟨k, inside⟩ := ihInside.2 rfl _ _ _ n rest
        exact ⟨k + 1, by simpa using Stacked.visit h misses inside⟩

theorem stacked (h : Explores next hit seen pending visits result) :
    ∃ n, Stacked next hit n seen pending visits result := by
  cases result with
  | some d => simpa using h.stacked_append.1 d rfl []
  | none => simpa using h.stacked_append.2 rfl [] [] none 0 .done

end Explores

/-- A search with one list of what is pending comes to its hit from the first part of the list, or
goes through that part and on to the rest. -/
theorem Stacked.split {n : Nat} (more : List α)
    (h : Stacked next hit n seen (pending ++ more) visits result) :
    (∃ d, result = some d ∧ Explores next hit seen pending visits (some d)) ∨
    ∃ first rest m, m ≤ n ∧ visits = first ++ rest ∧ Explores next hit seen pending first none ∧
      Stacked next hit m (seen ∪ {x | x ∈ first}) more rest result := by
  induction n using Nat.strong_induction_on generalizing seen pending more visits result with
  | _ n ih =>
      cases pending with
      | nil => exact .inr ⟨[], visits, n, Nat.le_refl n, rfl, .done, by simpa using h⟩
      | cons a pending =>
          cases h with
          | hit ha hits => exact .inl ⟨a, rfl, .hit ha hits⟩
          | @skip k _ _ _ _ _ ha rest =>
              rcases ih k (Nat.lt_succ_self k) more rest with
                ⟨d, hd, explores⟩ | ⟨first, last, m, hm, hv, explores, rest⟩
              · exact .inl ⟨d, hd, .skip ha explores⟩
              · exact .inr ⟨first, last, m, Nat.le_succ_of_le hm, hv, .skip ha explores, rest⟩
          | @visit k _ _ _ visits _ ha misses rest =>
              -- The hit is in what the vertex leads to, or else in what is pending after it.
              rcases ih k (Nat.lt_succ_self k) _ rest with
                ⟨d, hd, inside⟩ | ⟨inner, _, m, hm, rfl, inside, rest⟩
              · exact .inl ⟨d, hd, .within ha misses inside⟩
              rcases ih m (Nat.lt_succ_of_le hm) more rest with
                ⟨d, rfl, outside⟩ | ⟨outer, last, m', hm', rfl, outside, rest⟩
              · exact .inl ⟨d, rfl, .after ha misses inside outside⟩
              · refine .inr ⟨a :: (inner ++ outer), last, m', by omega, by simp,
                  .after ha misses inside outside, ?_⟩
                rw [← seen_after]
                exact rest

theorem Stacked.explores {n : Nat} (h : Stacked next hit n seen pending visits result) :
    Explores next hit seen pending visits result := by
  rcases Stacked.split [] (by simpa using h) with
    ⟨d, rfl, explores⟩ | ⟨first, last, m, -, rfl, explores, rest⟩
  · exact explores
  · cases rest
    simpa using explores

/-- A walk does not end where each vertex leads first to another one that is new and misses. -/
theorem Stacked.not_of_line {line : Nat → α} (apart : Function.Injective line)
    (leads : ∀ n, ∃ others, next (line n) = line (n + 1) :: others)
    (misses : ∀ n, hit (line n) = false) {k n : Nat} (new : ∀ m, n ≤ m → line m ∉ seen) :
    ¬ Stacked next hit k seen (line n :: pending) visits result := by
  intro h
  generalize start : line n :: pending = stack at h
  induction h generalizing n pending with
  | done => cases start
  | skip old _ _ =>
      cases start
      exact new n (Nat.le_refl n) old
  | hit _ hits =>
      cases start
      rw [misses n] at hits
      cases hits
  | visit _ _ _ ih =>
      cases start
      obtain ⟨others, onward⟩ := leads n
      refine ih (n := n + 1) (fun m hm => ?_) (congrArg (· ++ _) onward).symm
      rintro (same | old)
      · exact absurd (apart same) (Nat.ne_of_gt hm)
      · exact new m (Nat.le_of_succ_le hm) old

/-! ### Several starts -/

namespace Explores

variable (left : List α) (closed : ∀ a ∈ left, ∀ b ∈ next a, b ∈ left)
  (misses : ∀ a ∈ left, hit a = false)
include closed misses

/-- Vertices that lead to no hit may as well not have been seen. -/
theorem unsee (h : Explores next hit seen pending visits result) (fewer : Set α)
    (hs : seen = fewer ∪ {x | x ∈ left}) :
    ∃ visits', Explores next hit fewer pending visits' result ∧
      ∀ x ∉ left, x ∈ visits' ↔ x ∈ visits := by
  induction h generalizing fewer with
  | done => exact ⟨[], .done, fun _ _ => Iff.rfl⟩
  | @skip seen a pending visits result h _ ih =>
      subst hs
      by_cases ha : a ∈ fewer
      · obtain ⟨visits', explores, same⟩ := ih fewer rfl
        exact ⟨visits', .skip ha explores, same⟩
      have hleft : a ∈ left := h.resolve_left ha
      -- What the search passed over is a search of its own, and stays among what leads to no hit.
      obtain ⟨inner, inside⟩ : ∃ inner, Preorder next (insert a fewer) (next a) inner :=
        Preorder.exists_of_closed left (fun x hx b hb => .inr (closed x hx b hb)) fun b hb =>
          .inr (closed a hleft b hb)
      have inner_left : ∀ x ∈ inner, x ∈ left := by
        intro x hx
        obtain ⟨b, hb, r⟩ := inside.reaches x hx
        exact r.mem_of_closed (fun y hy b hb => .inr (closed y hy b hb)) (closed a hleft b hb)
      have none : inner.find? hit = none :=
        List.find?_eq_none.mpr fun x hx => Bool.eq_false_iff.mp (misses x (inner_left x hx))
      obtain ⟨visits', explores, all⟩ := inside.explores hit
      rw [none, all none] at explores
      obtain ⟨outer, rest, same⟩ := ih (insert a fewer ∪ {x | x ∈ inner}) (by
        ext x
        simp only [Set.mem_union, Set.mem_insert_iff, Set.mem_ofPred_eq]
        grind)
      refine ⟨_, .after ha (misses a hleft) explores rest, fun x hx => ?_⟩
      rw [List.mem_cons, List.mem_append, same x hx]
      grind
  | hit h hits =>
      subst hs
      exact ⟨_, .hit (fun ha => h (.inl ha)) hits, fun _ _ => Iff.rfl⟩
  | @within seen a pending inner d h ha _ ih =>
      subst hs
      obtain ⟨inner', inside, same⟩ := ih (insert a fewer) (Set.insert_union ..).symm
      refine ⟨_, .within (fun ha => h (.inl ha)) ha inside, fun x hx => ?_⟩
      rw [List.mem_cons, List.mem_cons, same x hx]
  | @after seen a pending inner outer result h ha _ _ ihInside ihRest =>
      subst hs
      obtain ⟨inner', inside, sameInside⟩ := ihInside (insert a fewer) (Set.insert_union ..).symm
      obtain ⟨outer', rest, sameRest⟩ := ihRest (insert a fewer ∪ {x | x ∈ inner'}) (by
        ext x
        simp only [Set.mem_union, Set.mem_insert_iff, Set.mem_ofPred_eq]
        by_cases hx : x ∈ left
        · simp [hx]
        · rw [sameInside x hx]
          tauto)
      refine ⟨_, .after (fun ha => h (.inl ha)) ha inside rest, fun x hx => ?_⟩
      simp only [List.mem_cons, List.mem_append, sameInside x hx, sameRest x hx]

/-- The first start that leads to a hit decides, by itself. -/
theorem first_start (h : Explores next hit seen pending visits result)
    (hs : seen = {x | x ∈ left}) {d : α} (hd : result = some d) :
    ∃ before a after own, pending = before ++ a :: after ∧
      (∀ b ∈ before, ∀ c, Reaches next ∅ b c → hit c = false) ∧
      Explores next hit ∅ [a] own (some d) := by
  have lost {left : List α} (closed : ∀ a ∈ left, ∀ b ∈ next a, b ∈ left)
      (misses : ∀ a ∈ left, hit a = false) {a : α} (ha : a ∈ left) {c : α}
      (r : Reaches next ∅ a c) : hit c = false :=
    misses c (r.mem_of_closed (fun x hx b hb => .inr (closed x hx b hb)) ha)
  induction h generalizing left with
  | done => cases hd
  | @skip seen a pending visits result h _ ih =>
      subst hs
      obtain ⟨before, start, after, own, rfl, none, explores⟩ := ih left closed misses rfl hd
      exact ⟨a :: before, start, after, own, rfl,
        List.forall_mem_cons.mpr ⟨fun c r => lost closed misses h r, none⟩, explores⟩
  | @hit seen a pending h hits =>
      cases hd
      exact ⟨[], d, pending, [d], rfl, List.forall_mem_nil _, .hit (Set.notMem_empty d) hits⟩
  | @within seen a pending inner d' h ha inside _ =>
      cases hd
      subst hs
      obtain ⟨inner', inside', -⟩ := inside.unsee left closed misses (insert a ∅) (by
        rw [Set.insert_union, Set.empty_union])
      exact ⟨[], a, pending, _, rfl, List.forall_mem_nil _,
        .within (Set.notMem_empty a) ha inside'⟩
  | @after seen a pending inner outer result h ha inside _ _ ih =>
      subst hs
      obtain ⟨order, missesInside⟩ := inside.preorder
      have all : insert a {x | x ∈ left} ∪ {x | x ∈ inner} = {x | x ∈ a :: (inner ++ left)} := by
        ext x
        simp only [Set.mem_union, Set.mem_insert_iff, Set.mem_ofPred_eq, List.mem_cons,
          List.mem_append]
        tauto
      have back (b : α) (hb : b ∈ insert a {x | x ∈ left} ∨ b ∈ inner) :
          b ∈ a :: (inner ++ left) := all.subset hb
      have closed' : ∀ x ∈ a :: (inner ++ left), ∀ b ∈ next x, b ∈ a :: (inner ++ left) := by
        refine List.forall_mem_cons.mpr ⟨fun b hb => back b (order.covers b hb), ?_⟩
        intro x hx b hb
        rcases List.mem_append.mp hx with hx | hx
        · exact back b (order.closed x hx b hb)
        · exact back b (.inl (.inr (closed x hx b hb)))
      have misses' : ∀ x ∈ a :: (inner ++ left), hit x = false := by
        refine List.forall_mem_cons.mpr ⟨ha, fun x hx => ?_⟩
        exact (List.mem_append.mp hx).elim (missesInside x) (misses x)
      obtain ⟨before, start, after, own, rfl, none, explores⟩ := ih _ closed' misses' all hd
      refine ⟨a :: before, start, after, own, rfl, List.forall_mem_cons.mpr ⟨?_, none⟩, explores⟩
      exact fun c r => lost closed' misses' (List.mem_cons_self ..) r

end Explores

end
end Lineage.DepthFirst
