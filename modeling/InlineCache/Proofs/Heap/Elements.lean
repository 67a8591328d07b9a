import InlineCache.Proofs.Heap.Plain

/-! Elements by index.
The dense run and the sparse list together are one list in index order. A map in
index order is determined by what its indices give, so moving elements from the one
to the other goes unseen. -/

namespace InlineCache

namespace IndexMap

variable {m m' : IndexMap} {i : Nat} {p q : Property}

theorem distinct (m : IndexMap) : (m.entries.map (·.1)).Nodup :=
  List.pairwise_map.2 (m.ascending.imp fun h => Nat.ne_of_lt h)

theorem find?_eq_some : m.find? i = some q ↔ (i, q) ∈ m.entries :=
  lookup_eq_some_iff_mem m.distinct

theorem ext_find? (h : ∀ i, m.find? i = m'.find? i) : m = m' := by
  have hmem : ∀ e, e ∈ m.entries ↔ e ∈ m'.entries := by
    rintro ⟨i, q⟩
    rw [← find?_eq_some, ← find?_eq_some, h]
  have hperm : m.entries.Perm m'.entries :=
    (List.perm_ext_iff_of_nodup m.distinct.of_map m'.distinct.of_map).2 hmem
  apply IndexMap.ext
  apply hperm.eq_of_pairwise _ m.ascending m'.ascending
  intro e e' _ _ hlt hlt'
  omega

theorem find?_put (m : IndexMap) (i : Nat) (p : Property) (j : Nat) :
    (m.put i p).find? j = if j = i then some p else m.find? j := by
  apply Option.ext
  intro q
  rw [find?_eq_some]
  simp only [put, List.mem_append, List.mem_cons, List.mem_filter, decide_eq_true_eq,
    Prod.mk.injEq]
  by_cases hj : j = i
  · subst hj
    simp [eq_comm]
  · have hor : j < i ∨ i < j := by omega
    rw [if_neg hj, find?_eq_some]
    constructor
    · rintro (⟨he, -⟩ | ⟨he, -⟩ | ⟨he, -⟩)
      · exact he
      · exact absurd he hj
      · exact he
    · intro he
      rcases hor with hlt | hlt
      · exact .inl ⟨he, hlt⟩
      · exact .inr (.inr ⟨he, hlt⟩)

theorem find?_map (f : Property → Property) (m : IndexMap) (i : Nat) :
    (m.map f).find? i = (m.find? i).map f := by
  apply Option.ext
  intro q
  rw [find?_eq_some, Option.map_eq_some_iff]
  simp only [map, List.mem_map, Prod.mk.injEq, Prod.exists]
  constructor
  · rintro ⟨j, r, he, rfl, rfl⟩
    exact ⟨r, find?_eq_some.2 he, rfl⟩
  · rintro ⟨r, he, rfl⟩
    exact ⟨i, r, find?_eq_some.1 he, rfl, rfl⟩

theorem span_le {n : Nat} : m.span ≤ n ↔ ∀ i q, m.find? i = some q → i < n := by
  have hfold : ∀ (l : List (Nat × Property)) (a : Nat),
      l.foldl (fun n e => max n (e.1 + 1)) a ≤ n ↔ a ≤ n ∧ ∀ e ∈ l, e.1 < n := by
    intro l
    induction l with
    | nil => simp
    | cons e l ih =>
      intro a
      rw [List.foldl_cons, ih, List.forall_mem_cons, Nat.max_le, and_assoc]
      exact Iff.rfl
  simp only [span, hfold, Nat.zero_le, true_and, find?_eq_some, Prod.forall]

theorem lt_span (h : m.find? i = some q) : i < m.span :=
  span_le.1 (Nat.le_refl _) i q h

theorem span_put (m : IndexMap) (i : Nat) (p : Property) :
    (m.put i p).span = max m.span (i + 1) := by
  apply Nat.le_antisymm
  · rw [span_le]
    intro j q hj
    rw [find?_put] at hj
    split at hj
    · omega
    · have := lt_span hj
      omega
  · apply Nat.max_le.2
    constructor
    · rw [span_le]
      intro j q hj
      by_cases hji : j = i
      · apply lt_span (q := p)
        rw [find?_put, if_pos hji]
      · apply lt_span (q := q)
        rw [find?_put, if_neg hji, hj]
    · apply lt_span (q := p)
      rw [find?_put, if_pos rfl]

theorem span_map (f : Property → Property) (m : IndexMap) : (m.map f).span = m.span := by
  simp only [span, map, List.foldl_map]

end IndexMap

namespace ElementStore

variable {s : ElementStore} {i : Nat} {p : Property}

structure Ordered (s : ElementStore) : Prop where
  ascending : s.sparse.Pairwise (·.1 < ·.1)
  beyond : ∀ e ∈ s.sparse, s.dense.size ≤ e.1

def denseEntries (l : List (Option Property)) (n : Nat) : List (Nat × Property) :=
  (l.zipIdx n).filterMap fun e => e.1.map fun p => (e.2, p)

theorem denseEntries_cons (o : Option Property) (l : List (Option Property)) (n : Nat) :
    denseEntries (o :: l) n =
      (o.map fun p => (n, p)).toList ++ denseEntries l (n + 1) := by
  cases o <;> rfl

theorem denseEntries_bounds (l : List (Option Property)) (n : Nat) :
    ∀ e ∈ denseEntries l n, n ≤ e.1 ∧ e.1 < n + l.length := by
  induction l generalizing n with
  | nil => simp [denseEntries]
  | cons o l ih =>
    intro e he
    rw [denseEntries_cons, List.mem_append] at he
    rw [List.length_cons]
    rcases he with he | he
    · obtain ⟨q, -, rfl⟩ := Option.map_eq_some_iff.1 (Option.mem_toList.1 he)
      simp only
      omega
    · have := ih (n + 1) e he
      omega

theorem denseEntries_ascending (l : List (Option Property)) (n : Nat) :
    (denseEntries l n).Pairwise (·.1 < ·.1) := by
  induction l generalizing n with
  | nil => exact .nil
  | cons o l ih =>
    rw [denseEntries_cons]
    cases o with
    | none => exact ih (n + 1)
    | some q =>
      refine List.pairwise_cons.2 ⟨?_, ih (n + 1)⟩
      intro e he
      have := (denseEntries_bounds l (n + 1) e he).1
      simp only
      omega

theorem lookup_denseEntries (l : List (Option Property)) (n i : Nat) :
    (denseEntries l n).lookup i = if n ≤ i then l[i - n]?.join else none := by
  induction l generalizing n with
  | nil => simp [denseEntries]
  | cons o l ih =>
    rw [denseEntries_cons, List.lookup_append, ih]
    by_cases hi : i = n
    · subst hi
      have hlt : ¬ i + 1 ≤ i := by omega
      cases o <;> simp [hlt]
    · have hhead : ((o.map fun p => (n, p)).toList).lookup i = none := by
        cases o with
        | none => rfl
        | some q => simp [List.lookup_cons, beq_eq_false_iff_ne.2 hi]
      rw [hhead, Option.none_or]
      by_cases hle : n ≤ i
      · rw [if_pos (by omega), if_pos hle, show i - n = (i - (n + 1)) + 1 by omega,
          List.getElem?_cons_succ]
      · rw [if_neg (by omega), if_neg hle]

theorem toList_eq (s : ElementStore) : s.toList = denseEntries s.dense.toList 0 ++ s.sparse := rfl

theorem Ordered.toList_ascending (hs : s.Ordered) : s.toList.Pairwise (·.1 < ·.1) := by
  rw [toList_eq, List.pairwise_append]
  refine ⟨denseEntries_ascending _ 0, hs.ascending, ?_⟩
  intro e he e' he'
  have hlt := (denseEntries_bounds _ 0 e he).2
  have hle := hs.beyond e' he'
  rw [Array.length_toList] at hlt
  omega

theorem Ordered.lookup_toList (hs : s.Ordered) (i : Nat) : s.toList.lookup i = s.lookup? i := by
  rw [toList_eq, List.lookup_append, lookup_denseEntries, if_pos (Nat.zero_le i), Nat.sub_zero,
    Array.getElem?_toList]
  simp only [lookup?]
  split
  · next hi =>
    have hsparse : s.sparse.lookup i = none := by
      apply lookup_eq_none_of_not_mem
      intro hmem
      obtain ⟨e, he, rfl⟩ := List.mem_map.1 hmem
      have := hs.beyond e he
      omega
    rw [hsparse, Option.or_none]
  · next hi =>
    rw [Array.getElem?_eq_none (by omega)]
    rfl

def Ordered.indexMap (hs : s.Ordered) : IndexMap := ⟨s.toList, hs.toList_ascending⟩

theorem ordered_empty : ({} : ElementStore).Ordered where
  ascending := .nil
  beyond _ he := absurd he List.not_mem_nil

theorem Ordered.settle (hs : s.Ordered) (i : Nat) : (s.settle i).Ordered := by
  simp only [ElementStore.settle]
  split
  · constructor
    · exact hs.ascending.filter _
    · intro e he
      have hle : i + 1 ≤ e.1 := of_decide_eq_true (List.mem_filter.1 he).2
      simp only [extend, Array.size_append, List.size_toArray, List.length_map,
        List.length_range']
      omega
  · exact hs

theorem Ordered.toList_settle (hs : s.Ordered) (i : Nat) : (s.settle i).toList = s.toList := by
  have hmap : (hs.settle i).indexMap = hs.indexMap := by
    apply IndexMap.ext_find?
    intro j
    have hfind : (s.settle i).toList.lookup j = s.toList.lookup j := by
      rw [(hs.settle i).lookup_toList, hs.lookup_toList, s.lookup?_settle]
    exact hfind
  have hentries := congrArg IndexMap.entries hmap
  exact hentries

theorem mem_insertSparse {e : Nat × Property} {l : List (Nat × Property)}
    (he : e ∈ insertSparse i p l) : e = (i, p) ∨ e ∈ l := by
  induction l with
  | nil => exact .inl (List.mem_singleton.1 he)
  | cons e' l ih =>
    simp only [insertSparse] at he
    split at he
    · exact List.mem_cons.1 he
    · split at he
      · exact (List.mem_cons.1 he).imp_right (List.mem_cons_of_mem _)
      · rcases List.mem_cons.1 he with rfl | he
        · exact .inr List.mem_cons_self
        · exact (ih he).imp_right (List.mem_cons_of_mem _)

theorem insertSparse_ascending {l : List (Nat × Property)} (hl : l.Pairwise (·.1 < ·.1))
    (i : Nat) (p : Property) : (insertSparse i p l).Pairwise (·.1 < ·.1) := by
  induction l with
  | nil => exact List.pairwise_singleton _ _
  | cons e l ih =>
    obtain ⟨hhead, htail⟩ := List.pairwise_cons.1 hl
    simp only [insertSparse]
    split
    · next hlt =>
      refine List.pairwise_cons.2 ⟨?_, hl⟩
      intro e' he'
      rcases List.mem_cons.1 he' with rfl | he'
      · exact hlt
      · exact Nat.lt_trans hlt (hhead e' he')
    · split
      · next heq =>
        refine List.pairwise_cons.2 ⟨?_, htail⟩
        intro e' he'
        simp only [heq]
        exact hhead e' he'
      · refine List.pairwise_cons.2 ⟨?_, ih htail⟩
        intro e' he'
        rcases mem_insertSparse he' with rfl | he'
        · simp only
          omega
        · exact hhead e' he'

theorem Ordered.put (hs : s.Ordered) (i : Nat) (p : Property) : (s.put i p).Ordered := by
  simp only [ElementStore.put]
  split
  · refine ⟨hs.ascending, ?_⟩
    simpa only [Array.size_setIfInBounds] using hs.beyond
  · refine ⟨insertSparse_ascending hs.ascending i p, ?_⟩
    intro e he
    rcases mem_insertSparse he with rfl | he
    · simp only
      omega
    · exact hs.beyond e he

theorem Ordered.map (hs : s.Ordered) (f : Property → Property) : (s.map f).Ordered := by
  refine ⟨List.pairwise_map.2 hs.ascending, ?_⟩
  intro e he
  obtain ⟨e', he', rfl⟩ := List.mem_map.1 he
  simpa only [ElementStore.map, Array.size_map] using hs.beyond e' he'

end ElementStore

end InlineCache
