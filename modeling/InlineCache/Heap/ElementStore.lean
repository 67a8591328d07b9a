import InlineCache.Heap.Property

/-! Indexed properties of one object.
A dense run from index 0 may have holes; elements far beyond it stand in an
ascending sparse list, and move into the run when it grows past them. -/

namespace InlineCache

structure ElementStore where
  dense : Array (Option Property) := #[]
  sparse : List (Nat × Property) := []
deriving DecidableEq

namespace ElementStore

/-- The largest distance past the dense run at which a write still extends it. -/
def gapLimit : Nat := 64

def lookup? (s : ElementStore) (i : Nat) : Option Property :=
  if i < s.dense.size then s.dense[i]?.join else s.sparse.lookup i

def extend (s : ElementStore) (size : Nat) : ElementStore where
  dense := s.dense ++
    ((List.range' s.dense.size (size - s.dense.size)).map fun i => s.sparse.lookup i).toArray
  sparse := s.sparse.filter fun e => size ≤ e.1

def settle (s : ElementStore) (i : Nat) : ElementStore :=
  if s.dense.size ≤ i ∧ i - s.dense.size ≤ gapLimit then s.extend (i + 1) else s

def insertSparse (i : Nat) (p : Property) : List (Nat × Property) → List (Nat × Property)
  | [] => [(i, p)]
  | e :: rest =>
    if i < e.1 then (i, p) :: e :: rest
    else if i = e.1 then (i, p) :: rest
    else e :: insertSparse i p rest

def put (s : ElementStore) (i : Nat) (p : Property) : ElementStore :=
  if i < s.dense.size then { s with dense := s.dense.setIfInBounds i (some p) }
  else { s with sparse := insertSparse i p s.sparse }

def spills (s : ElementStore) (i : Nat) : Bool :=
  decide (s.dense.size ≤ i) && (s.sparse.lookup i).isNone

def map (f : Property → Property) (s : ElementStore) : ElementStore where
  dense := s.dense.map (·.map f)
  sparse := s.sparse.map fun e => (e.1, f e.2)

def toList (s : ElementStore) : List (Nat × Property) :=
  (s.dense.toList.zipIdx.filterMap fun e => e.1.map fun p => (e.2, p)) ++ s.sparse

theorem lookup_filter (l : List (Nat × Property)) {n j : Nat} (h : n ≤ j) :
    (l.filter fun e => decide (n ≤ e.1)).lookup j = l.lookup j := by
  induction l with
  | nil => rfl
  | cons e l ih =>
    obtain ⟨k, q⟩ := e
    by_cases hk : n ≤ k
    · simp [hk, List.lookup_cons, ih]
    · have hj : (j == k) = false := beq_false_of_ne (by omega)
      simp [hk, List.lookup_cons, hj, ih]

theorem lookup?_settle (s : ElementStore) (i j : Nat) : (s.settle i).lookup? j = s.lookup? j := by
  simp only [settle]
  split
  · next h =>
    simp only [lookup?, extend, Array.size_append, List.size_toArray, List.length_map,
      List.length_range']
    by_cases hj : j < s.dense.size
    · rw [if_pos (by omega), if_pos hj, Array.getElem?_append_left hj]
    · by_cases hi : j < i + 1
      · rw [if_pos (by omega), if_neg hj, Array.getElem?_append_right (by omega)]
        simp [show j - s.dense.size < i + 1 - s.dense.size by omega,
          show s.dense.size + (j - s.dense.size) = j by omega]
      · rw [if_neg (by omega), if_neg hj, lookup_filter _ (by omega)]
  · rfl

theorem lookup_insertSparse (i j : Nat) (p : Property) (l : List (Nat × Property)) :
    (insertSparse i p l).lookup j = if j = i then some p else l.lookup j := by
  induction l with
  | nil => by_cases h : j = i <;> simp [insertSparse, List.lookup_cons, h, beq_false_of_ne]
  | cons e l ih =>
    obtain ⟨k, q⟩ := e
    simp only [insertSparse]
    by_cases h : j = i
    · subst h
      split
      · simp
      · split
        · simp
        · next hk => simp [List.lookup_cons, beq_false_of_ne hk, ih]
    · split
      · simp [List.lookup_cons, beq_false_of_ne h]
      · split
        · next hk => simp [List.lookup_cons, ← hk, beq_false_of_ne h]
        · simp [List.lookup_cons, h, ih]

theorem lookup?_put (s : ElementStore) (i j : Nat) (p : Property) :
    (s.put i p).lookup? j = if j = i then some p else s.lookup? j := by
  simp only [put]
  split
  · next h =>
    by_cases hj : j = i
    · subst hj
      simp [lookup?, h]
    · simp [lookup?, hj, Array.getElem?_setIfInBounds_ne (Ne.symm hj)]
  · next h =>
    simp only [lookup?, lookup_insertSparse]
    by_cases hj : j = i
    · subst hj
      simp [h]
    · simp [hj]

theorem lookup?_map (f : Property → Property) (s : ElementStore) (i : Nat) :
    (s.map f).lookup? i = (s.lookup? i).map f := by
  have hl : ∀ l : List (Nat × Property),
      (l.map fun e => (e.1, f e.2)).lookup i = (l.lookup i).map f := by
    intro l
    induction l with
    | nil => rfl
    | cons e l ih =>
      obtain ⟨k, q⟩ := e
      cases h : i == k <;> simp [List.lookup_cons, h, ih]
  simp only [lookup?, map, Array.size_map]
  split
  · next h => cases hd : s.dense[i] <;> simp [h, hd]
  · exact hl s.sparse

end ElementStore

end InlineCache
