import InlineCache.Proofs.Heap.Probing

/-! Filing names.
A property goes over the entry of its key, or to the bucket where the probe for the key
ends. It is found again wherever that is; every other name is, as long as the buckets
have room for all names. -/

namespace InlineCache

theorem NameList.lookup_putEntry (k k' : PropertyKey) (d : Property)
    (l : List (PropertyKey × Property)) :
    (putEntry k d l).lookup k' = if k' = k then some d else l.lookup k' := by
  have hmap : ∀ l : List (PropertyKey × Property),
      (l.map fun e => if e.1 = k then (k, d) else e).lookup k' =
        if k' = k ∧ k ∈ l.map (·.1) then some d else l.lookup k' := by
    intro l
    induction l with
    | nil => simp
    | cons e l ih =>
      obtain ⟨j, q⟩ := e
      by_cases hj : j = k
      · subst hj
        by_cases hk : k' = j <;> simp [List.lookup_cons, hk, ih, beq_false_of_ne]
      · rw [List.map_cons, if_neg hj, List.lookup_cons, List.lookup_cons, ih]
        by_cases hk : k' = j
        · subst hk
          simp [hj]
        · simp only [beq_false_of_ne hk, List.map_cons, List.mem_cons, Ne.symm hj, false_or]
  simp only [putEntry]
  split
  · next hk => simp only [hmap, hk, and_true]
  · next hk =>
    rw [List.lookup_append]
    by_cases he : k' = k
    · subst he
      simp [lookup_eq_none_of_not_mem hk]
    · simp [he, List.lookup_cons, beq_false_of_ne he]

namespace NameTable

variable {t t' : NameTable} {k k' : PropertyKey} {d q : Property} {i b start left step : Nat}

theorem propertyAt?_setAt (hi : i < t.entries.size) : (t.setAt i d).propertyAt? i = some d := by
  simp only [propertyAt?, setAt, Array.getElem?_modify, if_true, Array.getElem?_eq_getElem hi,
    Option.map_some]

theorem locateFrom_congr (hbuckets : t'.buckets = t.buckets) (hkeys : t'.keys = t.keys)
    (start left step : Nat) :
    t'.locateFrom k start left step = t.locateFrom k start left step := by
  induction left generalizing step with
  | zero => simp only [locateFrom, hbuckets]
  | succ left ih => simp only [locateFrom, hbuckets, keyAt?_eq, hkeys, ih]

theorem locate_setAt (t : NameTable) (i : Nat) (d : Property) :
    (t.setAt i d).locate k = t.locate k :=
  locateFrom_congr (show (t.setAt i d).buckets = t.buckets from rfl) (t.keys_setAt i d) _ _ _

theorem locate_map (t : NameTable) (f : Property → Property) : (t.map f).locate k = t.locate k :=
  locateFrom_congr (show (t.map f).buckets = t.buckets from rfl) (t.keys_map f) _ _ _

theorem lookup?_map (t : NameTable) (f : Property → Property) (k : PropertyKey) :
    (t.map f).lookup? k = (t.lookup? k).map f := by
  simp only [lookup?, locate_map]
  cases (t.locate k).position? with
  | none => rfl
  | some i =>
    simp only [Option.bind_some, propertyAt?, map, Array.getElem?_map, Option.map_map]
    rfl

theorem keyAt?_of_locateFrom (h : (t.locateFrom k start left step).position? = some i) :
    t.keyAt? i = some k := by
  induction left generalizing step with
  | zero => cases h
  | succ left ih =>
    simp only [locateFrom] at h
    split at h
    · cases h
    · next j hj =>
      split at h
      · next hkey =>
        cases h
        exact hkey
      · exact ih h

theorem lt_of_locate (h : (t.locate k).position? = some i) : i < t.entries.size := by
  have hkey := keyAt?_of_locateFrom h
  rw [keyAt?_eq] at hkey
  rw [← length_keys]
  exact (List.getElem?_eq_some_iff.1 hkey).1

theorem locateFrom_bucket (h : (t.locateFrom k start left step).position? = none) :
    ∃ e, step ≤ e ∧ e ≤ step + left ∧
      (t.locateFrom k start left step).bucket = (start + e) % t.buckets.size := by
  induction left generalizing step with
  | zero => exact ⟨step, Nat.le_refl _, Nat.le_refl _, rfl⟩
  | succ left ih =>
    simp only [locateFrom] at h ⊢
    split
    · exact ⟨step, Nat.le_refl _, Nat.le_add_right _ _, rfl⟩
    · next j hj =>
      simp only [hj] at h
      split at h
      · cases h
      · next hkey =>
        obtain ⟨e, hle, hle', he⟩ := ih h
        rw [if_neg hkey]
        exact ⟨e, by omega, by omega, he⟩

theorem locateFrom_insertAt (hb : b < t.buckets.size)
    (h : (t.locateFrom k start left step).position? = none)
    (hbucket : (t.locateFrom k start left step).bucket = b)
    (hmeets : ∃ e, step ≤ e ∧ e < step + left ∧ (start + e) % t.buckets.size = b) :
    ((t.insertAt b k d).locateFrom k start left step).position? = some t.entries.size := by
  have hsize : (t.insertAt b k d).buckets.size = t.buckets.size := Array.size_setIfInBounds ..
  have hkeys : ∀ j, (t.insertAt b k d).keyAt? j =
      if j = t.entries.size then some k else t.keyAt? j := by
    intro j
    simp only [keyAt?, insertAt, Array.getElem?_push]
    split <;> rfl
  have hget : ∀ c, (t.insertAt b k d).buckets[c]? =
      if b = c then some (some t.entries.size) else t.buckets[c]? := by
    intro c
    simp only [insertAt, Array.getElem?_setIfInBounds, if_pos hb]
  induction left generalizing step with
  | zero =>
    obtain ⟨e, hle, hlt, -⟩ := hmeets
    omega
  | succ left ih =>
    simp only [locateFrom, hsize, hget] at h hbucket ⊢
    by_cases hc : b = (start + step) % t.buckets.size
    · rw [if_pos hc]
      simp [hkeys]
    · rw [if_neg hc]
      cases hj : (t.buckets[(start + step) % t.buckets.size]?).join with
      | none =>
        rw [hj] at hbucket
        exact absurd hbucket.symm hc
      | some j =>
        simp only [hj] at h hbucket ⊢
        by_cases hkey : t.keyAt? j = some k
        · rw [if_pos hkey] at h
          cases h
        · rw [if_neg hkey] at h hbucket
          -- a bucket may point past the entries, and then to the new one
          by_cases hlast : j = t.entries.size
          · simp [hkeys, hlast]
          · rw [hkeys, if_neg hlast, if_neg hkey]
            apply ih h hbucket
            obtain ⟨e, hle, hlt, he⟩ := hmeets
            have hne : e ≠ step := by
              rintro rfl
              exact hc he.symm
            exact ⟨e, by omega, by omega, he⟩

def file (t : NameTable) (k : PropertyKey) (d : Property) : NameTable :=
  match (t.locate k).position? with
  | some i => t.setAt i d
  | none => t.insertAt (t.locate k).bucket k d

theorem lookup?_file_self (hsize : 0 < t.buckets.size) : (t.file k d).lookup? k = some d := by
  simp only [file]
  cases hp : (t.locate k).position? with
  | some i =>
    simp only [lookup?, locate_setAt, hp]
    exact propertyAt?_setAt (lt_of_locate hp)
  | none =>
    obtain ⟨e, -, hle, he⟩ := locateFrom_bucket hp
    have hb : (t.locate k).bucket < t.buckets.size := by
      rw [locate, he]
      exact Nat.mod_lt _ hsize
    -- in a full table the probe has come around to its first bucket
    have hmeets : ∃ e, 0 ≤ e ∧ e < 0 + t.buckets.size ∧
        (home t.buckets.size k + e) % t.buckets.size = (t.locate k).bucket := by
      rcases Nat.lt_or_ge e t.buckets.size with hlt | hge
      · exact ⟨e, Nat.zero_le e, by omega, he.symm⟩
      · refine ⟨0, Nat.le_refl 0, by omega, ?_⟩
        rw [locate, he, show e = t.buckets.size by omega, Nat.add_mod_right, Nat.add_zero]
    have hsame : (t.insertAt (t.locate k).bucket k d).buckets.size = t.buckets.size :=
      Array.size_setIfInBounds ..
    have hfound : ((t.insertAt (t.locate k).bucket k d).locate k).position? =
        some t.entries.size := by
      rw [locate, hsame]
      exact locateFrom_insertAt hb hp rfl hmeets
    simp only [lookup?, hfound]
    simp [propertyAt?, insertAt]

theorem rebuild_size (t : NameTable) (count : Nat) : (t.rebuild count).buckets.size = count := by
  have hfold : ∀ (l : List ((PropertyKey × Property) × Nat)) (buckets : Array (Option Nat)),
      (l.foldl enter buckets).size = buckets.size := by
    intro l
    induction l with
    | nil => exact fun _ => rfl
    | cons e l ih =>
      intro buckets
      rw [List.foldl_cons, ih, enter_size]
  simp only [rebuild, hfold, Array.size_replicate]

theorem roomy_buckets_size (t : NameTable) :
    t.roomy.buckets.size =
      if t.crowded then min (t.buckets.size * 2) maxBuckets else t.buckets.size := by
  simp only [roomy]
  split
  · exact rebuild_size _ _
  · rfl

theorem roomy_buckets_pos (hsize : 0 < t.buckets.size) : 0 < t.roomy.buckets.size := by
  rw [roomy_buckets_size]
  split
  · exact Nat.lt_min.2 ⟨by omega, by decide⟩
  · exact hsize

theorem roomy_buckets_le (ht : t.buckets.size ≤ maxBuckets) :
    t.roomy.buckets.size ≤ maxBuckets := by
  rw [roomy_buckets_size]
  split
  · exact Nat.min_le_right _ _
  · exact ht

theorem file_buckets_size (t : NameTable) (k : PropertyKey) (d : Property) :
    (t.file k d).buckets.size = t.buckets.size := by
  simp only [file]
  split
  · rfl
  · exact Array.size_setIfInBounds ..

theorem size_le_file (t : NameTable) (k : PropertyKey) (d : Property) :
    t.entries.size ≤ (t.file k d).entries.size := by
  simp only [file]
  split
  · simp only [setAt, Array.size_modify, Nat.le_refl]
  · simp only [insertAt, Array.size_push, Nat.le_succ]

theorem not_mem_of_locate (ht : t.Filed) (h : (t.locate k).position? = none) : k ∉ t.keys := by
  intro hk
  obtain ⟨i, hi⟩ := List.mem_iff_getElem?.1 hk
  rw [ht.locate_of_mem hi] at h
  cases h

theorem size_file_of_lookup? (hq : t.lookup? k = some q) :
    (t.file k d).entries.size = t.entries.size := by
  simp only [file]
  cases hp : (t.locate k).position? with
  | some i => simp only [setAt, Array.size_modify]
  | none =>
    rw [lookup?, hp] at hq
    cases hq

theorem Filed.file (ht : t.Filed) (hroom : (t.file k d).entries.size ≤ t.buckets.size) :
    (t.file k d).Filed := by
  simp only [NameTable.file] at hroom ⊢
  cases hp : (t.locate k).position? with
  | some i => exact ht.setAt i d
  | none =>
    simp only [hp, NameTable.insertAt, Array.size_push] at hroom
    exact ht.insertAt (not_mem_of_locate ht hp) hroom d

theorem Filed.lookup?_file (ht : t.Filed) (hroom : (t.file k d).entries.size ≤ t.buckets.size)
    (k' : PropertyKey) :
    (t.file k d).lookup? k' = if k' = k then some d else t.lookup? k' := by
  have hlist : (t.file k d).toList = NameList.putEntry k d t.toList := by
    simp only [NameTable.file]
    cases hp : (t.locate k).position? with
    | some i =>
      have hkey := keyAt?_of_locateFrom hp
      rw [keyAt?_eq] at hkey
      exact ht.toList_setAt hkey d
    | none => exact toList_insertAt (not_mem_of_locate ht hp) _ d
  rw [(ht.file hroom).lookup?_eq, hlist, NameList.lookup_putEntry, ht.lookup?_eq]

theorem Filed.lookup?_roomy (ht : t.Filed) (k : PropertyKey) : t.roomy.lookup? k = t.lookup? k := by
  rw [ht.roomy.lookup?_eq, toList_roomy, ht.lookup?_eq]

theorem Filed.room (ht : t.Filed) (hsize : (t.roomy.file k d).entries.size ≤ maxBuckets) :
    (t.roomy.file k d).entries.size ≤ t.roomy.buckets.size := by
  simp only [NameTable.file] at hsize ⊢
  cases hp : (t.roomy.locate k).position? with
  | some i =>
    simp only [NameTable.setAt, Array.size_modify]
    exact ht.roomy.size_le_buckets
  | none =>
    simp only [hp, NameTable.insertAt, Array.size_push, size_roomy] at hsize ⊢
    exact ht.roomy_vacant hsize

inductive Revision (t : NameTable) : NameTable → Prop
  | same : Revision t t
  | roomy : Revision t t.roomy
  | filed (k : PropertyKey) (d : Property) (hk : k.place = .name k) :
      Revision t (t.roomy.file k d)
  | refiled (k : PropertyKey) (d q : Property) (hq : t.lookup? k = some q) :
      Revision t (t.file k d)
  | mapped (f : Property → Property) : Revision t (t.map f)

theorem Revision.size_le (hr : t.Revision t') : t.entries.size ≤ t'.entries.size := by
  cases hr with
  | same => exact Nat.le_refl _
  | roomy => exact Nat.le_of_eq t.size_roomy.symm
  | filed k d hk => exact t.size_roomy ▸ t.roomy.size_le_file k d
  | refiled k d q hq => exact t.size_le_file k d
  | mapped f => exact Nat.le_of_eq Array.size_map.symm

end NameTable

end InlineCache
