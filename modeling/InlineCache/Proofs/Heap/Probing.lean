import InlineCache.Proofs.Heap.Plain

/-! Probing for names.
Every key is reached from its home bucket without crossing an empty bucket, and
there always is an empty bucket. So a probe ends at the position of its key, or at
the bucket where the key would go, and the buckets are no more than an index. -/

namespace InlineCache

namespace NameTable

variable {buckets : Array (Option Nat)} {ks : List PropertyKey} {k : PropertyKey} {p : Property}
  {start left step d i : Nat} {t : NameTable}

def Taken (buckets : Array (Option Nat)) (b : Nat) : Prop := ∃ i, buckets[b]? = some (some i)

structure Indexes (buckets : Array (Option Nat)) (ks : List PropertyKey) : Prop where
  in_range : ∀ b i : Nat, buckets[b]? = some (some i) → i < ks.length
  unique : ∀ b c i : Nat, buckets[b]? = some (some i) → buckets[c]? = some (some i) → b = c
  path : ∀ (i : Nat) (k : PropertyKey), ks[i]? = some k → ∃ d < buckets.size,
    buckets[(home buckets.size k + d) % buckets.size]? = some (some i) ∧
      ∀ e < d, Taken buckets ((home buckets.size k + e) % buckets.size)
  count : buckets.countP Option.isSome = ks.length

theorem add_sub_mod {b size : Nat} (start : Nat) (hb : b < size) :
    (start + (b + size - start % size) % size) % size = b := by
  have hmod : start % size < size := Nat.mod_lt _ (by omega)
  have hsum : start + (b + size - start % size) = b + size * (start / size + 1) := by
    have := Nat.div_add_mod start size
    rw [Nat.mul_add, Nat.mul_one]
    omega
  rw [Nat.add_mod_mod, hsum, Nat.add_mul_mod_self_left, Nat.mod_eq_of_lt hb]

/-- While there are more buckets than keys, every walk around them meets an empty one. -/
theorem Indexes.exists_vacant (hi : Indexes buckets ks) (hlt : ks.length < buckets.size)
    (start : Nat) : ∃ d < buckets.size, buckets[(start + d) % buckets.size]? = some none := by
  have hne : buckets.countP Option.isSome ≠ buckets.size := by
    have := hi.count
    omega
  rw [ne_eq, Array.countP_eq_size, not_forall] at hne
  obtain ⟨o, ho⟩ := hne
  rw [Classical.not_imp, Option.not_isSome_iff_eq_none] at ho
  obtain ⟨hmem, rfl⟩ := ho
  obtain ⟨b, hb, hget⟩ := Array.getElem_of_mem hmem
  refine ⟨(b + buckets.size - start % buckets.size) % buckets.size,
    Nat.mod_lt _ (by omega), ?_⟩
  rw [add_sub_mod start hb, Array.getElem?_eq_getElem hb, hget]

theorem getElem?_mod (hsize : 0 < buckets.size) (n : Nat) :
    ∃ o, buckets[n % buckets.size]? = some o :=
  ⟨_, Array.getElem?_eq_getElem (Nat.mod_lt n hsize)⟩

theorem vacancyFrom_spec (start left step : Nat) (hsize : 0 < buckets.size)
    (hvacant : ∃ e, step ≤ e ∧ e < step + left ∧
      buckets[(start + e) % buckets.size]? = some none) :
    ∃ d, step ≤ d ∧ d < step + left ∧
      vacancyFrom buckets start left step = (start + d) % buckets.size ∧
      buckets[(start + d) % buckets.size]? = some none ∧
      ∀ e, step ≤ e → e < d → Taken buckets ((start + e) % buckets.size) := by
  induction left generalizing step with
  | zero =>
    obtain ⟨e, hle, hlt, -⟩ := hvacant
    omega
  | succ left ih =>
    obtain ⟨e, hle, hlt, he⟩ := hvacant
    obtain ⟨o, ho⟩ := getElem?_mod hsize (start + step)
    cases o with
    | none =>
      refine ⟨step, Nat.le_refl _, by omega, ?_, ho, fun e hle hlt => absurd hlt (by omega)⟩
      simp only [vacancyFrom, ho]
      rfl
    | some i =>
      have hstep : e ≠ step := by
        rintro rfl
        rw [ho] at he
        cases he
      obtain ⟨d, hd, hdl, hv, hempty, hpath⟩ :=
        ih (step + 1) ⟨e, by omega, by omega, he⟩
      refine ⟨d, by omega, by omega, ?_, hempty, ?_⟩
      · rw [← hv]
        simp only [vacancyFrom, ho]
        rfl
      · intro e' hle' hlt'
        by_cases he' : e' = step
        · exact he' ▸ ⟨i, ho⟩
        · exact hpath e' (by omega) hlt'

theorem Indexes.vacancy (hi : Indexes buckets ks) (hlt : ks.length < buckets.size)
    (start : Nat) :
    ∃ d < buckets.size,
      vacancyFrom buckets start buckets.size 0 = (start + d) % buckets.size ∧
      buckets[(start + d) % buckets.size]? = some none ∧
      ∀ e < d, Taken buckets ((start + e) % buckets.size) := by
  obtain ⟨e, he, hvacant⟩ := hi.exists_vacant hlt start
  obtain ⟨d, -, hd, hv, hempty, hpath⟩ := vacancyFrom_spec start buckets.size 0
    (by omega) ⟨e, Nat.zero_le _, by omega, hvacant⟩
  exact ⟨d, by omega, hv, hempty, fun e he => hpath e (Nat.zero_le e) he⟩

theorem Indexes.enter (hi : Indexes buckets ks) (hlt : ks.length < buckets.size)
    (k : PropertyKey) (p : Property) :
    Indexes (enter buckets ((k, p), ks.length)) (ks ++ [k]) := by
  have hsize : 0 < buckets.size := by omega
  obtain ⟨d, hd, hv, hempty, hpath⟩ := hi.vacancy hlt (home buckets.size k)
  have hb : (home buckets.size k + d) % buckets.size < buckets.size := Nat.mod_lt _ hsize
  have hset : ∀ b, (NameTable.enter buckets ((k, p), ks.length))[b]? =
      if (home buckets.size k + d) % buckets.size = b then some (some ks.length)
      else buckets[b]? := by
    intro b
    simp only [NameTable.enter, hv, Array.getElem?_setIfInBounds, if_pos hb]
  have htaken : ∀ b, Taken buckets b →
      Taken (NameTable.enter buckets ((k, p), ks.length)) b := by
    rintro b ⟨i, hb⟩
    refine ⟨i, ?_⟩
    rw [hset, if_neg, hb]
    rintro rfl
    rw [hempty] at hb
    cases hb
  have hsame : (NameTable.enter buckets ((k, p), ks.length)).size = buckets.size := by
    simp only [NameTable.enter, Array.size_setIfInBounds]
  constructor
  · intro b i hbi
    rw [List.length_append, List.length_singleton]
    rw [hset] at hbi
    split at hbi
    · cases hbi
      exact Nat.lt_succ_self _
    · exact Nat.lt_succ_of_lt (hi.in_range b i hbi)
  · intro b c i hbi hci
    rw [hset] at hbi hci
    split at hbi <;> split at hci
    · next hb' hc' => exact hb'.symm.trans hc'
    · cases hbi
      exact absurd (hi.in_range c _ hci) (Nat.lt_irrefl _)
    · cases hci
      exact absurd (hi.in_range b _ hbi) (Nat.lt_irrefl _)
    · exact hi.unique b c i hbi hci
  · intro i k' hk'
    rw [hsame]
    by_cases hlast : i < ks.length
    · rw [List.getElem?_append_left hlast] at hk'
      obtain ⟨d', hd', hget, hpath'⟩ := hi.path i k' hk'
      obtain ⟨j, hj⟩ := htaken _ ⟨i, hget⟩
      refine ⟨d', hd', ?_, fun e he => htaken _ (hpath' e he)⟩
      rw [hset, if_neg, hget]
      intro he
      rw [← he, hempty] at hget
      cases hget
    · have hlen : i < (ks ++ [k]).length := (List.getElem?_eq_some_iff.1 hk').1
      rw [List.length_append, List.length_singleton] at hlen
      obtain rfl : i = ks.length := by omega
      rw [List.getElem?_append_right (Nat.le_refl _), Nat.sub_self, List.getElem?_cons_zero,
        Option.some.injEq] at hk'
      subst hk'
      refine ⟨d, hd, ?_, fun e he => htaken _ (hpath e he)⟩
      rw [hset, if_pos rfl]
  · have hget := (Array.getElem?_eq_some_iff.1 hempty).2
    simp only [NameTable.enter, hv]
    rw [Array.setIfInBounds_def, dif_pos hb, Array.countP_set hb, hget, hi.count,
      List.length_append]
    rfl

theorem enter_size (entry : (PropertyKey × Property) × Nat) :
    (enter buckets entry).size = buckets.size := by
  simp only [enter, Array.size_setIfInBounds]

theorem Indexes.enter_all (hi : Indexes buckets ks) (l : List (PropertyKey × Property))
    (hlt : ks.length + l.length ≤ buckets.size) :
    Indexes ((l.zipIdx ks.length).foldl NameTable.enter buckets) (ks ++ l.map (·.1)) ∧
      ((l.zipIdx ks.length).foldl NameTable.enter buckets).size = buckets.size := by
  induction l generalizing buckets ks with
  | nil => simpa using hi
  | cons e l ih =>
    obtain ⟨k, p⟩ := e
    rw [List.length_cons] at hlt
    have hnext := ih (hi.enter (by omega) k p)
      (by rw [enter_size, List.length_append, List.length_singleton]; omega)
    rw [enter_size, List.length_append, List.length_singleton, List.append_assoc] at hnext
    exact hnext

theorem indexes_nil (count : Nat) : Indexes (Array.replicate count none) [] where
  in_range b i hb := by
    rw [Array.getElem?_replicate] at hb
    split at hb <;> cases hb
  unique b c i hb := by
    rw [Array.getElem?_replicate] at hb
    split at hb <;> cases hb
  path i k hk := by
    rw [List.getElem?_nil] at hk
    cases hk
  count := by simp [Array.countP_replicate]

theorem indexes_of_entries (l : List (PropertyKey × Property)) {count : Nat}
    (hlt : l.length ≤ count) :
    Indexes (l.zipIdx.foldl enter (Array.replicate count none)) (l.map (·.1)) ∧
      (l.zipIdx.foldl enter (Array.replicate count none)).size = count := by
  have hall := (indexes_nil count).enter_all l (by simpa [Array.size_replicate] using hlt)
  rw [Array.size_replicate] at hall
  exact hall

def keys (t : NameTable) : List PropertyKey := t.toList.map (·.1)

theorem keyAt?_eq (t : NameTable) (i : Nat) : t.keyAt? i = t.keys[i]? := by
  simp [keyAt?, keys, toList]

theorem length_keys (t : NameTable) : t.keys.length = t.entries.size := by
  simp [keys, toList]

theorem indexes_rebuild (t : NameTable) (count : Nat) (hlt : t.entries.size ≤ count) :
    Indexes (t.rebuild count).buckets t.keys ∧ (t.rebuild count).buckets.size = count :=
  indexes_of_entries t.entries.toList hlt

theorem bucket_of_locateFrom_none (h : (t.locateFrom k start left step).position? = none) :
    (t.locateFrom k start left step).bucket = vacancyFrom t.buckets start left step := by
  induction left generalizing step with
  | zero => rfl
  | succ left ih =>
    simp only [locateFrom, vacancyFrom] at h ⊢
    cases hj : t.buckets[(start + step) % t.buckets.size]?.join with
    | none => rfl
    | some i =>
      simp only [hj] at h
      by_cases hkey : t.keyAt? i = some k
      · rw [if_pos hkey] at h
        cases h
      · rw [if_neg hkey] at h
        simp only [if_neg hkey]
        exact ih h

theorem locateFrom_of_not_mem (hk : k ∉ t.keys) (start left step : Nat) :
    (t.locateFrom k start left step).position? = none := by
  induction left generalizing step with
  | zero => rfl
  | succ left ih =>
    simp only [locateFrom]
    cases t.buckets[(start + step) % t.buckets.size]?.join with
    | none => rfl
    | some i =>
      have hne : t.keyAt? i ≠ some k := by
        rw [keyAt?_eq]
        exact fun he => hk (List.mem_of_getElem? he)
      simp only [if_neg hne]
      exact ih (step + 1)

theorem locateFrom_of_path (hdistinct : t.keys.Nodup) (hk : t.keys[i]? = some k)
    (start left step : Nat) {d : Nat} (hle : step ≤ d) (hlt : d < step + left)
    (hget : t.buckets[(start + d) % t.buckets.size]? = some (some i))
    (hpath : ∀ e, step ≤ e → e < d → Taken t.buckets ((start + e) % t.buckets.size)) :
    (t.locateFrom k start left step).position? = some i := by
  induction left generalizing step with
  | zero => omega
  | succ left ih =>
    have htaken : Taken t.buckets ((start + step) % t.buckets.size) := by
      by_cases hd : step = d
      · exact ⟨i, hd ▸ hget⟩
      · exact hpath step (Nat.le_refl _) (by omega)
    obtain ⟨j, hj⟩ := htaken
    simp only [locateFrom, hj, Option.join_some]
    by_cases hkey : t.keyAt? j = some k
    · rw [if_pos hkey]
      rw [keyAt?_eq] at hkey
      have hlen := (List.getElem?_eq_some_iff.1 hk).1
      exact congrArg some ((List.getElem?_inj hlen hdistinct).1 (hk.trans hkey.symm)).symm
    · rw [if_neg hkey]
      have hd : step ≠ d := by
        rintro rfl
        rw [hj, Option.some.injEq, Option.some.injEq] at hget
        rw [hget, keyAt?_eq] at hkey
        exact hkey hk
      exact ih (step + 1) (by omega) (by omega) fun e hle hlt => hpath e (by omega) hlt

structure Filed (t : NameTable) : Prop where
  distinct : t.keys.Nodup
  indexes : Indexes t.buckets t.keys
  size_ge : initialBuckets ≤ t.buckets.size
  size_le : t.buckets.size ≤ maxBuckets

structure Indexed (t : NameTable) : Prop extends Filed t where
  load : 5 * t.entries.size ≤ 3 * t.buckets.size

theorem filed_empty : empty.Filed where
  distinct := List.nodup_nil
  indexes := indexes_nil initialBuckets
  size_ge := by simp [empty]
  size_le := by simp [empty, initialBuckets, maxBuckets]

theorem indexed_empty : empty.Indexed where
  toFiled := filed_empty
  load := by simp [empty]

theorem Filed.size_le_buckets (ht : t.Filed) : t.entries.size ≤ t.buckets.size := by
  rw [← length_keys, ← ht.indexes.count]
  exact Array.countP_le_size

theorem Indexed.lt_size (ht : t.Indexed) : t.entries.size < t.buckets.size := by
  have hload := ht.load
  have hsize := ht.size_ge
  simp only [initialBuckets] at hsize
  omega

theorem Indexes.locate_of_mem (hi : Indexes t.buckets t.keys) (hdistinct : t.keys.Nodup)
    (hk : t.keys[i]? = some k) : (t.locate k).position? = some i := by
  obtain ⟨d, hd, hget, hpath⟩ := hi.path i k hk
  exact locateFrom_of_path hdistinct hk _ _ 0 (Nat.zero_le d) (by omega) hget
    fun e _ he => hpath e he

theorem Filed.locate_of_mem (ht : t.Filed) (hk : t.keys[i]? = some k) :
    (t.locate k).position? = some i :=
  ht.indexes.locate_of_mem ht.distinct hk

theorem locate_of_not_mem (hk : k ∉ t.keys) :
    (t.locate k).position? = none ∧
      (t.locate k).bucket = vacancyFrom t.buckets (home t.buckets.size k) t.buckets.size 0 :=
  ⟨locateFrom_of_not_mem hk _ _ 0, bucket_of_locateFrom_none (locateFrom_of_not_mem hk _ _ 0)⟩

theorem Filed.lookup?_eq (ht : t.Filed) (k : PropertyKey) :
    t.lookup? k = t.toList.lookup k := by
  simp only [lookup?]
  by_cases hk : k ∈ t.keys
  · obtain ⟨i, hi⟩ := List.mem_iff_getElem?.1 hk
    rw [ht.locate_of_mem hi]
    rw [keys, List.getElem?_map, Option.map_eq_some_iff] at hi
    obtain ⟨e, he, rfl⟩ := hi
    rw [(lookup_eq_some_iff_mem ht.distinct).2 (List.mem_of_getElem? he)]
    have hget : t.entries[i]? = some e := by simpa [toList] using he
    simp [propertyAt?, hget]
  · rw [(locate_of_not_mem hk).1, lookup_eq_none_of_not_mem hk]
    rfl

theorem toList_roomy (t : NameTable) : t.roomy.toList = t.toList := by
  simp only [roomy]
  split <;> rfl

theorem keys_roomy (t : NameTable) : t.roomy.keys = t.keys := by
  rw [keys, toList_roomy]
  rfl

theorem size_roomy (t : NameTable) : t.roomy.entries.size = t.entries.size := by
  simp only [roomy]
  split <;> rfl

theorem keys_setAt (t : NameTable) (i : Nat) (p : Property) : (t.setAt i p).keys = t.keys := by
  apply List.ext_getElem?
  intro j
  rw [← keyAt?_eq, ← keyAt?_eq]
  simp only [keyAt?, setAt, Array.getElem?_modify]
  split
  · cases t.entries[j]? <;> rfl
  · rfl

theorem keys_map (t : NameTable) (f : Property → Property) : (t.map f).keys = t.keys := by
  simp [keys, toList, map]

theorem keys_insertAt (t : NameTable) (b : Nat) (k : PropertyKey) (p : Property) :
    (t.insertAt b k p).keys = t.keys ++ [k] := by
  simp [keys, toList, insertAt]

theorem Filed.roomy_buckets (ht : t.Filed) (hc : t.crowded = true) :
    Indexes t.roomy.buckets t.keys ∧
      t.roomy.buckets.size = min (t.buckets.size * 2) maxBuckets := by
  have hsize := ht.size_le_buckets
  have hle := ht.size_le
  simp only [NameTable.roomy, if_pos hc]
  exact t.indexes_rebuild _ (Nat.le_min.2 ⟨by omega, by omega⟩)

theorem Filed.size_roomy_ge (ht : t.Filed) : t.buckets.size ≤ t.roomy.buckets.size := by
  have hle := ht.size_le
  by_cases hc : t.crowded = true
  · rw [(ht.roomy_buckets hc).2]
    exact Nat.le_min.2 ⟨by omega, hle⟩
  · simp only [NameTable.roomy, if_neg hc, Nat.le_refl]

theorem Filed.roomy (ht : t.Filed) : t.roomy.Filed := by
  have hkeys := t.keys_roomy
  have hge := Nat.le_trans ht.size_ge ht.size_roomy_ge
  by_cases hc : t.crowded = true
  · obtain ⟨hindexes, hsize⟩ := ht.roomy_buckets hc
    refine ⟨hkeys ▸ ht.distinct, hkeys ▸ hindexes, hge, ?_⟩
    rw [hsize]
    exact Nat.min_le_right _ _
  · simp only [NameTable.roomy, if_neg hc]
    exact ht

theorem Indexed.roomy (ht : t.Indexed) : t.roomy.Indexed where
  toFiled := ht.toFiled.roomy
  load := by
    rw [size_roomy]
    exact Nat.le_trans ht.load (Nat.mul_le_mul_left 3 ht.size_roomy_ge)

/-- The most names an object may have: three fifths of the most buckets. -/
def nameLimit : Nat := 644245094

/-- After making room, one more name still leaves two fifths of the buckets empty. -/
theorem Indexed.roomy_load (ht : t.Indexed) (hlimit : t.entries.size + 1 ≤ nameLimit) :
    5 * (t.roomy.entries.size + 1) ≤ 3 * t.roomy.buckets.size := by
  have hge := ht.size_ge
  have hload := ht.load
  simp only [initialBuckets] at hge
  simp only [nameLimit] at hlimit
  rw [size_roomy]
  by_cases hc : t.crowded = true
  · rw [(ht.roomy_buckets hc).2, maxBuckets]
    omega
  · simp only [NameTable.roomy, if_neg hc]
    simp only [crowded, decide_eq_true_eq] at hc
    omega

/-- After making room a bucket is empty, until there are as many names as there can be
buckets. -/
theorem Filed.roomy_vacant (ht : t.Filed) (hlimit : t.entries.size < maxBuckets) :
    t.entries.size < t.roomy.buckets.size := by
  have hge := ht.size_ge
  have hsize := ht.size_le_buckets
  simp only [initialBuckets] at hge
  by_cases hc : t.crowded = true
  · rw [(ht.roomy_buckets hc).2]
    exact Nat.lt_min.2 ⟨by omega, hlimit⟩
  · simp only [NameTable.roomy, if_neg hc]
    simp only [crowded, decide_eq_true_eq] at hc
    omega

theorem Filed.setAt (ht : t.Filed) (i : Nat) (p : Property) : (t.setAt i p).Filed := by
  have hkeys := t.keys_setAt i p
  exact ⟨hkeys ▸ ht.distinct, hkeys ▸ ht.indexes, ht.size_ge, ht.size_le⟩

theorem Indexed.setAt (ht : t.Indexed) (i : Nat) (p : Property) : (t.setAt i p).Indexed where
  toFiled := ht.toFiled.setAt i p
  load := by simpa only [NameTable.setAt, Array.size_modify] using ht.load

theorem Filed.map (ht : t.Filed) (f : Property → Property) : (t.map f).Filed := by
  have hkeys := t.keys_map f
  exact ⟨hkeys ▸ ht.distinct, hkeys ▸ ht.indexes, ht.size_ge, ht.size_le⟩

theorem Indexed.map (ht : t.Indexed) (f : Property → Property) : (t.map f).Indexed where
  toFiled := ht.toFiled.map f
  load := by simpa only [NameTable.map, Array.size_map] using ht.load

theorem Filed.insertAt (ht : t.Filed) (hk : k ∉ t.keys) (hlt : t.entries.size < t.buckets.size)
    (p : Property) : (t.insertAt (t.locate k).bucket k p).Filed := by
  have hkeys := t.keys_insertAt (t.locate k).bucket k p
  have hbuckets : (t.insertAt (t.locate k).bucket k p).buckets =
      enter t.buckets ((k, p), t.keys.length) := by
    simp only [NameTable.insertAt, enter, (locate_of_not_mem hk).2, length_keys]
  have hsize : (t.insertAt (t.locate k).bucket k p).buckets.size = t.buckets.size := by
    rw [hbuckets, enter_size]
  constructor
  · rw [hkeys, ← List.concat_eq_append]
    exact ht.distinct.concat hk
  · rw [hkeys, hbuckets]
    exact ht.indexes.enter (by rw [length_keys]; exact hlt) k p
  · rw [hsize]
    exact ht.size_ge
  · rw [hsize]
    exact ht.size_le

theorem Indexed.insertAt (ht : t.Indexed) (hk : k ∉ t.keys)
    (hload : 5 * (t.entries.size + 1) ≤ 3 * t.buckets.size) (p : Property) :
    (t.insertAt (t.locate k).bucket k p).Indexed where
  toFiled := ht.toFiled.insertAt hk ht.lt_size p
  load := by simpa only [NameTable.insertAt, Array.size_push, Array.size_setIfInBounds] using hload

theorem Filed.toList_setAt (ht : t.Filed) (hk : t.keys[i]? = some k) (p : Property) :
    (t.setAt i p).toList = NameList.putEntry k p t.toList := by
  have hmem : k ∈ t.toList.map (·.1) := List.mem_of_getElem? hk
  rw [NameList.putEntry, if_pos hmem]
  apply List.ext_getElem?
  intro j
  rw [List.getElem?_map]
  simp only [toList, NameTable.setAt, Array.getElem?_toList, Array.getElem?_modify]
  cases he : t.entries[j]? with
  | none => simp
  | some e =>
    have hj : t.keys[j]? = some e.1 := by simp [NameTable.keys, toList, he]
    by_cases hij : i = j
    · subst hij
      rw [hk, Option.some.injEq] at hj
      simp [hj]
    · have hne : e.1 ≠ k := by
        rintro rfl
        have hlen := (List.getElem?_eq_some_iff.1 hk).1
        exact hij ((List.getElem?_inj hlen ht.distinct).1 (hk.trans hj.symm))
      simp [hij, hne]

theorem toList_insertAt (hk : k ∉ t.keys) (b : Nat) (p : Property) :
    (t.insertAt b k p).toList = NameList.putEntry k p t.toList := by
  have hnot : k ∉ t.toList.map (·.1) := hk
  rw [NameList.putEntry, if_neg hnot]
  simp [toList, insertAt]

end NameTable

end InlineCache
