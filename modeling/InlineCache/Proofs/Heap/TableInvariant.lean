import InlineCache.Proofs.Heap.Lives
import InlineCache.Proofs.Heap.Writes
import Mathlib.Algebra.Group.Nat.Defs

/-! The table of names in every heap.
A table begins with eight buckets and doubles before one more name would take more than
three fifths of them. So every probe meets an empty bucket if it does not meet its key, and
so does every probe of a rebuild, however few entries it has entered. -/

namespace InlineCache

namespace NameTable

variable {t t' : NameTable} {k : PropertyKey} {d : Property} {i n start left step count : Nat}

structure Ends (t : NameTable) (k : PropertyKey) (start n : Nat) (found : Location) : Prop where
  bucket : found.bucket = (start + n) % t.buckets.size
  collided : found.collided = decide (n ≠ 0)
  held : t.buckets[found.bucket]? = some found.position?
  key : ∀ i, found.position? = some i → t.keyAt? i = some k
  passed : ∀ e < n, ∃ j, t.buckets[(start + e) % t.buckets.size]? = some (some j) ∧
    t.keyAt? j ≠ some k

theorem locateFrom_ends (hsize : 0 < t.buckets.size)
    (hpassed : ∀ e < step, ∃ j, t.buckets[(start + e) % t.buckets.size]? = some (some j) ∧
      t.keyAt? j ≠ some k)
    (hvacant : ∃ e, step ≤ e ∧ e < step + left ∧
      t.buckets[(start + e) % t.buckets.size]? = some none) :
    ∃ n < step + left, t.Ends k start n (t.locateFrom k start left step) := by
  induction left generalizing step with
  | zero =>
    obtain ⟨e, hle, hlt, -⟩ := hvacant
    omega
  | succ left ih =>
    obtain ⟨o, ho⟩ := getElem?_mod hsize (start + step)
    simp only [locateFrom, ho]
    cases o with
    | none =>
      refine ⟨step, by omega, rfl, rfl, ho, ?_, hpassed⟩
      rintro i ⟨⟩
    | some j =>
      simp only [Option.join_some]
      by_cases hkey : t.keyAt? j = some k
      · rw [if_pos hkey]
        refine ⟨step, by omega, rfl, rfl, ho, ?_, hpassed⟩
        rintro i ⟨⟩
        exact hkey
      · rw [if_neg hkey]
        obtain ⟨e, hle, hlt, he⟩ := hvacant
        have hne : e ≠ step := by
          rintro rfl
          rw [ho] at he
          cases he
        have hnext : ∀ e < step + 1, ∃ j,
            t.buckets[(start + e) % t.buckets.size]? = some (some j) ∧ t.keyAt? j ≠ some k := by
          intro e he
          rcases Nat.lt_succ_iff_lt_or_eq.1 he with he | rfl
          · exact hpassed e he
          · exact ⟨j, ho, hkey⟩
        obtain ⟨n, hn, hends⟩ := ih hnext ⟨e, by omega, by omega, he⟩
        exact ⟨n, by omega, hends⟩

theorem Indexed.locate_ends (ht : t.Indexed) (k : PropertyKey) :
    ∃ n < t.buckets.size, t.Ends k (home t.buckets.size k) n (t.locate k) := by
  have hlt : t.keys.length < t.buckets.size := t.length_keys ▸ ht.lt_size
  obtain ⟨e, he, hvacant⟩ := ht.indexes.exists_vacant hlt (home t.buckets.size k)
  obtain ⟨n, hn, hends⟩ := locateFrom_ends (k := k) (Nat.zero_lt_of_lt hlt)
    (fun e he => absurd he (Nat.not_lt_zero e))
    ⟨e, Nat.zero_le e, Nat.lt_of_lt_of_eq he (Nat.zero_add _).symm, hvacant⟩
  exact ⟨n, by omega, hends⟩

theorem Indexes.locate_iff (hi : Indexes t.buckets t.keys) (hdistinct : t.keys.Nodup) :
    (t.locate k).position? = some i ↔ t.keyAt? i = some k :=
  ⟨keyAt?_of_locateFrom, fun hk => hi.locate_of_mem hdistinct (keyAt?_eq t i ▸ hk)⟩

structure Orderly (t : NameTable) : Prop where
  power : ∃ e ≤ 27, t.buckets.size = 2 ^ (e + 3)
  least : t.buckets.size = initialBuckets ∨ t.buckets.size / 2 * 3 / 5 < t.entries.size + 1
  indexed : t.entries.size ≤ nameLimit → t.Indexed
  placed : ∀ k ∈ t.keys, k.place = .name k

theorem orderly_empty : empty.Orderly where
  power := ⟨0, by decide, rfl⟩
  least := .inl rfl
  indexed _ := indexed_empty
  placed _ hk := absurd hk List.not_mem_nil

theorem Orderly.roomy_cases (ht : t.Orderly) :
    t.roomy.buckets.size = t.buckets.size ∨
      t.crowded = true ∧ t.buckets.size < maxBuckets ∧
        t.roomy.buckets.size = t.buckets.size * 2 := by
  obtain ⟨e, he, hsize⟩ := ht.power
  rw [roomy_buckets_size]
  split
  · next hc =>
    rcases Nat.lt_or_eq_of_le he with hlt | rfl
    · have hle : t.buckets.size * 2 ≤ maxBuckets := by
        rw [hsize, ← Nat.pow_succ]
        exact Nat.pow_le_pow_right (by decide) (show e + 3 + 1 ≤ 30 by omega)
      have hpos : 0 < t.buckets.size := hsize ▸ Nat.two_pow_pos _
      exact .inr ⟨hc, by omega, Nat.min_eq_left hle⟩
    · left
      rw [hsize]
      decide
  · exact .inl rfl

theorem Orderly.roomy (ht : t.Orderly) : t.roomy.Orderly where
  power := by
    rcases ht.roomy_cases with hsame | ⟨-, hlt, hdouble⟩
    · exact hsame ▸ ht.power
    · obtain ⟨e, -, hsize⟩ := ht.power
      rw [hsize] at hlt
      have he : e + 3 < 30 := (Nat.pow_lt_pow_iff_right (by decide)).1 hlt
      exact ⟨e + 1, by omega, by rw [hdouble, hsize, ← Nat.pow_succ, Nat.add_right_comm]⟩
  least := by
    rw [size_roomy]
    rcases ht.roomy_cases with hsame | ⟨hc, -, hdouble⟩
    · rw [hsame]
      exact ht.least
    · simp only [crowded, decide_eq_true_eq] at hc
      rw [hdouble, Nat.mul_div_cancel _ (by decide)]
      exact .inr (by omega)
  indexed hsize := (ht.indexed (t.size_roomy ▸ hsize)).roomy
  placed := t.keys_roomy ▸ ht.placed

theorem Orderly.congr (ht : t.Orderly) (hbuckets : t'.buckets.size = t.buckets.size)
    (hkeys : t'.keys = t.keys) (hindexed : t.Indexed → t'.Indexed) : t'.Orderly where
  power := hbuckets ▸ ht.power
  least := by
    rw [hbuckets, ← t'.length_keys, hkeys, t.length_keys]
    exact ht.least
  indexed hsize := by
    rw [← t'.length_keys, hkeys, t.length_keys] at hsize
    exact hindexed (ht.indexed hsize)
  placed := hkeys ▸ ht.placed

theorem Orderly.setAt (ht : t.Orderly) (i : Nat) (d : Property) : (t.setAt i d).Orderly :=
  ht.congr rfl (t.keys_setAt i d) fun h => h.setAt i d

theorem Orderly.insertAt (ht : t.Orderly) (hplace : k.place = .name k)
    (hindexed : t.entries.size + 1 ≤ nameLimit → (t.insertAt i k d).Indexed) :
    (t.insertAt i k d).Orderly := by
  have hbuckets : (t.insertAt i k d).buckets.size = t.buckets.size := Array.size_setIfInBounds ..
  have hentries : (t.insertAt i k d).entries.size = t.entries.size + 1 := Array.size_push ..
  constructor
  · rw [hbuckets]
    exact ht.power
  · rw [hbuckets, hentries]
    exact ht.least.imp_right Nat.lt_succ_of_lt
  · rw [hentries]
    exact hindexed
  · intro k' hk'
    rw [keys_insertAt, List.mem_append, List.mem_singleton] at hk'
    rcases hk' with hk' | rfl
    · exact ht.placed k' hk'
    · exact hplace

theorem Orderly.file (ht : t.Orderly) (hplace : k.place = .name k) (d : Property) :
    (t.roomy.file k d).Orderly := by
  simp only [NameTable.file]
  cases hp : (t.roomy.locate k).position? with
  | some i => exact ht.roomy.setAt i d
  | none =>
    refine ht.roomy.insertAt hplace fun hsize => ?_
    rw [size_roomy] at hsize
    have hindexed := ht.indexed (Nat.le_of_succ_le hsize)
    exact hindexed.roomy.insertAt (not_mem_of_locate hindexed.roomy.toFiled hp)
      (hindexed.roomy_load hsize) d

theorem Revision.orderly (hr : t.Revision t') (ht : t.Orderly) : t'.Orderly := by
  cases hr with
  | same => exact ht
  | roomy => exact ht.roomy
  | filed k d hk => exact ht.file hk d
  | refiled k d q hq =>
    obtain ⟨i, hi, -⟩ := Option.bind_eq_some_iff.1 hq
    have hfile : t.file k d = t.setAt i d := by simp only [file, hi]
    exact hfile ▸ ht.setAt i d
  | mapped f => exact ht.congr rfl (t.keys_map f) fun h => h.map f

/-- The buckets of a table hold each position once, on the way from the home of its key, and
are a power of two of which two fifths are empty. -/
structure Invariant (t : NameTable) : Prop where
  power : ∃ e ≥ 3, t.buckets.size = 2 ^ e
  most : t.buckets.size ≤ maxBuckets
  held : ∀ i < t.entries.size, ∃! b : Nat, t.buckets[b]? = some (some i)
  others : ∀ b < t.buckets.size,
    t.buckets[b]? = some none ∨ ∃ i < t.entries.size, t.buckets[b]? = some (some i)
  load : t.entries.size ≤ 3 * t.buckets.size / 5
  vacant : ∃ b : Nat, t.buckets[b]? = some none
  least : t.buckets.size = 8 ∨ 3 * (t.buckets.size / 2) / 5 < t.entries.size + 1
  distinct : t.keys.Nodup
  named : ∀ s, .name s ∈ t.keys → s.index? = none
  path : ∀ i k, t.keyAt? i = some k → ∃ n < t.buckets.size,
    t.buckets[(home t.buckets.size k + n) % t.buckets.size]? = some (some i) ∧
      ∀ e < n, Taken t.buckets ((home t.buckets.size k + e) % t.buckets.size)

theorem Orderly.invariant (ht : t.Orderly) (hsize : t.entries.size ≤ nameLimit) :
    t.Invariant := by
  have hindexed := ht.indexed hsize
  have hindexes := hindexed.indexes
  have hlt : t.keys.length < t.buckets.size := t.length_keys ▸ hindexed.lt_size
  constructor
  · obtain ⟨e, -, he⟩ := ht.power
    exact ⟨e + 3, Nat.le_add_left 3 e, he⟩
  · exact hindexed.size_le
  · intro i hi
    obtain ⟨n, -, hget, -⟩ := hindexes.path i _ (List.getElem?_eq_getElem (t.length_keys ▸ hi))
    exact ⟨_, hget, fun b hb => hindexes.unique b _ i hb hget⟩
  · intro b hb
    cases hget : t.buckets[b] with
    | none => exact .inl (hget ▸ Array.getElem?_eq_getElem hb)
    | some i =>
      have hsome : t.buckets[b]? = some (some i) := hget ▸ Array.getElem?_eq_getElem hb
      exact .inr ⟨i, t.length_keys ▸ hindexes.in_range b i hsome, hsome⟩
  · have := hindexed.load
    omega
  · obtain ⟨n, -, hget⟩ := hindexes.exists_vacant hlt 0
    exact ⟨_, hget⟩
  · rw [Nat.mul_comm]
    exact ht.least
  · exact hindexed.distinct
  · intro s hs
    have hplace := ht.placed _ hs
    simp only [PropertyKey.place] at hplace
    split at hplace
    · cases hplace
    · next hindex => exact hindex
  · intro i k hk
    exact hindexes.path i k (keyAt?_eq t i ▸ hk)

/-- Each entry of a rebuild finds an empty bucket while there are more buckets than entries
before it. -/
theorem rebuild_vacancy {before after : List (PropertyKey × Property)}
    (hlist : t.toList = before ++ (k, d) :: after) (hcount : t.entries.size ≤ count) :
    ∃ n < count,
      let buckets := before.zipIdx.foldl enter (Array.replicate count none)
      vacancyFrom buckets (home count k) count 0 = (home count k + n) % count ∧
        buckets[(home count k + n) % count]? = some none ∧
        ∀ e < n, Taken buckets ((home count k + e) % count) := by
  have hlength := congrArg List.length hlist
  rw [toList, Array.length_toList, List.length_append, List.length_cons] at hlength
  obtain ⟨hindexes, hsize⟩ := indexes_of_entries before (show before.length ≤ count by omega)
  have hvacancy := hindexes.vacancy (by rw [hsize, List.length_map]; omega) (home count k)
  rw [hsize] at hvacancy
  exact hvacancy

theorem Filed.locate_rebuild (ht : t.Filed) (hcount : t.entries.size ≤ count) (k : PropertyKey) :
    ((t.rebuild count).locate k).position? = (t.locate k).position? := by
  obtain ⟨hindexes, -⟩ := t.indexes_rebuild count hcount
  have hkeys : (t.rebuild count).keys = t.keys := rfl
  ext i
  rw [Indexes.locate_iff (hkeys ▸ hindexes) (hkeys ▸ ht.distinct),
    ht.indexes.locate_iff ht.distinct]
  exact Iff.rfl

end NameTable

namespace Heap

open NameTable

variable {h : Heap} {x : Handle} {o : Object}

theorem Reached.orderly (hr : h.Reached) (hx : h.find? x = some o) : o.names.Orderly :=
  hr.object (P := fun o => o.names.Orderly) (fun _ _ _ => orderly_empty)
    (fun _ _ ho hs => hs.revision.orderly ho) hx

/-- The table of an object keeps its invariant up to the limit on its names. A probe then
ends at its key or, if the key is absent, at an empty bucket; the probes of a rebuild end
at empty buckets, and a rebuilt table finds what the table found. -/
theorem Reached.names_in_order (hr : h.Reached) (hx : h.find? x = some o)
    (hsize : o.names.entries.size ≤ nameLimit) :
    let t := o.names
    t.Invariant ∧
      (∀ k, ∃ n < t.buckets.size, t.Ends k (home t.buckets.size k) n (t.locate k)) ∧
      (∀ k i, (t.locate k).position? = some i ↔ t.keyAt? i = some k) ∧
      (∀ k, (∀ i, t.keyAt? i ≠ some k) → t.buckets[(t.locate k).bucket]? = some none) ∧
      t.entries.size < min (t.buckets.size * 2) maxBuckets ∧
      ∀ count, t.entries.size ≤ count →
        (∀ before k d after, t.toList = before ++ (k, d) :: after →
          ∃ n < count,
            let buckets := before.zipIdx.foldl enter (Array.replicate count none)
            vacancyFrom buckets (home count k) count 0 = (home count k + n) % count ∧
              buckets[(home count k + n) % count]? = some none ∧
              ∀ e < n, Taken buckets ((home count k + e) % count)) ∧
        ∀ k, ((t.rebuild count).locate k).position? = (t.locate k).position? ∧
          (t.rebuild count).lookup? k = t.lookup? k := by
  intro t
  have horderly : t.Orderly := hr.orderly hx
  have hindexed : t.Indexed := horderly.indexed hsize
  have hlocate : ∀ k i, (t.locate k).position? = some i ↔ t.keyAt? i = some k :=
    fun k i => hindexed.indexes.locate_iff hindexed.distinct
  refine ⟨horderly.invariant hsize, hindexed.locate_ends, hlocate, fun k hk => ?_, ?_,
    fun count hcount => ⟨fun before k d after hlist => rebuild_vacancy hlist hcount, fun k => ?_⟩⟩
  · obtain ⟨n, -, hends⟩ := hindexed.locate_ends k
    have hnone : (t.locate k).position? = none :=
      Option.eq_none_iff_forall_ne_some.2 fun i hi => hk i ((hlocate k i).1 hi)
    exact hnone ▸ hends.held
  · have hlt := hindexed.lt_size
    have hlimit : nameLimit < maxBuckets := by decide
    exact Nat.lt_min.2 ⟨by omega, Nat.lt_of_le_of_lt hsize hlimit⟩
  · have hposition := hindexed.locate_rebuild hcount k
    refine ⟨hposition, ?_⟩
    rw [lookup?, hposition]
    rfl

theorem five_names_in_order :
    ∃ (h : Heap) (o : Object), h.Reached ∧ h.find? ⟨0, 1⟩ = some o ∧
      o.names.entries.size = 5 ∧ o.names.buckets.size = 16 ∧ o.names.Invariant ∧
      ∀ k, (o.names.rebuild 32).lookup? k = o.names.lookup? k := by
  obtain ⟨ops, hops⟩ : ∃ ops : List HeapOp, ops = .create [] .null ::
      (List.range 5).map fun i => .defineOwn ⟨0, 1⟩ (.symbol (.ofNat i)) .null := ⟨_, rfl⟩
  have hfound : ((after ops).find? ⟨0, 1⟩).any
      (fun o => o.names.entries.size = 5 ∧ o.names.buckets.size = 16) = true := by
    rw [hops]
    decide +kernel
  obtain ⟨o, hx, ho⟩ := (Option.any_eq_true ..).1 hfound
  obtain ⟨hentries, hbuckets⟩ := of_decide_eq_true ho
  have hlimit : 32 ≤ nameLimit := by decide
  obtain ⟨hinvariant, -, -, -, -, hrebuild⟩ :=
    Reached.names_in_order ⟨ops, rfl⟩ hx (by omega)
  exact ⟨after ops, o, ⟨ops, rfl⟩, hx, hentries, hbuckets, hinvariant,
    fun k => ((hrebuild 32 (by omega)).2 k).2⟩

end Heap

end InlineCache
