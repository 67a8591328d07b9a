import InlineCache.Proofs.Heap.Filing

/-! Rebuilding the buckets.
The buckets of a table are what entering its keys one after another makes of empty ones.
So making room in a table that cannot grow changes nothing, and in one that can it loses
no key: lookups never see it. -/

namespace InlineCache

namespace NameTable

variable {t t' : NameTable} {k k' : PropertyKey} {d q : Property}

theorem enter_all_congr {l l' : List (PropertyKey × Property)}
    (hkeys : l'.map (·.1) = l.map (·.1)) (n : Nat) (buckets : Array (Option Nat)) :
    (l'.zipIdx n).foldl enter buckets = (l.zipIdx n).foldl enter buckets := by
  induction l generalizing l' n buckets with
  | nil => rw [List.map_eq_nil_iff.1 hkeys]
  | cons e l ih =>
    obtain ⟨e', l', rfl, hhead, htail⟩ := List.map_eq_cons_iff.1 hkeys
    have henter : enter buckets (e', n) = enter buckets (e, n) := by simp only [enter, hhead]
    rw [List.zipIdx_cons, List.zipIdx_cons, List.foldl_cons, List.foldl_cons, henter, ih htail]

def Built (t : NameTable) : Prop :=
  t.entries.toList.zipIdx.foldl enter (Array.replicate t.buckets.size none) = t.buckets

theorem built_empty : empty.Built := by
  simp [Built, empty]

theorem built_rebuild (t : NameTable) (count : Nat) : (t.rebuild count).Built := by
  rw [Built, rebuild_size]
  rfl

theorem Built.rebuild_eq (ht : t.Built) : t.rebuild t.buckets.size = t := by
  rw [rebuild, ht]

theorem Built.congr (ht : t.Built) (hkeys : t'.keys = t.keys) (hbuckets : t'.buckets = t.buckets) :
    t'.Built := by
  rw [Built, hbuckets]
  exact (enter_all_congr hkeys 0 _).trans ht

theorem Built.roomy (ht : t.Built) : t.roomy.Built := by
  simp only [NameTable.roomy]
  split
  · exact t.built_rebuild _
  · exact ht

theorem Built.file (ht : t.Built) (k : PropertyKey) (d : Property) : (t.file k d).Built := by
  simp only [NameTable.file]
  cases hp : (t.locate k).position? with
  | some i => exact ht.congr (t.keys_setAt i d) rfl
  | none =>
    have hbucket := bucket_of_locateFrom_none hp
    have hbuckets : (t.insertAt (t.locate k).bucket k d).buckets =
        enter t.buckets ((k, d), t.entries.size) := by
      rw [enter, ← hbucket]
      rfl
    simp only [Built, hbuckets, enter_size]
    simp only [NameTable.insertAt, Array.toList_push, List.zipIdx_append, List.foldl_append,
      Array.length_toList, Nat.zero_add]
    rw [ht]
    rfl

/-- A table as a history leaves it: in order while the names fit the most buckets there
can be, and afterwards with that many buckets. -/
structure Grown (t : NameTable) : Prop where
  pos : 0 < t.buckets.size
  le_max : t.buckets.size ≤ maxBuckets
  built : t.Built
  filed : t.entries.size ≤ maxBuckets → t.Filed
  full : maxBuckets ≤ t.entries.size → t.buckets.size = maxBuckets

theorem grown_empty : empty.Grown where
  pos := by decide
  le_max := filed_empty.size_le
  built := built_empty
  filed _ := filed_empty
  full h := absurd h (by decide)

theorem Grown.roomy_of_full (ht : t.Grown) (hfull : t.buckets.size = maxBuckets) :
    t.roomy = t := by
  have hmin : min (t.buckets.size * 2) maxBuckets = t.buckets.size := by omega
  simp only [roomy, hmin, ht.built.rebuild_eq, ite_self]

theorem Grown.roomy (ht : t.Grown) : t.roomy.Grown where
  pos := roomy_buckets_pos ht.pos
  le_max := roomy_buckets_le ht.le_max
  built := ht.built.roomy
  filed hsize := (ht.filed (t.size_roomy ▸ hsize)).roomy
  full hsize := by
    have hfull := ht.full (t.size_roomy ▸ hsize)
    rw [ht.roomy_of_full hfull, hfull]

theorem Grown.lookup?_roomy (ht : t.Grown) (k : PropertyKey) : t.roomy.lookup? k = t.lookup? k := by
  rcases Nat.le_total t.entries.size maxBuckets with hsize | hsize
  · exact (ht.filed hsize).lookup?_roomy k
  · rw [ht.roomy_of_full (ht.full hsize)]

/-- A file over an entry that is found leaves the other entries where they are. -/
theorem lookup?_file_of_found (hq : t.lookup? k = some q) (k' : PropertyKey) :
    (t.file k d).lookup? k' = if k' = k then some d else t.lookup? k' := by
  obtain ⟨i, hi, -⟩ := Option.bind_eq_some_iff.1 hq
  have hfile : t.file k d = t.setAt i d := by simp only [file, hi]
  rw [hfile, lookup?, locate_setAt]
  by_cases hk : k' = k
  · rw [if_pos hk, hk, hi]
    exact propertyAt?_setAt (lt_of_locate hi)
  · rw [if_neg hk, lookup?]
    cases hj : (t.locate k').position? with
    | none => rfl
    | some j =>
      have hne : i ≠ j := by
        rintro rfl
        have hkey := (keyAt?_of_locateFrom hi).symm.trans (keyAt?_of_locateFrom hj)
        exact hk (Option.some.inj hkey).symm
      simp only [Option.bind_some, propertyAt?, setAt, Array.getElem?_modify, if_neg hne]

theorem size_file_of_lost (hq : t.lookup? k = none) :
    (t.file k d).entries.size = t.entries.size + 1 := by
  simp only [file]
  cases hp : (t.locate k).position? with
  | none => simp only [insertAt, Array.size_push]
  | some i =>
    have hfound := lt_of_locate hp
    rw [lookup?, hp, Option.bind_some, propertyAt?, Array.getElem?_eq_getElem hfound] at hq
    cases hq

/-- Filing a property leaves the others, as long as a new one still fits the most buckets
there can be. -/
theorem Grown.lookup?_file (ht : t.Grown)
    (hroom : t.lookup? k = none → (t.roomy.file k d).entries.size ≤ maxBuckets)
    (k' : PropertyKey) :
    (t.roomy.file k d).lookup? k' = if k' = k then some d else t.lookup? k' := by
  cases hq : t.roomy.lookup? k with
  | some q => rw [lookup?_file_of_found hq, ht.lookup?_roomy]
  | none =>
    have hsize := hroom ((ht.lookup?_roomy k).symm.trans hq)
    have hle := (t.size_roomy ▸ t.roomy.size_le_file k d).trans hsize
    rw [(ht.filed hle).roomy.lookup?_file ((ht.filed hle).room hsize), ht.lookup?_roomy]

theorem Grown.file (ht : t.Grown) (hfull : maxBuckets ≤ t.entries.size ∨
      (t.file k d).entries.size ≤ t.buckets.size) : (t.file k d).Grown where
  pos := by rw [file_buckets_size]; exact ht.pos
  le_max := by rw [file_buckets_size]; exact ht.le_max
  built := ht.built.file k d
  filed hsize := by
    have hle := t.size_le_file k d
    apply (ht.filed (by omega)).file
    rcases hfull with hfull | hfull
    · rw [ht.full hfull]
      exact hsize
    · exact hfull
  full hsize := by
    have hmax := ht.le_max
    rw [file_buckets_size]
    rcases hfull with hfull | hfull
    · exact ht.full hfull
    · omega

theorem Revision.grown (hr : t.Revision t') (ht : t.Grown) : t'.Grown := by
  cases hr with
  | same => exact ht
  | roomy => exact ht.roomy
  | filed k d hk =>
    apply ht.roomy.file
    rcases Nat.lt_or_ge t.entries.size maxBuckets with hsize | hsize
    · right
      cases hq : t.roomy.lookup? k with
      | some q =>
        rw [size_file_of_lookup? hq]
        exact (ht.roomy.filed (by rw [size_roomy]; omega)).size_le_buckets
      | none =>
        rw [size_file_of_lost hq, size_roomy]
        exact (ht.filed (Nat.le_of_lt hsize)).roomy_vacant hsize
    · exact .inl (t.size_roomy ▸ hsize)
  | refiled k d q hq =>
    apply ht.file
    rcases Nat.le_total t.entries.size maxBuckets with hsize | hsize
    · right
      rw [size_file_of_lookup? hq]
      exact (ht.filed hsize).size_le_buckets
    · exact .inl hsize
  | mapped f =>
    have hsize : (t.map f).entries.size = t.entries.size := Array.size_map
    exact ⟨ht.pos, ht.le_max, ht.built.congr (t.keys_map f) rfl,
      fun h => (ht.filed (hsize ▸ h)).map f, fun h => ht.full (hsize ▸ h)⟩

end NameTable

end InlineCache
