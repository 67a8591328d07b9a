import InlineCache.Proofs.Heap.Lives
import InlineCache.Proofs.Heap.Writes
import Mathlib.Algebra.Group.Nat.Defs
import Mathlib.Data.Fintype.Card

/-! More names than buckets, and more objects than slots.
The buckets of an object grow up to a limit. One name more takes the bucket of another,
which is not found again. In the same way the slots grow as far as their numbers go, and
one object more takes the slot of another. -/

namespace InlineCache

namespace NameTable

variable {t : NameTable} {k : PropertyKey} {d : Property} {start left step i : Nat}

theorem bucket_of_locateFrom (h : (t.locateFrom k start left step).position? = some i) :
    ∃ b < t.buckets.size, t.buckets[b]? = some (some i) := by
  induction left generalizing step with
  | zero => cases h
  | succ left ih =>
    simp only [locateFrom] at h
    split at h
    · cases h
    · next j hj =>
      split at h
      · cases h
        have hget := Option.join_eq_some_iff.1 hj
        exact ⟨_, (Array.getElem?_eq_some_iff.1 hget).1, hget⟩
      · exact ih h

/-- Two names need two buckets, so with more names than buckets some name is not found. -/
theorem exists_lost (hdistinct : t.keys.Nodup) (hlt : t.buckets.size < t.entries.size) :
    ∃ k ∈ t.keys, t.lookup? k = none := by
  by_contra hall
  have hbucket : ∀ i : Fin t.keys.length, ∃ b : Fin t.buckets.size,
      t.buckets[b.val]? = some (some i.val) := by
    intro i
    have hfound : t.lookup? (t.keys.get i) ≠ none := fun hn => hall ⟨_, List.get_mem _ i, hn⟩
    obtain ⟨q, hq⟩ := Option.ne_none_iff_exists'.1 hfound
    obtain ⟨j, hj, -⟩ := Option.bind_eq_some_iff.1 hq
    have hkey := keyAt?_of_locateFrom hj
    rw [keyAt?_eq] at hkey
    obtain ⟨hjlt, hj'⟩ := List.getElem?_eq_some_iff.1 hkey
    obtain rfl : j = i := (hdistinct.getElem_inj_iff).1 hj'
    obtain ⟨b, hb, hget⟩ := bucket_of_locateFrom hj
    exact ⟨⟨b, hb⟩, hget⟩
  -- a bucket holds one position, so different names are found at different buckets
  choose bucket hget using hbucket
  have hinj : Function.Injective bucket := by
    intro i j he
    have hsame := (hget i).symm.trans (he ▸ hget j)
    exact Fin.ext (Option.some.inj (Option.some.inj hsame))
  have hcard := Fintype.card_le_of_injective bucket hinj
  rw [Fintype.card_fin, Fintype.card_fin, length_keys] at hcard
  omega

theorem toList_file_new (hk : k ∉ t.keys) (d : Property) :
    (t.roomy.file k d).toList = t.toList ++ [(k, d)] := by
  have hroomy : (t.roomy.locate k).position? = none :=
    (locate_of_not_mem (by rwa [keys_roomy])).1
  have hnot : k ∉ t.toList.map (·.1) := hk
  simp only [file, hroomy]
  rw [toList_insertAt (by rwa [keys_roomy]), toList_roomy, NameList.putEntry, if_neg hnot]

end NameTable

namespace Heap

def nameCount (h : Heap) (x : Handle) : Nat := (h.find? x).elim 0 (·.names.entries.size)

/-- A new name of the object still fits the most buckets there can be. -/
def Fits (h : Heap) (x : Handle) (k : PropertyKey) (h' : Heap) : Prop :=
  k.place = .name k → h.hasOwn x k = false → h'.nameCount x ≤ NameTable.maxBuckets

theorem Fits.room {h h' : Heap} {x : Handle} {k : PropertyKey} {o o' : Object}
    (hf : h.Fits x k h') (hx : h.find? x = some o) (hx' : h'.find? x = some o') :
    o.Room k.place o' := by
  simp only [Fits, nameCount, hx', hasOwn_eq_false_iff hx, Option.elim_some] at hf
  intro k' hplace hnone
  rcases k.place_cases with hname | ⟨i, -, -, helement⟩
  · exact (hf hname hnone).trans (le_max_left _ _)
  · cases hplace.symm.trans helement

theorem nearest?_null (h : Heap) (p : Place) (bound : Nat) : h.nearest? p bound .null = none := by
  cases bound with
  | zero => rfl
  | succ bound => simp only [nearest?, storage?, find?_null, Option.filter_none]

def permanent : Property := ⟨.null, false, false, false⟩

def crowdName (i : Nat) : PropertyKey := .symbol (.ofNat i)

def crowding (n : Nat) : List HeapOp :=
  .create [] .null :: (List.range n).map fun i => .define ⟨0, 1⟩ (crowdName i) permanent

structure Crowded (n : Nat) (o : Object) : Prop where
  kind : o.kind = .ordinary
  prototype : o.prototype = .null
  extensible : o.extensible = true
  names : o.names.Grown
  entries : o.names.toList = (List.range n).map fun i => (crowdName i, permanent)

theorem maxBuckets_lt : NameTable.maxBuckets < 2 ^ 64 := by decide

variable {n m i : Nat} {h : Heap} {x : Handle} {o : Object} {d : Property}

theorem crowdName_inj (hn : n < 2 ^ 64) (hm : m < 2 ^ 64) (h : crowdName n = crowdName m) :
    n = m := by
  have hnat := congrArg UInt64.toNat (PropertyKey.symbol.inj h)
  rwa [UInt64.toNat_ofNat_of_lt' hn, UInt64.toNat_ofNat_of_lt' hm] at hnat

theorem nodup_crowdNames (hn : n ≤ 2 ^ 64) : ((List.range n).map crowdName).Nodup := by
  refine List.nodup_range.map_on fun i hi j hj he => ?_
  have hi := List.mem_range.1 hi
  have hj := List.mem_range.1 hj
  exact crowdName_inj (by omega) (by omega) he

namespace Crowded

theorem keys (ho : Crowded n o) : o.names.keys = (List.range n).map crowdName := by
  rw [NameTable.keys, ho.entries, List.map_map]
  rfl

theorem not_mem (ho : Crowded n o) (hn : n < 2 ^ 64) : crowdName n ∉ o.names.keys := by
  have hnodup := nodup_crowdNames (n := n + 1) (by omega)
  rw [List.range_succ, List.map_append, ← ho.keys] at hnodup
  exact fun hk => hnodup.disjoint hk (List.mem_singleton_self _)

theorem own_none (ho : Crowded n o) (hn : n < 2 ^ 64) : o.own? (.name (crowdName n)) = none := by
  rw [Object.own?, NameTable.lookup?, (NameTable.locate_of_not_mem (ho.not_mem hn)).1]
  rfl

theorem accepts (ho : Crowded n o) (hn : n < 2 ^ 64) (d : Property) :
    o.accepts (o.own? (.name (crowdName n))) d = true := by
  rw [ho.own_none hn]
  exact ho.extensible

theorem assigned (ho : Crowded n o) (hn : n < 2 ^ 64) (v : Value) :
    o.assigned? (.name (crowdName n)) v none = some (.plain v) := by
  rw [Object.assigned?, ho.own_none hn]
  exact if_pos ho.extensible

theorem setNamed_eq (ho : Crowded n o) (hn : n < 2 ^ 64) (hx : h.storage? x = some o) (v : Value)
    (strict : Bool) :
    h.setNamed x (crowdName n) v strict =
      h.leave x (o.define h.tally (.name (crowdName n)) (.plain v)) := by
  have hnone : h.inherited? o (.name (crowdName n)) = none := by
    rw [inherited?, ho.prototype, nearest?_null]
  have hassign : h.setNamed x (crowdName n) v strict =
      h.leave x (o.assign h.tally (.name (crowdName n)) v strict none) := by
    rw [← hnone]
    exact assignAt_of_storage? hx _ v strict
  rw [hassign, Object.assign_none (ho.own_none hn)]
  exact congrArg (h.leave x) (if_pos ho.extensible)

theorem entries_define (ho : Crowded n o) (hn : n < 2 ^ 64) (t : HeapTally) (d : Property) :
    (o.define t (.name (crowdName n)) d).object.names.toList =
      o.names.toList ++ [(crowdName n, d)] := by
  have hyes : o.accepts (o.names.roomy.lookup? (crowdName n)) d = true := by
    rw [ho.names.lookup?_roomy]
    exact ho.accepts hn d
  simp only [Object.define, Object.defineName_object, if_pos hyes]
  exact NameTable.toList_file_new (ho.not_mem hn) d

theorem keys_define (ho : Crowded n o) (hn : n < 2 ^ 64) (t : HeapTally) (d : Property) :
    (o.define t (.name (crowdName n)) d).object.names.keys =
      (List.range (n + 1)).map crowdName := by
  rw [NameTable.keys, ho.entries_define hn, List.map_append, List.range_succ, List.map_append,
    ← ho.keys]
  rfl

theorem grown_define (ho : Crowded n o) (t : HeapTally) (d : Property) :
    (o.define t (.name (crowdName n)) d).object.names.Grown :=
  (o.define_revision t (p := .name (crowdName n)) rfl d).grown ho.names

theorem next (ho : Crowded n o) (hn : n < 2 ^ 64) (t : HeapTally) :
    Crowded (n + 1) (o.define t (.name (crowdName n)) permanent).object := by
  have hframe := o.define_frame t (.name (crowdName n)) permanent
  have hkind := congrArg Object.kind hframe
  have hprototype := congrArg Object.prototype hframe
  have hextensible := congrArg Object.extensible hframe
  refine ⟨hkind.trans ho.kind, hprototype.trans ho.prototype, hextensible.trans ho.extensible,
    ho.grown_define t permanent, ?_⟩
  rw [ho.entries_define hn, ho.entries, List.range_succ, List.map_append, List.map_singleton]

theorem owns (ho : Crowded n o) (hn : n ≤ NameTable.maxBuckets) (hi : i < n) :
    o.own? (.name (crowdName i)) = some permanent := by
  have hsize : o.names.entries.size = n := by
    rw [← NameTable.length_keys, ho.keys, List.length_map, List.length_range]
  have hfiled := ho.names.filed (hsize.le.trans hn)
  rw [Object.own?, hfiled.lookup?_eq, lookup_eq_some_iff_mem hfiled.distinct, ho.entries]
  exact List.mem_map.2 ⟨i, List.mem_range.2 hi, rfl⟩

theorem overfull (ho : Crowded NameTable.maxBuckets o) (t : HeapTally) (d : Property) :
    ∃ i < NameTable.maxBuckets, o.own? (.name (crowdName i)) = some permanent ∧
      (o.define t (.name (crowdName NameTable.maxBuckets)) d).object.own?
        (.name (crowdName i)) = none := by
  have hkeys := ho.keys_define maxBuckets_lt t d
  have hgrown := ho.grown_define t d
  obtain ⟨k, hk, hlost⟩ := NameTable.exists_lost (hkeys ▸ nodup_crowdNames maxBuckets_lt)
    (Nat.lt_of_le_of_lt hgrown.le_max (by
      rw [← NameTable.length_keys, hkeys, List.length_map, List.length_range]
      exact Nat.lt_succ_self _))
  rw [hkeys] at hk
  obtain ⟨i, hi, rfl⟩ := List.mem_map.1 hk
  -- the new name itself is found
  have hne : i ≠ NameTable.maxBuckets := by
    rintro rfl
    have hown := (Object.define_takes ho.names (ho.accepts maxBuckets_lt d) t).own
    cases hlost.symm.trans hown
  have hlt : i < NameTable.maxBuckets := by
    have := List.mem_range.1 hi
    omega
  exact ⟨i, hlt, ho.owns le_rfl hlt, hlost⟩

theorem leave_hides (ho : Crowded NameTable.maxBuckets o) (hx : h.storage? x = some o)
    (t : HeapTally) (d : Property) :
    let h' := (h.leave x (o.define t (.name (crowdName NameTable.maxBuckets)) d)).2
    ∃ i < NameTable.maxBuckets, h.describeOwn x (crowdName i) = (.ok, permanent) ∧
      h'.nameCount x = NameTable.maxBuckets + 1 ∧ h'.hasOwn x (crowdName i) = false := by
  obtain ⟨i, hlt, hown, hlost⟩ := ho.overfull t d
  have hfind := (storage?_eq_some.1 hx).1
  have hfind' := (find?_leave hfind
    (o.define t (.name (crowdName NameTable.maxBuckets)) d) x).trans (if_pos rfl)
  refine ⟨i, hlt, describeOwn_ok_iff.2 ⟨o, hfind, hown⟩, ?_,
    (hasOwn_eq_false_iff hfind').2 hlost⟩
  rw [nameCount, hfind', Option.elim_some, ← NameTable.length_keys, ho.keys_define maxBuckets_lt,
    List.length_map, List.length_range]

theorem define_hides (ho : Crowded NameTable.maxBuckets o) (hx : h.storage? x = some o)
    (d : Property) :
    let h' := h.run [.define x (crowdName NameTable.maxBuckets) d]
    h'.tally.allocations = h.tally.allocations ∧
      ∃ i < NameTable.maxBuckets, h.describeOwn x (crowdName i) = (.ok, permanent) ∧
        h'.nameCount x = NameTable.maxBuckets + 1 ∧ h'.hasOwn x (crowdName i) = false := by
  have hrun : h.run [.define x (crowdName NameTable.maxBuckets) d] =
      (h.leave x (o.define h.tally (.name (crowdName NameTable.maxBuckets)) d)).2 := by
    rw [← defineAt_of_storage? hx]
    rfl
  have hedit := h.perform_edit (.define x (crowdName NameTable.maxBuckets) d) rfl
  exact ⟨hedit.allocations_eq, hrun ▸ ho.leave_hides hx h.tally d⟩

end Crowded

theorem after_crowding (hn : n ≤ 2 ^ 64) :
    ∃ o, (after (crowding n)).storage? ⟨0, 1⟩ = some o ∧ Crowded n o ∧
      (after (crowding n)).tally.allocations = 1 := by
  induction n with
  | zero =>
    refine ⟨_, rfl, ⟨rfl, rfl, rfl, ?_, rfl⟩, rfl⟩
    exact NameTable.grown_empty
  | succ n ih =>
    obtain ⟨o, hx, ho, hone⟩ := ih (by omega)
    have hcrowding : crowding (n + 1) =
        crowding n ++ [.define ⟨0, 1⟩ (crowdName n) permanent] := by
      simp only [crowding, List.range_succ, List.map_append, List.map_singleton, List.cons_append]
    have hnext := ho.next (by omega) (after (crowding n)).tally
    rw [hcrowding, after_snoc]
    refine ⟨_, storage?_eq_some.2 ⟨?_, by rw [hnext.kind]; decide⟩, hnext, ?_⟩
    · simp only [perform, Heap.define, defineAt, crowdName, PropertyKey.place, hx]
      exact (find?_update (storage?_eq_some.1 hx).1 _ _).trans (if_pos rfl)
    · rw [((after (crowding n)).perform_edit _ rfl).allocations_eq, hone]

theorem exists_crowded :
    ∃ h : Heap, h.Reached ∧ ∃ o, h.storage? ⟨0, 1⟩ = some o ∧ Crowded NameTable.maxBuckets o := by
  obtain ⟨o, hx, ho, -⟩ := after_crowding maxBuckets_lt.le
  exact ⟨_, ⟨_, rfl⟩, o, hx, ho⟩

def creations (n : Nat) : List HeapOp := List.replicate n (.create [] .null)

def bare : Object := { kind := .ordinary, label := [], prototype := .null }

theorem destroy_not_mem_creations (x : Handle) (n : Nat) : .destroy x ∉ creations n := by
  intro hmem
  cases List.eq_of_mem_replicate hmem

theorem run_creations_succ (h : Heap) (n : Nat) :
    h.run (creations (n + 1)) = ((h.run (creations n)).occupy bare).2 := by
  rw [creations, List.replicate_succ', run_snoc]
  rfl

theorem run_creations_allocations (h : Heap) (n : Nat) :
    (h.run (creations n)).tally.allocations = h.tally.allocations + n := by
  induction n with
  | zero => rfl
  | succ n ih => rw [run_creations_succ, occupy_allocations, ih, Nat.add_assoc]

theorem run_creations (hf : h.free = []) (hpos : 0 < h.slots.size)
    (hn : h.slots.size + n ≤ handleLimit) :
    (h.run (creations n)).free = [] ∧ (h.run (creations n)).slots.size = h.slots.size + n ∧
      (h.run (creations n)).slots[0]? = h.slots[0]? := by
  induction n with
  | zero => exact ⟨hf, rfl, rfl⟩
  | succ n ih =>
    obtain ⟨hfree, hsize, hfirst⟩ := ih (by omega)
    rw [run_creations_succ, (occupy_behind hfree (by omega) bare).2, occupy_free, hfree]
    refine ⟨rfl, by rw [Array.size_push, hsize, Nat.add_assoc], ?_⟩
    rw [Array.getElem?_push, if_neg (by omega), hfirst]

/-- The slot behind the last number is the first slot. -/
theorem occupy_around (hf : h.free = []) (hsize : h.slots.size = handleLimit) (o : Object) :
    (h.occupy o).2.slots[0]? = h.slots[0]?.map fun s => { s with object? := some o } := by
  have hi : (UInt32.ofNat h.slots.size).toNat = 0 := by
    rw [hsize]
    rfl
  have hne : ¬ 0 = h.slots.size := by
    rw [hsize]
    decide
  simp only [occupy, hf, hi, Array.getElem?_modify, if_true]
  rw [Array.getElem?_push, if_neg hne]

theorem creations_take_over (hf : h.free = []) (hsize : h.slots.size = 1)
    (hx : h.find? ⟨0, 1⟩ = some o) :
    (h.run (creations handleLimit)).find? ⟨0, 1⟩ = some bare := by
  obtain ⟨hn, hslot⟩ := find?_eq_some.1 hx
  have hlimit : handleLimit = (handleLimit - 1) + 1 := rfl
  obtain ⟨hfree, hfull, hfirst⟩ := run_creations (n := handleLimit - 1) hf (by omega) (by omega)
  rw [find?_eq_some, hlimit, run_creations_succ]
  refine ⟨hn, ?_⟩
  change ((h.run (creations (handleLimit - 1))).occupy bare).2.slots[0]? = _
  rw [occupy_around hfree (by omega), hfirst]
  exact congrArg (Option.map fun s => { s with object? := some bare }) hslot

end Heap

end InlineCache
