import InlineCache.Proofs.Heap.Change
import Mathlib.Data.List.Induction
import Mathlib.Data.List.Nodup
import Mathlib.Data.List.Perm.Subperm
import Mathlib.Data.List.Range

/-! The slots of the heap.
A destroyed object leaves its slot to a later generation, and a handle that was
never given out is no prototype. So no old link leads to a new object, as long as
the generations do not wrap around. -/

namespace InlineCache

theorem Handle.eq_of_parts {x y : Handle} (hs : x.slot.toNat = y.slot.toNat)
    (hg : x.generation = y.generation) : x = y := by
  cases x
  cases y
  simp only [Handle.mk.injEq]
  exact ⟨UInt32.toNat_inj.1 hs, hg⟩

namespace Heap

/-- One more than the generations and the slots that a handle can name. -/
def handleLimit : Nat := 4294967296

variable {h h' : Heap} {x y : Handle} {o o' : Object}

def Issued (h : Heap) (x : Handle) : Prop :=
  ∃ s, h.slots[x.slot.toNat]? = some s ∧ x.generation.toNat ≤ s.generation.toNat

structure Vacant (h : Heap) : Prop where
  free_nodup : h.free.Nodup
  mem_free : ∀ i, i ∈ h.free ↔ ∃ g, h.slots[i]? = some ⟨g, none⟩
  size_le : h.slots.size ≤ h.tally.allocations

structure Sound (h : Heap) : Prop extends Vacant h where
  census : h.tally.liveObjects + h.free.length = h.slots.size
  balance : h.tally.liveObjects + h.tally.releases = h.tally.allocations
  generation_pos : ∀ (i : Nat) (s : Slot), h.slots[i]? = some s → 0 < s.generation.toNat
  generation_le : ∀ (i : Nat) (s : Slot), h.slots[i]? = some s →
    s.generation.toNat ≤ h.tally.allocations
  prototype_issued : ∀ x o, h.find? x = some o → o.prototype = .null ∨ h.Issued o.prototype

theorem issued_of_find? (hx : h.find? x = some o) : h.Issued x :=
  ⟨_, (find?_eq_some.1 hx).2, le_refl _⟩

theorem find?_empty : ({} : Heap).find? x = none := by
  simp [find?]

theorem vacant_empty : ({} : Heap).Vacant where
  free_nodup := List.nodup_nil
  mem_free i := by simp
  size_le := Nat.le_refl _

theorem sound_empty : ({} : Heap).Sound where
  toVacant := vacant_empty
  census := rfl
  balance := rfl
  generation_pos i s hs := by simp at hs
  generation_le i s hs := by simp at hs
  prototype_issued x o hx := by simp [find?_empty] at hx

theorem Vacant.slot_not_free (hv : h.Vacant) (hx : h.find? x = some o) :
    x.slot.toNat ∉ h.free := by
  intro hi
  obtain ⟨g, hg⟩ := (hv.mem_free _).1 hi
  simp [(find?_eq_some.1 hx).2] at hg

theorem Sound.slot_lt (hx : h.find? x = some o) : x.slot.toNat < h.slots.size :=
  (Array.getElem?_eq_some_iff.1 (find?_eq_some.1 hx).2).1

theorem Vacant.free_lt (hv : h.Vacant) {i : Nat} (hi : i ∈ h.free) : i < h.slots.size := by
  obtain ⟨g, hg⟩ := (hv.mem_free i).1 hi
  exact (Array.getElem?_eq_some_iff.1 hg).1

theorem nodup_slots {xs : List Handle} (hnodup : xs.Nodup) (hlive : ∀ x ∈ xs, h.isLive x = true) :
    (xs.map fun x => x.slot.toNat).Nodup := by
  apply List.Nodup.map_on _ hnodup
  intro x hx y hy hxy
  obtain ⟨o, ho⟩ := isLive_iff.1 (hlive x hx)
  obtain ⟨o', ho'⟩ := isLive_iff.1 (hlive y hy)
  have hgx := (find?_eq_some.1 ho).2
  have hgy := (find?_eq_some.1 ho').2
  rw [← hxy, hgx, Option.some.injEq, Slot.mk.injEq] at hgy
  exact Handle.eq_of_parts hxy hgy.1

theorem slots_subset {xs : List Handle} (hlive : ∀ x ∈ xs, h.isLive x = true) :
    (xs.map fun x => x.slot.toNat) ⊆ List.range h.slots.size := by
  intro i hi
  obtain ⟨x, hx, rfl⟩ := List.mem_map.1 hi
  obtain ⟨o, ho⟩ := isLive_iff.1 (hlive x hx)
  exact List.mem_range.2 (Sound.slot_lt ho)

theorem Sound.length_le_liveObjects (hs : h.Sound) {xs : List Handle} (hnodup : xs.Nodup)
    (hlive : ∀ x ∈ xs, h.isLive x = true) : xs.length ≤ h.tally.liveObjects := by
  have hall : ((xs.map fun x => x.slot.toNat) ++ h.free).Nodup := by
    apply List.Nodup.append (nodup_slots hnodup hlive) hs.free_nodup
    intro i hi hfree
    obtain ⟨x, hx, rfl⟩ := List.mem_map.1 hi
    obtain ⟨o, ho⟩ := isLive_iff.1 (hlive x hx)
    exact hs.slot_not_free ho hfree
  have hsub : ((xs.map fun x => x.slot.toNat) ++ h.free) ⊆ List.range h.slots.size :=
    List.append_subset.2 ⟨slots_subset hlive, fun i hi => List.mem_range.2 (hs.free_lt hi)⟩
  have hlen := (List.subperm_of_subset hall hsub).length_le
  simp only [List.length_append, List.length_map, List.length_range] at hlen
  have := hs.census
  omega

theorem Sound.liveObjects_le (hs : h.Sound) : h.tally.liveObjects ≤ h.slots.size := by
  have := hs.census
  omega

theorem occupy_free (h : Heap) (o : Object) : (h.occupy o).2.free = h.free.tail := by
  simp only [occupy]
  cases h.free <;> rfl

theorem occupy_census (h : Heap) (o : Object) :
    (h.occupy o).2.tally.census =
      (h.tally.liveObjects + 1, h.tally.allocations + 1, h.tally.releases) := by
  simp only [occupy]
  cases h.free <;> rfl

theorem occupy_allocations (h : Heap) (o : Object) :
    (h.occupy o).2.tally.allocations = h.tally.allocations + 1 :=
  congrArg (·.2.1) (h.occupy_census o)

/-- Up to the last slot number, a slot with nothing free before it comes behind the others. -/
theorem occupy_behind (hf : h.free = []) (hlt : h.slots.size < handleLimit) (o : Object) :
    (h.occupy o).1 = ⟨UInt32.ofNat h.slots.size, 1⟩ ∧
      (h.occupy o).2.slots = h.slots.push ⟨1, some o⟩ := by
  have hi : (UInt32.ofNat h.slots.size).toNat = h.slots.size := UInt32.toNat_ofNat_of_lt' hlt
  simp only [occupy, hf, hi, Array.getElem?_push_size, Option.elim_some, true_and]
  apply Array.ext_getElem?
  intro j
  rw [Array.getElem?_modify]
  split
  · next hj => rw [← hj, Array.getElem?_push_size, Option.map_some]
  · rfl

section Occupy

variable (hs : h.Sound) (hlimit : h.tally.allocations + 1 < handleLimit) (o : Object)

include hs hlimit

theorem Sound.size_lt : h.slots.size < handleLimit :=
  (Nat.le_succ_of_le hs.size_le).trans_lt hlimit

/-- The handle of a new object: a slot of its own under the first generation, or a
slot that was empty under the next one. -/
theorem Sound.occupy_handle :
    (h.free = [] ∧ (h.occupy o).1.slot.toNat = h.slots.size ∧ (h.occupy o).1.generation = 1) ∨
      ∃ g, h.free.head? = some (h.occupy o).1.slot.toNat ∧
        h.slots[(h.occupy o).1.slot.toNat]? = some ⟨g, none⟩ ∧
        (h.occupy o).1.generation.toNat = g.toNat + 1 := by
  have hsize := hs.size_lt hlimit
  cases hf : h.free with
  | nil =>
    rw [(occupy_behind hf hsize o).1]
    exact .inl ⟨rfl, UInt32.toNat_ofNat_of_lt' hsize, rfl⟩
  | cons i free =>
    simp only [handleLimit] at hlimit
    have hi : i ∈ h.free := by rw [hf]; exact List.mem_cons_self
    obtain ⟨g, hg⟩ := (hs.mem_free i).1 hi
    have hlt := hs.free_lt hi
    have hle : g.toNat ≤ h.tally.allocations := hs.generation_le i _ hg
    have hslot : (UInt32.ofNat i).toNat = i := UInt32.toNat_ofNat_of_lt' (hlt.trans hsize)
    refine .inr ⟨g, ?_, ?_, ?_⟩
    · simp only [occupy, hf, hslot, List.head?_cons]
    · simp only [occupy, hf, hslot, hg]
    · simp only [occupy, hf, hg, Option.elim]
      rw [UInt32.toNat_add, UInt32.toNat_one, Nat.mod_eq_of_lt (by omega)]

theorem Sound.occupy_slot (i : Nat) :
    (h.occupy o).2.slots[i]? =
      if i = (h.occupy o).1.slot.toNat then some ⟨(h.occupy o).1.generation, some o⟩
      else h.slots[i]? := by
  rcases hs.occupy_handle hlimit o with ⟨hf, hslot, hgen⟩ | ⟨g, hf, hg, -⟩
  · rw [hslot, hgen, (occupy_behind hf (hs.size_lt hlimit) o).2]
    exact Array.getElem?_push
  · have hne := List.ne_nil_of_mem (List.mem_of_head? hf)
    obtain ⟨j, free, hcons⟩ := List.exists_cons_of_ne_nil hne
    have hj : (h.occupy o).1.slot.toNat = j := by
      rw [hcons, List.head?_cons, Option.some.injEq] at hf
      exact hf.symm
    rw [hj] at hg ⊢
    have hlt : j < h.slots.size := (Array.getElem?_eq_some_iff.1 hg).1
    simp only [occupy, hcons]
    by_cases hi : i = j
    · simp [hi, hlt]
    · simp [hi, Array.getElem?_setIfInBounds_ne (Ne.symm hi)]

theorem Sound.occupy_not_mem_tail : (h.occupy o).1.slot.toNat ∉ h.free.tail := by
  intro hi
  rcases hs.occupy_handle hlimit o with ⟨hnil, -, -⟩ | ⟨g, hhead, -, -⟩
  · rw [hnil, List.tail_nil] at hi
    exact List.not_mem_nil hi
  · have hnodup := hs.free_nodup
    rw [List.eq_cons_of_mem_head? hhead, List.nodup_cons] at hnodup
    exact hnodup.1 hi

theorem Sound.occupy_fresh : ¬ h.Issued (h.occupy o).1 := by
  rintro ⟨s, hslot, hle⟩
  rcases hs.occupy_handle hlimit o with ⟨-, hsize, -⟩ | ⟨g, -, hg, hgen⟩
  · rw [hsize, Array.getElem?_eq_none (Nat.le_refl _)] at hslot
    cases hslot
  · rw [hg, Option.some.injEq] at hslot
    subst hslot
    have hle' : (h.occupy o).1.generation.toNat ≤ g.toNat := hle
    omega

theorem Sound.issued_occupy (hy : h.Issued y) : (h.occupy o).2.Issued y := by
  obtain ⟨s, hslot, hle⟩ := hy
  simp only [Issued]
  rw [hs.occupy_slot hlimit]
  split
  · next he =>
    refine ⟨_, rfl, ?_⟩
    rcases hs.occupy_handle hlimit o with ⟨-, hsize, -⟩ | ⟨g, -, hg, hnext⟩
    · rw [he, hsize, Array.getElem?_eq_none (Nat.le_refl _)] at hslot
      cases hslot
    · rw [he, hg] at hslot
      cases hslot
      have hle' : y.generation.toNat ≤ g.toNat := hle
      simp only
      omega
  · exact ⟨s, hslot, hle⟩

theorem Sound.occupy_generation :
    0 < (h.occupy o).1.generation.toNat ∧
      (h.occupy o).1.generation.toNat ≤ h.tally.allocations + 1 := by
  rcases hs.occupy_handle hlimit o with ⟨-, -, hgen⟩ | ⟨g, -, hg, hgen⟩
  · rw [hgen, UInt32.toNat_one]
    omega
  · have hle : g.toNat ≤ h.tally.allocations := hs.generation_le _ _ hg
    omega

theorem Sound.occupy_ne_null : (h.occupy o).1 ≠ .null := by
  intro hn
  have hpos := (hs.occupy_generation hlimit o).1
  rw [hn] at hpos
  exact absurd hpos (by decide)

theorem Sound.find?_occupy (y : Handle) :
    (h.occupy o).2.find? y = if y = (h.occupy o).1 then some o else h.find? y := by
  by_cases hyn : y = .null
  · rw [hyn, if_neg (hs.occupy_ne_null hlimit o).symm, find?_null, find?_null]
  · simp only [find?, if_neg hyn, hs.occupy_slot hlimit]
    by_cases hslot : y.slot.toNat = (h.occupy o).1.slot.toNat
    · rw [if_pos hslot]
      by_cases hy : y = (h.occupy o).1
      · simp [hy]
      · have hg : (h.occupy o).1.generation ≠ y.generation :=
          fun hg => hy (Handle.eq_of_parts hslot hg.symm)
        simp only [if_neg hg, if_neg hy, hslot]
        rcases hs.occupy_handle hlimit o with ⟨-, hsize, -⟩ | ⟨g, -, hempty, -⟩
        · rw [hsize, Array.getElem?_eq_none (Nat.le_refl _)]
        · rw [hempty]
          simp
    · have hy : y ≠ (h.occupy o).1 := fun e => hslot (by rw [e])
      rw [if_neg hslot, if_neg hy]

end Occupy

section Modify

variable {f : Slot → Slot} {i j : Nat} {s : Slot}

theorem generation_of_modify (hslots : h'.slots = h.slots.modify i f)
    (hf : ∀ s, (f s).generation = s.generation) (hj : h'.slots[j]? = some s) :
    ∃ s', h.slots[j]? = some s' ∧ s'.generation = s.generation := by
  rw [hslots, Array.getElem?_modify] at hj
  split at hj
  · obtain ⟨s', hs', rfl⟩ := Option.map_eq_some_iff.1 hj
    exact ⟨s', hs', (hf s').symm⟩
  · exact ⟨s, hj, rfl⟩

theorem issued_of_modify (hslots : h'.slots = h.slots.modify i f)
    (hf : ∀ s, (f s).generation = s.generation) : h'.Issued y ↔ h.Issued y := by
  simp only [Issued, hslots, Array.getElem?_modify]
  split
  · cases h.slots[y.slot.toNat]? with
    | none => simp
    | some s => simp [hf]
  · rfl

end Modify

theorem update_slot (x : Handle) (o : Object) (i : Nat) :
    (h.update x o).slots[i]? =
      if x.slot.toNat = i then (h.slots[i]?).map fun s => { s with object? := some o }
      else h.slots[i]? := by
  simp only [update, Array.getElem?_modify]

theorem Vacant.counted (hv : h.Vacant) {t : HeapTally} (ht : t.census = h.tally.census) :
    ({ h with tally := t } : Heap).Vacant where
  free_nodup := hv.free_nodup
  mem_free := hv.mem_free
  size_le := by
    have hallocations := congrArg (·.2.1) ht
    exact hv.size_le.trans (Nat.le_of_eq hallocations.symm)

theorem Sound.counted (hs : h.Sound) {t : HeapTally} (ht : t.census = h.tally.census) :
    ({ h with tally := t } : Heap).Sound := by
  have hvacant := hs.toVacant.counted ht
  simp only [HeapTally.census, Prod.mk.injEq] at ht
  obtain ⟨hlive, hallocations, hreleases⟩ := ht
  constructor
  · exact hvacant
  · simpa only [hlive] using hs.census
  · simpa only [hlive, hallocations, hreleases] using hs.balance
  · exact hs.generation_pos
  · simpa only [hallocations] using hs.generation_le
  · exact hs.prototype_issued

theorem Vacant.update (hv : h.Vacant) (hx : h.find? x = some o) : (h.update x o').Vacant where
  free_nodup := hv.free_nodup
  mem_free i := by
    change i ∈ h.free ↔ _
    rw [update_slot]
    by_cases hi : x.slot.toNat = i
    · have hnot := hv.slot_not_free hx
      rw [hi] at hnot
      simp [hi, hnot]
    · rw [if_neg hi]
      exact hv.mem_free i
  size_le := by simpa only [Heap.update, Array.size_modify] using hv.size_le

theorem Sound.update (hs : h.Sound) (hx : h.find? x = some o)
    (hp : o'.prototype = .null ∨ h.Issued o'.prototype) : (h.update x o').Sound := by
  have hslots : (h.update x o').slots =
      h.slots.modify x.slot.toNat fun s => { s with object? := some o' } := rfl
  constructor
  · exact hs.toVacant.update hx
  · simpa only [Heap.update, Array.size_modify] using hs.census
  · exact hs.balance
  · intro i s hi
    obtain ⟨s', hs', hg⟩ := generation_of_modify hslots (fun _ => rfl) hi
    rw [← hg]
    exact hs.generation_pos i s' hs'
  · intro i s hi
    obtain ⟨s', hs', hg⟩ := generation_of_modify hslots (fun _ => rfl) hi
    rw [← hg]
    exact hs.generation_le i s' hs'
  · intro y q hy
    rw [issued_of_modify hslots fun _ => rfl]
    rw [find?_update hx] at hy
    split at hy
    · cases hy
      exact hp
    · exact hs.prototype_issued y q hy

theorem Vacant.occupy (hv : h.Vacant) (o : Object) : (h.occupy o).2.Vacant := by
  have hnodup := hv.free_nodup
  have hmem := hv.mem_free
  have hsize := hv.size_le
  simp only [Heap.occupy]
  cases hf : h.free with
  | nil =>
    rw [hf] at hmem
    refine ⟨List.nodup_nil, fun i => ⟨fun hi => absurd hi List.not_mem_nil, ?_⟩,
      by simpa using hsize⟩
    -- no slot was empty, and neither the slot behind them nor the one that is filled is
    rintro ⟨g, hg⟩
    rw [Array.getElem?_modify] at hg
    split at hg
    · obtain ⟨s, -, hs⟩ := Option.map_eq_some_iff.1 hg
      cases hs
    · rw [Array.getElem?_push] at hg
      split at hg
      · cases hg
      · exact (hmem i).2 ⟨g, hg⟩
  | cons j free =>
    rw [hf] at hnodup hmem
    have hlt := hv.free_lt (i := j) (hf ▸ List.mem_cons_self)
    obtain ⟨hj, hfree⟩ := List.nodup_cons.1 hnodup
    refine ⟨hfree, fun i => ?_, ?_⟩
    · simp only [Array.getElem?_setIfInBounds]
      by_cases hi : j = i
      · subst hi
        simp [hj, hlt]
      · rw [if_neg hi, ← hmem i, List.mem_cons]
        exact ⟨.inr, fun h => h.resolve_left (Ne.symm hi)⟩
    · simpa only [Array.size_setIfInBounds] using Nat.le_succ_of_le hsize

theorem Sound.occupy (hs : h.Sound) (hlimit : h.tally.allocations + 1 < handleLimit)
    (hp : o.prototype = .null ∨ h.Issued o.prototype) : (h.occupy o).2.Sound := by
  have hslot := hs.occupy_slot hlimit o
  have hgen := hs.occupy_generation hlimit o
  have hfree := h.occupy_free o
  have htally := h.occupy_census o
  simp only [HeapTally.census, Prod.mk.injEq] at htally
  constructor
  · exact hs.toVacant.occupy o
  · have hcensus := hs.census
    rw [htally.1, hfree]
    simp only [Heap.occupy]
    cases hf : h.free with
    | nil => simp [hf] at hcensus ⊢; omega
    | cons i free => simp [hf] at hcensus ⊢; omega
  · have hbalance := hs.balance
    rw [htally.1, htally.2.1, htally.2.2]
    omega
  · intro i s hi
    rw [hslot] at hi
    split at hi
    · cases hi
      exact hgen.1
    · exact hs.generation_pos i s hi
  · intro i s hi
    rw [htally.2.1]
    rw [hslot] at hi
    split at hi
    · cases hi
      exact hgen.2
    · exact Nat.le_succ_of_le (hs.generation_le i s hi)
  · intro y q hy
    rw [hs.find?_occupy hlimit] at hy
    split at hy
    · cases hy
      exact hp.imp_right (hs.issued_occupy hlimit o)
    · exact (hs.prototype_issued y q hy).imp_right (hs.issued_occupy hlimit o)

theorem find?_destroy (hx : h.find? x = some o) (y : Handle) :
    (h.destroy x).2.find? y = if y = x then none else h.find? y := by
  obtain ⟨hn, hslot⟩ := find?_eq_some.1 hx
  simp only [destroy, hx]
  by_cases hyn : y = .null
  · simp [hyn, find?_null]
  · simp only [find?, if_neg hyn, Array.getElem?_modify]
    by_cases hs : x.slot.toNat = y.slot.toNat
    · rw [if_pos hs, ← hs, hslot]
      by_cases hy : y = x
      · simp [hy]
      · have hg : x.generation ≠ y.generation := fun hg => hy (Handle.eq_of_parts hs hg).symm
        simp [hy, hg]
    · have hy : y ≠ x := fun e => hs (by rw [e])
      rw [if_neg hs, if_neg hy]

theorem Vacant.destroy (hv : h.Vacant) (hx : h.find? x = some o) : (h.destroy x).2.Vacant := by
  have hslot := (find?_eq_some.1 hx).2
  simp only [Heap.destroy, hx]
  refine ⟨List.nodup_cons.2 ⟨hv.slot_not_free hx, hv.free_nodup⟩, fun i => ?_,
    by simpa only [Array.size_modify] using hv.size_le⟩
  rw [List.mem_cons, hv.mem_free i, Array.getElem?_modify]
  by_cases hi : x.slot.toNat = i
  · simp [← hi, hslot]
  · simp [hi, Ne.symm hi]

theorem Sound.destroy (hs : h.Sound) (hx : h.find? x = some o) : (h.destroy x).2.Sound := by
  have hlive : 1 ≤ h.tally.liveObjects := by
    apply hs.length_le_liveObjects (List.nodup_singleton x)
    intro y hy
    rw [List.mem_singleton.1 hy]
    exact isLive_iff.2 ⟨o, hx⟩
  have hslots : (h.destroy x).2.slots =
      h.slots.modify x.slot.toNat fun s => { s with object? := none } := by
    simp only [Heap.destroy, hx]
  have hallocations : (h.destroy x).2.tally.allocations = h.tally.allocations := by
    simp only [Heap.destroy, hx]
  constructor
  · exact hs.toVacant.destroy hx
  · have hcensus := hs.census
    simp only [Heap.destroy, hx, List.length_cons, Array.size_modify]
    omega
  · have hbalance := hs.balance
    simp only [Heap.destroy, hx]
    omega
  · intro i s hi
    obtain ⟨s', hs', hg⟩ := generation_of_modify hslots (fun _ => rfl) hi
    rw [← hg]
    exact hs.generation_pos i s' hs'
  · intro i s hi
    obtain ⟨s', hs', hg⟩ := generation_of_modify hslots (fun _ => rfl) hi
    rw [← hg, hallocations]
    exact hs.generation_le i s' hs'
  · intro y q hy
    rw [issued_of_modify hslots fun _ => rfl]
    rw [find?_destroy hx] at hy
    split at hy
    · cases hy
    · exact hs.prototype_issued y q hy

theorem issued_of_isLive (hx : h.isLive x) : h.Issued x := by
  obtain ⟨o, ho⟩ := isLive_iff.1 hx
  exact issued_of_find? ho

theorem Edit.census_eq (he : Edit h h') : h'.tally.census = h.tally.census := by
  cases he with
  | counted t ht => exact ht
  | stored x o o' t hx ho hp ht => exact ht
  | linked x o p hx ho hp hr => rfl

theorem Edit.allocations_eq (he : Edit h h') : h'.tally.allocations = h.tally.allocations :=
  congrArg (·.2.1) he.census_eq

theorem Change.allocations_le (hc : Change h h') :
    h.tally.allocations ≤ h'.tally.allocations := by
  cases hc with
  | edit he => exact Nat.le_of_eq he.allocations_eq.symm
  | opened kind label prototype hp =>
    rw [occupy_allocations]
    exact Nat.le_succ _
  | closed x o hx => simp only [Heap.destroy, hx, Nat.le_refl]

theorem Sound.edit (hs : h.Sound) (he : Edit h h') : h'.Sound := by
  cases he with
  | counted t ht => exact hs.counted ht
  | stored x o o' t hx ho hp ht =>
    have hp' := hs.prototype_issued x o hx
    rw [← hp] at hp'
    exact (hs.update hx hp').counted ht
  | linked x o p hx ho hp hr => exact hs.update hx (hp.imp_right issued_of_isLive)

theorem Sound.change (hs : h.Sound) (hc : Change h h')
    (hlimit : h'.tally.allocations < handleLimit) : h'.Sound := by
  cases hc with
  | edit he => exact hs.edit he
  | opened kind label prototype hp =>
    rw [occupy_allocations] at hlimit
    exact hs.occupy hlimit (hp.imp_right issued_of_isLive)
  | closed x o hx => exact hs.destroy hx

/-- Heaps with a history that made fewer objects than handles can name. -/
def ReachedBelowLimit (h : Heap) : Prop :=
  ∃ ops, after ops = h ∧ h.tally.allocations < handleLimit

theorem after_snoc (ops : List HeapOp) (op : HeapOp) :
    after (ops ++ [op]) = ((after ops).perform op).2 := by
  simp only [after, List.foldl_append, List.foldl_cons, List.foldl_nil]

theorem ReachedBelowLimit.induction {P : Heap → Prop} (hempty : P {})
    (hstep : ∀ {h h' : Heap}, h.Sound → P h → Change h h' →
      h'.tally.allocations < handleLimit → P h')
    (hr : h.ReachedBelowLimit) : h.Sound ∧ P h := by
  obtain ⟨ops, rfl, hlimit⟩ := hr
  induction ops using List.reverseRecOn with
  | nil => exact ⟨sound_empty, hempty⟩
  | append_singleton ops op ih =>
    rw [after_snoc] at hlimit ⊢
    have hchange := (after ops).perform_change op
    obtain ⟨hs, hp⟩ := ih (Nat.lt_of_le_of_lt hchange.allocations_le hlimit)
    exact ⟨hs.change hchange hlimit, hstep hs hp hchange hlimit⟩

end Heap

end InlineCache
