import InlineCache.Proofs.Heap.Slots
import Mathlib.Logic.Function.Iterate

/-! Prototype walks.
Every handle stands at a depth, the number of live objects its walk visits. Links
to destroyed objects stay dangling when their slots are used again, so the depths
survive every step, and no walk is longer than the live objects are many. -/

namespace InlineCache

namespace Heap

variable {h h' : Heap} {x y : Handle} {o o' : Object} {n m b : Nat}

inductive Depth (h : Heap) : Handle → Nat → Prop
  | ended {x : Handle} (hx : h.find? x = none) : Depth h x 0
  | above {x : Handle} {o : Object} {n : Nat} (hx : h.find? x = some o)
      (ho : Depth h o.prototype n) : Depth h x (n + 1)

def Acyclic (h : Heap) : Prop := ∀ x, ∃ n, h.Depth x n

def link? (h : Heap) (x : Handle) : Option Handle := (h.find? x).map (·.prototype)

theorem prototype_of_find? (hx : h.find? x = some o) : h.prototype x = o.prototype := by
  simp [prototype, hx]

theorem prototype_of_dead (hx : h.find? x = none) : h.prototype x = .null := by
  simp [prototype, hx]

namespace Depth

theorem unique (hn : h.Depth x n) (hm : h.Depth x m) : n = m := by
  induction hn generalizing m with
  | ended hx =>
    cases hm with
    | ended => rfl
    | above hx' => simp [hx] at hx'
  | above hx _ ih =>
    cases hm with
    | ended hx' => simp [hx] at hx'
    | above hx' ho' =>
      rw [hx, Option.some.injEq] at hx'
      subst hx'
      exact congrArg Nat.succ (ih ho')

theorem iterate (hd : h.Depth x n) (hm : m ≤ n) : h.Depth (h.prototype^[m] x) (n - m) := by
  induction hd generalizing m with
  | ended hx =>
    obtain rfl : m = 0 := by omega
    exact .ended hx
  | @above x o n hx ho ih =>
    cases m with
    | zero => exact .above hx ho
    | succ m =>
      rw [Function.iterate_succ_apply, prototype_of_find? hx, Nat.add_sub_add_right]
      exact ih (by omega)

theorem isLive_eq (hd : h.Depth x n) : h.isLive x = decide (0 < n) := by
  cases hd with
  | ended hx => simp [isLive, hx]
  | above hx ho => simp [isLive, hx]

/-- Before its end a walk repeats no handle, since the depths go down. -/
theorem iterate_injective (hd : h.Depth x n) {i j : Nat} (hi : i ≤ n) (hj : j ≤ n)
    (he : h.prototype^[i] x = h.prototype^[j] x) : i = j := by
  have hdi := hd.iterate hi
  rw [he] at hdi
  have := hdi.unique (hd.iterate hj)
  omega

theorem iterate_live (hd : h.Depth x n) (hm : m < n) : h.isLive (h.prototype^[m] x) = true := by
  rw [(hd.iterate (Nat.le_of_lt hm)).isLive_eq, decide_eq_true_eq]
  omega

theorem iterate_dead (hd : h.Depth x n) (hm : n ≤ m) :
    h.isLive (h.prototype^[m] x) = false := by
  induction m, hm using Nat.le_induction with
  | base =>
    rw [(hd.iterate (Nat.le_refl n)).isLive_eq, Nat.sub_self]
    rfl
  | succ m _ ih =>
    rw [Function.iterate_succ_apply', prototype_of_dead (not_isLive_iff.1 ih)]
    exact not_isLive_iff.2 find?_null

theorem le_liveObjects (hd : h.Depth x n) (hs : h.Sound) : n ≤ h.tally.liveObjects := by
  have hnodup : ((List.range n).map fun m => h.prototype^[m] x).Nodup := by
    apply List.Nodup.map_on _ List.nodup_range
    intro i hi j hj he
    rw [List.mem_range] at hi hj
    exact hd.iterate_injective (Nat.le_of_lt hi) (Nat.le_of_lt hj) he
  have hlive : ∀ y ∈ (List.range n).map fun m => h.prototype^[m] x, h.isLive y = true := by
    intro y hy
    obtain ⟨m, hm, rfl⟩ := List.mem_map.1 hy
    exact hd.iterate_live (List.mem_range.1 hm)
  simpa using hs.length_le_liveObjects hnodup hlive

theorem le_size (hd : h.Depth x n) (hs : h.Sound) : n ≤ h.slots.size :=
  Nat.le_trans (hd.le_liveObjects hs) hs.liveObjects_le

theorem prototype_ne_self (hx : h.find? x = some o) (ho : h.Depth o.prototype n) :
    o.prototype ≠ x := by
  intro he
  have := (above hx ho).unique (he ▸ ho)
  omega

theorem transfer {P : Handle → Prop} (hd : h.Depth x n)
    (hclosed : ∀ y o, P y → h.find? y = some o → P o.prototype)
    (hlink : ∀ y, P y → h'.link? y = h.link? y) (hx : P x) : h'.Depth x n := by
  induction hd with
  | @ended x hdead =>
    have he := hlink x hx
    simp only [link?, hdead, Option.map_none, Option.map_eq_none_iff] at he
    exact .ended he
  | @above x o n hfind _ ih =>
    have he := hlink x hx
    simp only [link?, hfind, Option.map_some, Option.map_eq_some_iff] at he
    obtain ⟨o', ho', hp⟩ := he
    refine .above ho' ?_
    rw [hp]
    exact ih (hclosed x o hx hfind)

theorem nearest?_eq (hd : h.Depth x n) (p : Place) (hb : n ≤ b) :
    h.nearest? p b x = h.nearest? p n x := by
  induction hd generalizing b with
  | ended hx =>
    cases b with
    | zero => rfl
    | succ c => simp [nearest?, storage?, hx]
  | @above x o n hx _ ih =>
    obtain ⟨c, rfl⟩ : ∃ c, b = c + 1 := ⟨b - 1, by omega⟩
    simp only [nearest?]
    cases hst : h.storage? x with
    | none => rfl
    | some o' =>
      have ho' : o' = o := by
        have hfind := (storage?_eq_some.1 hst).1
        rw [hx, Option.some.injEq] at hfind
        exact hfind.symm
      subst ho'
      simp only
      cases o'.own? p with
      | some q => rfl
      | none => exact ih (by omega)

theorem reaches_iff (hd : h.Depth y n) (hb : n < b) :
    h.reaches x b y = true ↔ x ≠ .null ∧ ∃ m ≤ n, h.prototype^[m] y = x := by
  induction hd generalizing b with
  | @ended y hy =>
    obtain ⟨c, rfl⟩ : ∃ c, b = c + 1 := ⟨b - 1, by omega⟩
    simp only [reaches, hy, Nat.le_zero_eq, exists_eq_left, Function.iterate_zero, id]
    by_cases hn : y = .null
    · simp only [if_pos hn, Bool.false_eq_true, false_iff, not_and]
      intro hx he
      exact hx (he ▸ hn)
    · by_cases hyx : y = x
      · rw [if_neg hn, if_pos hyx]
        exact ⟨fun _ => ⟨hyx ▸ hn, hyx⟩, fun _ => rfl⟩
      · simp [hn, hyx]
  | @above y o n hy ho ih =>
    obtain ⟨c, rfl⟩ : ∃ c, b = c + 1 := ⟨b - 1, by omega⟩
    have hn := ne_null_of_find? hy
    simp only [reaches, hy, if_neg hn, if_neg (prototype_ne_self hy ho)]
    by_cases hyx : y = x
    · subst hyx
      simp only [if_true, true_iff]
      exact ⟨hn, 0, Nat.zero_le _, rfl⟩
    · rw [if_neg hyx, ih (by omega)]
      refine and_congr_right fun _ => ⟨?_, ?_⟩
      · rintro ⟨m, hm, he⟩
        refine ⟨m + 1, by omega, ?_⟩
        rwa [Function.iterate_succ_apply, prototype_of_find? hy]
      · rintro ⟨m, hm, he⟩
        cases m with
        | zero => exact absurd he hyx
        | succ m =>
          rw [Function.iterate_succ_apply, prototype_of_find? hy] at he
          exact ⟨m, by omega, he⟩

/-- The bounded search misses a live object only where it is not on the walk. -/
theorem reaches_eq_false_iff (hd : h.Depth y n) (hs : h.Sound) (hx : h.find? x = some o) :
    h.reaches x (h.slots.size + 1) y = false ↔ ∀ m, h.prototype^[m] y ≠ x := by
  have hsize := hd.le_size hs
  have hreaches := hd.reaches_iff (x := x) (b := h.slots.size + 1) (by omega)
  constructor
  · intro hr m he
    by_cases hm : m ≤ n
    · rw [hreaches.2 ⟨ne_null_of_find? hx, m, hm, he⟩] at hr
      cases hr
    · have hdead := hd.iterate_dead (m := m) (by omega)
      rw [he, not_isLive_iff, hx] at hdead
      cases hdead
  · intro hfree
    by_contra hr
    obtain ⟨-, m, -, he⟩ := hreaches.1 (eq_true_of_ne_false hr)
    exact hfree m he

end Depth

theorem Acyclic.of_links (ha : h.Acyclic)
    (hlink : ∀ y, (∃ m, h'.Depth y m) ∨ h'.link? y = h.link? y) : h'.Acyclic := by
  intro y
  obtain ⟨n, hd⟩ := ha y
  induction hd with
  | @ended y hy =>
    rcases hlink y with hm | he
    · exact hm
    · simp only [link?, hy, Option.map_none, Option.map_eq_none_iff] at he
      exact ⟨0, .ended he⟩
  | @above y o n hy _ ih =>
    rcases hlink y with hm | he
    · exact hm
    · simp only [link?, hy, Option.map_some, Option.map_eq_some_iff] at he
      obtain ⟨o', ho', hp⟩ := he
      obtain ⟨m, hm⟩ := ih
      exact ⟨m + 1, .above ho' (hp ▸ hm)⟩

theorem Acyclic.link (ha : h.Acyclic) (hs : h.Sound) {p : Handle} (hx : h.find? x = some o)
    (hr : h.reaches x (h.slots.size + 1) p = false) :
    (h.update x { o with prototype := p }).Acyclic := by
  obtain ⟨n, hd⟩ := ha p
  have hfree := (hd.reaches_eq_false_iff hs hx).1 hr
  have hlinked : ∀ y, y ≠ x → (h.update x { o with prototype := p }).link? y = h.link? y := by
    intro y hy
    simp only [link?, find?_update hx, if_neg hy]
  have hdp : (h.update x { o with prototype := p }).Depth p n := by
    apply hd.transfer (P := fun y => ∀ m, h.prototype^[m] y ≠ x) _ _ hfree
    · intro y o hy hfind m
      have := hy (m + 1)
      rwa [Function.iterate_succ_apply, prototype_of_find? hfind] at this
    · intro y hy
      exact hlinked y (hy 0)
  apply ha.of_links
  intro y
  by_cases hy : y = x
  · left
    refine ⟨n + 1, .above (o := { o with prototype := p }) ?_ hdp⟩
    rw [hy, find?_update hx, if_pos rfl]
  · right
    exact hlinked y hy

/-- A new object is on no walk but its own, as its handle was never given out. -/
theorem Acyclic.occupy (ha : h.Acyclic) (hs : h.Sound)
    (hlimit : h.tally.allocations + 1 < handleLimit)
    (hp : o.prototype = .null ∨ h.Issued o.prototype) : (h.occupy o).2.Acyclic := by
  have hfind := hs.find?_occupy hlimit o
  have hfresh := hs.occupy_fresh hlimit o
  have hnull := hs.occupy_ne_null hlimit o
  have hne : ∀ {q}, (q = .null ∨ h.Issued q) → q ≠ (h.occupy o).1 := by
    rintro q (hq | hq) rfl
    · exact hnull hq
    · exact hfresh hq
  have hold : ∀ y, y ≠ (h.occupy o).1 → ∃ n, (h.occupy o).2.Depth y n := by
    intro y hy
    obtain ⟨n, hd⟩ := ha y
    refine ⟨n, hd.transfer (P := fun y => y ≠ (h.occupy o).1) ?_ ?_ hy⟩
    · intro y q _ hq
      exact hne (hs.prototype_issued y q hq)
    · intro y hy
      simp only [link?, hfind, if_neg hy]
  intro y
  by_cases hy : y = (h.occupy o).1
  · obtain ⟨n, hd⟩ := hold o.prototype (hne hp)
    refine ⟨n + 1, .above (o := o) ?_ hd⟩
    rw [hfind, if_pos hy]
  · exact hold y hy

theorem Acyclic.edit (ha : h.Acyclic) (hs : h.Sound) (he : Edit h h') : h'.Acyclic := by
  cases he with
  | counted t ht => exact ha.of_links fun y => .inr rfl
  | stored x o o' t hx ho hp ht =>
    apply ha.of_links
    intro y
    right
    simp only [link?, find?_tally, find?_update hx]
    by_cases hy : y = x
    · simp [hy, hx, hp]
    · rw [if_neg hy]
  | linked x o p hx ho hp hr => exact ha.link hs hx hr

theorem Acyclic.change (ha : h.Acyclic) (hs : h.Sound) (hc : Change h h')
    (hlimit : h'.tally.allocations < handleLimit) : h'.Acyclic := by
  cases hc with
  | edit he => exact ha.edit hs he
  | opened kind label prototype hp =>
    rw [occupy_allocations] at hlimit
    exact ha.occupy hs hlimit (hp.imp_right issued_of_isLive)
  | closed x o hx =>
    apply ha.of_links
    intro y
    by_cases hy : y = x
    · left
      refine ⟨0, .ended ?_⟩
      rw [find?_destroy hx, if_pos hy]
    · right
      simp only [link?, find?_destroy hx, if_neg hy]

theorem acyclic_empty : ({} : Heap).Acyclic := fun _ => ⟨0, .ended find?_empty⟩

theorem ReachedBelowLimit.acyclic (hr : h.ReachedBelowLimit) : h.Sound ∧ h.Acyclic :=
  hr.induction acyclic_empty fun hs ha hc hlimit => ha.change hs hc hlimit

theorem setPrototype_ok_iff (hs : h.Sound) (ha : h.Acyclic) {p : Handle}
    (hx : h.find? x = some o) (ho : o.extensible = true) (hp : p = .null ∨ h.isLive p) :
    (h.setPrototype x p).1 = .ok ↔ ∀ n, h.prototype^[n] p ≠ x := by
  obtain ⟨n, hd⟩ := ha p
  have hgiven : ¬ (p ≠ .null ∧ (!h.isLive p) = true) := by
    rintro ⟨hnull, hdead⟩
    rcases hp with hp | hp
    · exact hnull hp
    · simp [hp] at hdead
  rw [← hd.reaches_eq_false_iff hs hx]
  simp only [setPrototype, hx, if_neg hgiven, ho, Bool.not_true, Bool.false_eq_true, false_and,
    if_false]
  cases h.reaches x (h.slots.size + 1) p with
  | true => simp
  | false => simp

theorem Acyclic.inherited?_eq (ha : h.Acyclic) (hs : h.Sound) (o : Object) (p : Place)
    (hb : h.slots.size ≤ b) : h.inherited? o p = h.nearest? p b o.prototype := by
  obtain ⟨n, hd⟩ := ha o.prototype
  have hn := hd.le_size hs
  rw [inherited?, hd.nearest?_eq p hn, hd.nearest?_eq p (Nat.le_trans hn hb)]

theorem Acyclic.readAt_eq (ha : h.Acyclic) (hs : h.Sound) (p : Place)
    (hx : (h.storage? x).isSome = true) (hb : h.slots.size < b) :
    (h.readAt x p).1 =
      (h.nearest? p b x).elim (.notFound, .undefined) fun q => (.ok, q.value) := by
  obtain ⟨c, rfl⟩ : ∃ c, b = c + 1 := ⟨b - 1, by omega⟩
  obtain ⟨o, ho⟩ := Option.isSome_iff_exists.1 hx
  simp only [readAt, nearest?, ho]
  cases o.own? p with
  | some q => rfl
  | none =>
    simp only
    rw [ha.inherited?_eq hs o p (Nat.le_of_lt_succ hb)]
    cases h.nearest? p c o.prototype with
    | some q => rfl
    | none => rfl

/-- Prototype walks of a reachable heap. A walk repeats no handle and ends within as
many steps as there are live objects. A link is refused where the object is on the
walk of its new prototype, and nowhere else. No search ends because of its bound. -/
theorem ReachedBelowLimit.prototype_walks_end (hr : h.ReachedBelowLimit) :
    (∀ x, h.isLive x = true →
      ∃ n ≤ h.tally.liveObjects, h.isLive (h.prototype^[n] x) = false ∧
        (∀ m < n, h.isLive (h.prototype^[m] x) = true) ∧
        ∀ i ≤ n, ∀ j ≤ n, h.prototype^[i] x = h.prototype^[j] x → i = j) ∧
    (∀ x o p, h.find? x = some o → o.extensible = true → (p = .null ∨ h.isLive p = true) →
      ((h.setPrototype x p).1 = .ok ↔ ∀ n, h.prototype^[n] p ≠ x)) ∧
    (∀ x n, h.slots.size ≤ n → h.isLive (h.prototype^[n] x) = false) ∧
    (∀ o p bound, h.slots.size ≤ bound →
      h.inherited? o p = h.nearest? p bound o.prototype) ∧
    (∀ x p bound, (h.storage? x).isSome = true → h.slots.size < bound →
      (h.readAt x p).1 =
        (h.nearest? p bound x).elim (.notFound, .undefined) fun q => (.ok, q.value)) ∧
    ∀ x y bound, h.slots.size + 1 ≤ bound →
      h.reaches x bound y = h.reaches x (h.slots.size + 1) y := by
  obtain ⟨hs, ha⟩ := hr.acyclic
  refine ⟨?_, ?_, ?_, ?_, ?_, ?_⟩
  · intro x _
    obtain ⟨n, hd⟩ := ha x
    refine ⟨n, hd.le_liveObjects hs, hd.iterate_dead (Nat.le_refl n), ?_, ?_⟩
    · exact fun m hm => hd.iterate_live hm
    · exact fun i hi j hj he => hd.iterate_injective hi hj he
  · intro x o p hx ho hp
    exact setPrototype_ok_iff hs ha hx ho hp
  · intro x n hn
    obtain ⟨m, hd⟩ := ha x
    have := hd.le_size hs
    exact hd.iterate_dead (by omega)
  · intro o p bound hb
    exact ha.inherited?_eq hs o p hb
  · intro x p bound hx hb
    exact ha.readAt_eq hs p hx hb
  · intro x y bound hb
    obtain ⟨n, hd⟩ := ha y
    have := hd.le_size hs
    rw [Bool.eq_iff_iff, hd.reaches_iff (by omega), hd.reaches_iff (by omega)]

end Heap

namespace Demonstration

def recycled : Heap :=
  .after [.create [97] .null, .create [98] ⟨0, 1⟩, .destroy ⟨0, 1⟩, .createArray [99] ⟨1, 1⟩]

end Demonstration

open Demonstration in
theorem Heap.recycled_walk_ends :
    recycled.ReachedBelowLimit ∧
      recycled.isLive ⟨0, 2⟩ = true ∧
      (∃ n ≤ recycled.tally.liveObjects,
        recycled.isLive (recycled.prototype^[n] ⟨0, 2⟩) = false) ∧
      ((recycled.setPrototype ⟨1, 1⟩ ⟨0, 2⟩).1 = .ok ↔
        ∀ n, recycled.prototype^[n] ⟨0, 2⟩ ≠ ⟨1, 1⟩) := by
  have hr : recycled.ReachedBelowLimit := ⟨_, rfl, by decide⟩
  obtain ⟨hends, hlink, -⟩ := hr.prototype_walks_end
  obtain ⟨n, hn, hdead, -⟩ := hends ⟨0, 2⟩ rfl
  exact ⟨hr, rfl, ⟨n, hn, hdead⟩, hlink ⟨1, 1⟩ _ ⟨0, 2⟩ rfl rfl (.inr rfl)⟩

end InlineCache
