import InlineCache.Proofs.Heap.Slots
import Mathlib.Logic.Relation

/-! The life of an object.
A new object takes a free slot, and a slot is free only when it is empty. So between
its creation and its end an object changes by steps of its own, however many objects
are made and destroyed around it. -/

namespace InlineCache

namespace Heap

variable {h h' : Heap} {x y : Handle} {o o' q : Object}

def Reached (h : Heap) : Prop := ∃ ops, after ops = h

def run (h : Heap) (ops : List HeapOp) : Heap := ops.foldl (fun h op => (h.perform op).2) h

theorem run_cons (h : Heap) (op : HeapOp) (ops : List HeapOp) :
    h.run (op :: ops) = (h.perform op).2.run ops := rfl

theorem run_snoc (h : Heap) (ops : List HeapOp) (op : HeapOp) :
    h.run (ops ++ [op]) = ((h.run ops).perform op).2 :=
  List.foldl_append ..

theorem after_append (ops more : List HeapOp) : after (ops ++ more) = (after ops).run more :=
  List.foldl_append ..

theorem Reached.run (hr : h.Reached) (more : List HeapOp) : (h.run more).Reached := by
  obtain ⟨ops, rfl⟩ := hr
  exact ⟨ops ++ more, after_append ops more⟩

theorem occupy_slots (h : Heap) (o : Object) (i : Nat) :
    (h.occupy o).2.slots[i]? = h.slots[i]? ∨ ∃ g, (h.occupy o).2.slots[i]? = some ⟨g, some o⟩ := by
  simp only [occupy]
  cases hf : h.free with
  | nil =>
    simp only [Array.getElem?_modify, Array.getElem?_push]
    by_cases hi : i = h.slots.size
    · simp only [if_pos hi, Option.map_some, ite_self]
      exact .inr ⟨1, rfl⟩
    · simp only [if_neg hi]
      split
      · cases h.slots[i]? with
        | none => exact .inl rfl
        | some s => exact .inr ⟨s.generation, rfl⟩
      · exact .inl rfl
  | cons j free =>
    by_cases hi : i = j
    · subst hi
      simp only [Array.getElem?_setIfInBounds, if_true]
      split
      · exact .inr ⟨_, rfl⟩
      · next hlt => exact .inl (Array.getElem?_eq_none (Nat.not_lt.1 hlt)).symm
    · exact .inl (Array.getElem?_setIfInBounds_ne (Ne.symm hi))

/-- No slot came in past the last that a handle can name. -/
def Numbered (h h' : Heap) : Prop := h'.slots.size ≤ max handleLimit h.slots.size

theorem Vacant.numbered (hv : h'.Vacant) (hlimit : h'.tally.allocations < handleLimit) :
    h.Numbered h' :=
  (hv.size_le.trans hlimit.le).trans (le_max_left _ _)

theorem Edit.size_eq (he : Edit h h') : h'.slots.size = h.slots.size := by
  cases he with
  | counted t ht => rfl
  | stored x o o' t hx ho hp ht => exact Array.size_modify
  | linked x o p hx ho hp hr => exact Array.size_modify

theorem Edit.numbered (he : Edit h h') : h.Numbered h' :=
  he.size_eq.le.trans (le_max_right _ _)

theorem Change.size_le (hc : Change h h') : h.slots.size ≤ h'.slots.size := by
  cases hc with
  | edit he => exact he.size_eq.ge
  | opened kind label prototype hp =>
    simp only [Heap.occupy]
    cases h.free with
    | nil => simp only [Array.size_modify, Array.size_push, Nat.le_succ]
    | cons i free => simp only [Array.size_setIfInBounds, Nat.le_refl]
  | closed x o hx => simp only [Heap.destroy, hx, Array.size_modify, Nat.le_refl]

theorem size_le_run (h : Heap) (more : List HeapOp) : h.slots.size ≤ (h.run more).slots.size := by
  induction more generalizing h with
  | nil => exact Nat.le_refl _
  | cons op more ih => exact ((h.perform_change op).size_le).trans (ih (h.perform op).2)

theorem Numbered.of_run_cons {op : HeapOp} {more : List HeapOp}
    (hn : h.Numbered (h.run (op :: more))) :
    h.Numbered (h.perform op).2 ∧ (h.perform op).2.Numbered ((h.perform op).2.run more) := by
  have hsize := (h.perform_change op).size_le
  have hrest := (h.perform op).2.size_le_run more
  simp only [Numbered, run_cons] at hn ⊢
  omega

/-- A slot in use is not taken over while new slots have numbers. -/
theorem Vacant.find?_occupy_live (hv : h.Vacant) (hx : h.find? x = some q)
    (hslots : h.Numbered (h.occupy o).2) : (h.occupy o).2.find? x = some q := by
  obtain ⟨hn, hslot⟩ := find?_eq_some.1 hx
  refine find?_eq_some.2 ⟨hn, ?_⟩
  cases hf : h.free with
  | nil =>
    have hlt : h.slots.size < handleLimit := by
      simp only [Numbered, Heap.occupy, hf, Array.size_modify, Array.size_push] at hslots
      omega
    rw [(occupy_behind hf hlt o).2, Array.getElem?_push, if_neg (Sound.slot_lt hx).ne, hslot]
  | cons i free =>
    have hne : i ≠ x.slot.toNat := by
      rintro rfl
      exact hv.slot_not_free hx (hf ▸ List.mem_cons_self)
    simp only [Heap.occupy, hf]
    rw [Array.getElem?_setIfInBounds_ne hne, hslot]

theorem find?_occupy_cases (hx : (h.occupy o).2.find? x = some q) :
    q = o ∨ h.find? x = some q := by
  obtain ⟨hn, hslot⟩ := find?_eq_some.1 hx
  rcases h.occupy_slots o x.slot.toNat with hsame | ⟨g, hnew⟩
  · rw [hsame] at hslot
    exact .inr (find?_eq_some.2 ⟨hn, hslot⟩)
  · rw [hnew] at hslot
    cases hslot
    exact .inl rfl

theorem Vacant.edit (hv : h.Vacant) (he : Edit h h') : h'.Vacant := by
  cases he with
  | counted t ht => exact hv.counted ht
  | stored x o o' t hx ho hp ht => exact (hv.update hx).counted ht
  | linked x o p hx ho hp hr => exact hv.update hx

theorem Vacant.change (hv : h.Vacant) (hc : Change h h') : h'.Vacant := by
  cases hc with
  | edit he => exact hv.edit he
  | opened kind label prototype hp => exact hv.occupy _
  | closed x o hx => exact hv.destroy hx

theorem Reached.induction {P : Heap → Prop} (hempty : P {})
    (hstep : ∀ {h h' : Heap}, h.Vacant → P h → Change h h' → P h') (hr : h.Reached) :
    h.Vacant ∧ P h := by
  obtain ⟨ops, rfl⟩ := hr
  induction ops using List.reverseRecOn with
  | nil => exact ⟨vacant_empty, hempty⟩
  | append_singleton ops op ih =>
    rw [after_snoc]
    have hchange := (after ops).perform_change op
    exact ⟨ih.1.change hchange, hstep ih.1 ih.2 hchange⟩

theorem Reached.vacant (hr : h.Reached) : h.Vacant :=
  (hr.induction (P := fun _ => True) trivial fun _ _ _ => trivial).1

theorem Edit.find?_cases (he : Edit h h') (hx : h'.find? x = some o') :
    h.find? x = some o' ∨ ∃ o, h.find? x = some o ∧ o.Step o' := by
  cases he with
  | counted t ht => exact .inl hx
  | stored y o q t hy ho hp ht =>
    rw [find?_tally, find?_update hy] at hx
    split at hx
    · next he =>
      cases hx
      exact .inr ⟨o, he ▸ hy, ho⟩
    · exact .inl hx
  | linked y o p hy ho hp hr =>
    rw [find?_update hy] at hx
    split at hx
    · next he =>
      cases hx
      exact .inr ⟨o, he ▸ hy, .linked p ho⟩
    · exact .inl hx

theorem Reached.object {P : Object → Prop}
    (hnew : ∀ kind label prototype, P { kind, label, prototype })
    (hstep : ∀ o o', P o → o.Step o' → P o') (hr : h.Reached) (hx : h.find? x = some o) : P o := by
  refine (hr.induction (P := fun h => ∀ x o, h.find? x = some o → P o) ?_ ?_).2 x o hx
  · intro x o hx
    rw [find?_empty] at hx
    cases hx
  · intro h h' _ hall hc x o' hx
    cases hc with
    | edit he =>
      rcases he.find?_cases hx with hsame | ⟨o, ho, hs⟩
      · exact hall x o' hsame
      · exact hstep o o' (hall x o ho) hs
    | opened kind label prototype hp =>
      rcases find?_occupy_cases hx with rfl | hsame
      · exact hnew kind label prototype
      · exact hall x o' hsame
    | closed y o hy =>
      rw [find?_destroy hy] at hx
      split at hx
      · cases hx
      · exact hall x o' hx

theorem Edit.follows (he : Edit h h') (hx : h.find? x = some o) :
    ∃ o', h'.find? x = some o' ∧ (o' = o ∨ o.Step o') := by
  cases he with
  | counted t ht => exact ⟨o, hx, .inl rfl⟩
  | stored y r o' t hy ho hp ht =>
    rw [find?_tally, find?_update hy]
    split
    · next he =>
      subst he
      cases hx.symm.trans hy
      exact ⟨o', rfl, .inr ho⟩
    · exact ⟨o, hx, .inl rfl⟩
  | linked y r p hy ho hp hr =>
    rw [find?_update hy]
    split
    · next he =>
      subst he
      cases hx.symm.trans hy
      exact ⟨_, rfl, .inr (.linked p ho)⟩
    · exact ⟨o, hx, .inl rfl⟩

theorem Vacant.allocate_follows (hv : h.Vacant) (hx : h.find? x = some o) (kind : ObjectKind)
    (label : Text) (prototype : Handle)
    (hslots : h.Numbered (h.allocate kind label prototype).2) :
    (h.allocate kind label prototype).2.find? x = some o := by
  simp only [allocate] at hslots ⊢
  split
  · next hp =>
    rw [if_pos hp] at hslots
    exact hv.find?_occupy_live hx hslots
  · exact hx

theorem Vacant.perform_follows (hv : h.Vacant) (hx : h.find? x = some o) {op : HeapOp}
    (hop : op ≠ .destroy x) (hslots : h.Numbered (h.perform op).2) :
    ∃ o', (h.perform op).2.find? x = some o' ∧ (o' = o ∨ o.Step o') := by
  rcases h.perform_cases op with hedit | ⟨kind, label, prototype, -, hmake⟩ | ⟨y, rfl⟩
  · exact (h.perform_edit op hedit).follows hx
  · rw [hmake] at hslots ⊢
    exact ⟨o, hv.allocate_follows hx kind label prototype hslots, .inl rfl⟩
  · have hne : x ≠ y := by
      rintro rfl
      exact hop rfl
    refine ⟨o, ?_, .inl rfl⟩
    change (h.destroy y).2.find? x = some o
    cases hy : h.find? y with
    | none => simpa only [Heap.destroy, hy] using hx
    | some r => rw [find?_destroy hy, if_neg hne, hx]

/-- While it is not destroyed, an object stays under its handle and goes from step to
step. -/
theorem Vacant.run_follows (hv : h.Vacant) (hx : h.find? x = some o) {more : List HeapOp}
    (hmore : .destroy x ∉ more) (hslots : h.Numbered (h.run more)) :
    ∃ o', (h.run more).find? x = some o' ∧ Relation.ReflTransGen Object.Step o o' := by
  induction more generalizing h o with
  | nil => exact ⟨o, hx, .refl⟩
  | cons op more ih =>
    obtain ⟨hop, hmore'⟩ := not_or.1 (mt List.mem_cons.2 hmore)
    obtain ⟨hstep, hrest⟩ := hslots.of_run_cons
    obtain ⟨o', ho', hs⟩ := hv.perform_follows hx (Ne.symm hop) hstep
    obtain ⟨q, hq, hlife⟩ := ih (hv.change (h.perform_change op)) ho' hmore' hrest
    rw [run_cons]
    rcases hs with rfl | hs
    · exact ⟨q, hq, hlife⟩
    · exact ⟨q, hq, .head hs hlife⟩

end Heap

end InlineCache
