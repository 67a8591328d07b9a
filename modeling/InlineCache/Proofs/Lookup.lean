import Mathlib.Data.List.Nodup

/-! Looking up a key in a list of entries, also after those under one key were taken out
or changed. -/

namespace InlineCache

variable {α β : Type} [BEq α] [LawfulBEq α]

theorem mem_keys_iff {l : List (α × β)} {k : α} :
    k ∈ l.map (·.1) ↔ ∃ b, l.lookup k = some b := by
  rw [← Option.isSome_iff_exists, List.lookup_isSome_iff]
  simp

section Members

variable {k : α} {v : β} {l : List (α × β)}

theorem lookup_eq_none_of_not_mem (hk : k ∉ l.map (·.1)) : l.lookup k = none := by
  rw [List.lookup_eq_none_iff]
  intro e he
  rw [bne_iff_ne]
  rintro rfl
  exact hk (List.mem_map_of_mem he)

theorem lookup_eq_some_iff_mem (hl : (l.map (·.1)).Nodup) :
    l.lookup k = some v ↔ (k, v) ∈ l := by
  induction l with
  | nil => simp
  | cons e l ih =>
    obtain ⟨k', v'⟩ := e
    rw [List.map_cons, List.nodup_cons] at hl
    by_cases hk : k = k'
    · subst hk
      have hnot : (k, v) ∉ l := fun he => hl.1 (List.mem_map.2 ⟨_, he, rfl⟩)
      simp [hnot, eq_comm]
    · rw [List.lookup_cons, beq_eq_false_iff_ne.2 hk, List.mem_cons, ih hl.2]
      simp [hk]

end Members

variable [DecidableEq α] (l : List (α × β)) (k k' : α)

theorem lookup_filter_ne :
    (l.filter fun e => decide (e.1 ≠ k)).lookup k' = if k' = k then none else l.lookup k' := by
  induction l with
  | nil => simp
  | cons e l ih =>
    obtain ⟨j, b⟩ := e
    by_cases hj : j = k
    · subst hj
      by_cases hk : k' = j
      · subst hk
        simpa using ih
      · simpa [List.lookup_cons, beq_false_of_ne hk, hk] using ih
    · by_cases hk : k' = j
      · subst hk
        simp [hj]
      · simpa [List.lookup_cons, beq_false_of_ne hk, hj] using ih

theorem lookup_map_at (f : β → β) :
    (l.map fun e => if e.1 = k then (e.1, f e.2) else e).lookup k' =
      if k' = k then (l.lookup k').map f else l.lookup k' := by
  induction l with
  | nil => simp
  | cons e l ih =>
    obtain ⟨j, b⟩ := e
    by_cases hk : k' = j
    · subst hk
      by_cases hj : k' = k <;> simp [hj]
    · rw [List.map_cons, List.lookup_cons, List.lookup_cons]
      by_cases hj : j = k
      · simpa only [if_pos hj, beq_false_of_ne hk] using ih
      · simpa only [if_neg hj, beq_false_of_ne hk] using ih

end InlineCache
