import InlineCache.Heap.Property
import Mathlib.Data.List.Basic
import Mathlib.Data.List.Induction

/-! Canonical numerals of array indices. A name spells an index exactly when it
is the decimal numeral of that index, so names that are indices and the indices
themselves are two views of the same places. -/

namespace InlineCache

namespace Text

theorem index?_eq_some {s : Text} {i : Nat} (h : s.index? = some i) :
    s ≠ [] ∧ (1 < s.length → s.head? ≠ some 48) ∧ s.digitsValue? = some i ∧ i ≤ maxIndex := by
  simp only [index?] at h
  split at h
  · cases h
  · next hc =>
    simp only [Bool.or_eq_true, Bool.and_eq_true, decide_eq_true_eq, beq_iff_eq, not_or, not_and,
      List.isEmpty_iff] at hc
    obtain ⟨hv, hi⟩ := Option.filter_eq_some_iff.1 h
    exact ⟨hc.1.1, hc.2, hv, of_decide_eq_true hi⟩

theorem le_maxIndex {s : Text} {i : Nat} (h : s.index? = some i) : i ≤ maxIndex :=
  (index?_eq_some h).2.2.2

theorem digitsValue?_snoc {s : Text} {b : UInt8} {n : Nat}
    (h : digitsValue? (s ++ [b]) = some n) :
    ∃ m d, digitsValue? s = some m ∧ d < 10 ∧ b = digit d ∧ n = m * 10 + d := by
  rw [digitsValue?_append] at h
  obtain ⟨m, hm, h⟩ := Option.bind_eq_some_iff.1 h
  split at h
  · next hb =>
    obtain ⟨hlo, hhi⟩ := hb
    rw [UInt8.le_iff_toNat_le] at hlo hhi
    have hlo' : 48 ≤ b.toNat := hlo
    have hhi' : b.toNat ≤ 57 := hhi
    have hd : b.toNat - 48 < 10 := by omega
    refine ⟨m, b.toNat - 48, hm, hd, ?_, (Option.some.inj h).symm⟩
    apply UInt8.toNat_inj.1
    rw [digit_toNat hd]
    omega
  · cases h

theorem digitsValue?_lt {s : Text} {n : Nat} (h : s.digitsValue? = some n) :
    n < Nat.pow 10 s.length := by
  induction s using List.reverseRecOn generalizing n with
  | nil =>
    cases h
    exact Nat.one_pos
  | append_singleton s b ih =>
    obtain ⟨m, d, hm, hd, -, rfl⟩ := digitsValue?_snoc h
    have hlt := ih hm
    have hsucc : Nat.pow 10 (s ++ [b]).length = Nat.pow 10 s.length * 10 := by
      rw [List.length_append]
      rfl
    omega

theorem digits_of_digitsValue? {s : Text} {n : Nat} (h : s.digitsValue? = some n) :
    ∀ b ∈ s, 48 ≤ b ∧ b ≤ 57 := by
  induction s using List.reverseRecOn generalizing n with
  | nil => exact nofun
  | append_singleton s b ih =>
    obtain ⟨m, d, hm, hd, rfl, -⟩ := digitsValue?_snoc h
    intro b hb
    rcases List.mem_append.1 hb with hb | hb
    · exact ih hm b hb
    · rw [List.mem_singleton.1 hb]
      exact digit_le hd

theorem index?_ne_some_of_mem {s : Text} {b : UInt8} (hb : b ∈ s) (hd : ¬(48 ≤ b ∧ b ≤ 57))
    (i : Nat) : s.index? ≠ some i :=
  fun h => hd (digits_of_digitsValue? (index?_eq_some h).2.2.1 b hb)

theorem decimal_digitsValue? {s : Text} {n : Nat} (hs : s ≠ [])
    (hz : 1 < s.length → s.head? ≠ some 48) (h : s.digitsValue? = some n) : decimal n = s := by
  induction s using List.reverseRecOn generalizing n with
  | nil => exact absurd rfl hs
  | append_singleton s b ih =>
    obtain ⟨m, d, hm, hd, rfl, rfl⟩ := digitsValue?_snoc h
    by_cases he : s = []
    · subst he
      cases hm
      rw [Nat.zero_mul, Nat.zero_add, decimal_of_lt hd]
      rfl
    · have hlen : 0 < s.length := List.length_pos_iff.2 he
      have hhead : s.head? ≠ some 48 := by
        have hb := hz (by simp; omega)
        rwa [List.head?_append_of_ne_nil _ he] at hb
      have hdec : decimal m = s := ih he (fun _ => hhead) hm
      have hpos : m ≠ 0 := by
        intro h0
        subst h0
        rw [← hdec] at hhead
        exact hhead rfl
      rw [decimal_of_le (by omega), show (m * 10 + d) / 10 = m by omega,
        show (m * 10 + d) % 10 = d by omega, hdec]

theorem decimal_of_index? {s : Text} {i : Nat} (h : s.index? = some i) : decimal i = s := by
  obtain ⟨hs, hz, hv, -⟩ := index?_eq_some h
  exact decimal_digitsValue? hs hz hv

theorem decimal_ne_nil (n : Nat) : decimal n ≠ [] := by
  by_cases h : n < 10
  · simp [decimal_of_lt h]
  · simp [decimal_of_le (Nat.le_of_not_lt h)]

theorem decimal_head? {n : Nat} (h : n ≠ 0) : (decimal n).head? ≠ some 48 := by
  induction n using Nat.strongRecOn with
  | ind n ih =>
    by_cases hn : n < 10
    · rw [decimal_of_lt hn]
      intro he
      have hd := digit_toNat hn
      rw [Option.some.inj he] at hd
      have h48 : (48 : UInt8).toNat = 48 := rfl
      omega
    · rw [decimal_of_le (by omega), List.head?_append_of_ne_nil _ (decimal_ne_nil _)]
      exact ih (n / 10) (by omega) (by omega)

theorem decimal_length_le {n k : Nat} (h : n < Nat.pow 10 (k + 1)) :
    (decimal n).length ≤ k + 1 := by
  induction k generalizing n with
  | zero => rw [decimal_of_lt h]; exact Nat.le_refl 1
  | succ k ih =>
    by_cases hn : n < 10
    · rw [decimal_of_lt hn]
      exact Nat.le_add_left 1 _
    · rw [decimal_of_le (by omega), List.length_append]
      have hlt : n / 10 < Nat.pow 10 (k + 1) := by
        apply Nat.div_lt_of_lt_mul
        rw [Nat.mul_comm]
        exact h
      exact Nat.succ_le_succ (ih hlt)

theorem index?_decimal {i : Nat} (h : i ≤ maxIndex) : (decimal i).index? = some i := by
  have hlen : (decimal i).length ≤ 10 := decimal_length_le (k := 9) (by
    have : Nat.pow 10 (9 + 1) = 10000000000 := by decide
    simp only [maxIndex] at h
    omega)
  have hz : 1 < (decimal i).length → (decimal i).head? ≠ some 48 := by
    intro hl
    apply decimal_head?
    intro h0
    subst h0
    exact absurd hl (by decide)
  rw [index?, if_neg, digitsValue?_decimal]
  · simpa [Option.filter] using h
  · simp only [Bool.or_eq_true, Bool.and_eq_true, decide_eq_true_eq, beq_iff_eq, not_or, not_and,
      List.isEmpty_iff]
    exact ⟨⟨decimal_ne_nil i, by omega⟩, hz⟩

/-- A name spells an index exactly when it is the numeral of that index. -/
theorem index?_eq_some_iff {s : Text} {i : Nat} :
    s.index? = some i ↔ s = decimal i ∧ i ≤ maxIndex := by
  constructor
  · intro h
    exact ⟨(decimal_of_index? h).symm, le_maxIndex h⟩
  · rintro ⟨rfl, h⟩
    exact index?_decimal h

theorem decimal_injective {m n : Nat} (h : decimal m = decimal n) : m = n := by
  have hm := digitsValue?_decimal m
  rw [h, digitsValue?_decimal] at hm
  exact (Option.some.inj hm).symm

end Text

namespace PropertyKey

theorem place_decimal {i : Nat} (h : i ≤ maxIndex) :
    (PropertyKey.name (Text.decimal i)).place = .element i := by
  simp [place, Text.index?_decimal h]

theorem place_cases (k : PropertyKey) :
    k.place = .name k ∨
      ∃ i ≤ maxIndex, k = .name (Text.decimal i) ∧ k.place = .element i := by
  cases k with
  | symbol id => exact .inl rfl
  | name s =>
    cases hs : s.index? with
    | none =>
      left
      simp only [place, hs]
    | some i =>
      right
      refine ⟨i, Text.le_maxIndex hs, ?_, ?_⟩
      · rw [Text.decimal_of_index? hs]
      · simp only [place, hs]

theorem place_injective {k k' : PropertyKey} (h : k.place = k'.place) : k = k' := by
  rcases k.place_cases with hk | ⟨i, -, hi, hk⟩ <;> rcases k'.place_cases with hk' | ⟨j, -, hj, hk'⟩
  · rw [hk, hk'] at h
    exact Place.name.inj h
  · rw [hk, hk'] at h
    cases h
  · rw [hk, hk'] at h
    cases h
  · rw [hk, hk'] at h
    rw [hi, hj, Place.element.inj h]

end PropertyKey

def Place.Proper : Place → Prop
  | .element i => i ≤ maxIndex
  | .name k => k.place = .name k

theorem PropertyKey.place_proper (k : PropertyKey) : k.place.Proper := by
  rcases k.place_cases with hk | ⟨i, hi, -, hk⟩
  · rw [hk]
    exact hk
  · rw [hk]
    exact hi

end InlineCache
