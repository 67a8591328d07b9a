import InlineCache.Proofs.Numeral
import Mathlib.Data.Nat.Digits.Defs

/-! Names of array indices.
The names that spell an index are the canonical numerals of the indices, and every other
name is refused for one of four reasons. Ten digits fit into a machine word with room to
spare, so a scan that keeps its number in 64 bits reads every name as one without bounds. -/

namespace InlineCache

namespace Text

variable {s : Text} {b : UInt8} {n : Nat}

structure Spells (s : Text) (n : Nat) : Prop where
  digits : s.Digits
  front : s.head? = some 48 → s = [48]
  value : Nat.ofDigits 10 (s.reverse.map fun b => b.toNat - 48) = n

theorem digitsValue?_of_digits (h : ∀ b ∈ s, 48 ≤ b ∧ b ≤ 57) :
    s.digitsValue? = some (Nat.ofDigits 10 (s.reverse.map fun b => b.toNat - 48)) := by
  induction s using List.reverseRecOn with
  | nil => rfl
  | append_singleton s b ih =>
    have hs := ih fun c hc => h c (List.mem_append_left _ hc)
    have hb := h b (List.mem_append_right _ (List.mem_singleton_self b))
    rw [digitsValue?_append, hs, Option.bind_some, if_pos hb, List.reverse_append,
      List.reverse_singleton, List.singleton_append, List.map_cons, Nat.ofDigits_cons,
      Nat.mul_comm, Nat.add_comm]

theorem head?_decimal_eq (h : (decimal n).head? = some 48) : decimal n = [48] := by
  have hn : n = 0 := by
    by_contra hn
    exact decimal_head? hn h
  rw [hn]
  rfl

theorem spells_decimal (n : Nat) : (decimal n).Spells n := by
  refine ⟨digits_decimal n, head?_decimal_eq, ?_⟩
  have hvalue := digitsValue?_of_digits (digits_decimal n).2
  rw [digitsValue?_decimal] at hvalue
  exact (Option.some.inj hvalue).symm

theorem Digits.exists_decimal (hs : s.Digits) (hfront : s.head? = some 48 → s = [48]) :
    ∃ n, s = decimal n ∧ s.Spells n := by
  have hvalue := digitsValue?_of_digits hs.2
  refine ⟨_, (decimal_digitsValue? hs.1 (fun hlen hzero => ?_) hvalue).symm, hs, hfront, rfl⟩
  rw [hfront hzero] at hlen
  exact Nat.lt_irrefl 1 hlen

theorem spells_iff : s.Spells n ↔ s = decimal n := by
  constructor
  · intro h
    obtain ⟨m, hm, hs⟩ := h.digits.exists_decimal h.front
    rw [hm, ← hs.value, h.value]
  · rintro rfl
    exact spells_decimal n

inductive NoIndex : Text → Prop
  | empty : NoIndex []
  | zeroInFront {s : Text} (hs : s ≠ []) : NoIndex (48 :: s)
  | stray {s : Text} {b : UInt8} (hb : b ∈ s) (hd : ¬(48 ≤ b ∧ b ≤ 57)) : NoIndex s
  | tooLarge {n : Nat} (hn : maxIndex < n) : NoIndex (decimal n)

theorem NoIndex.index?_ne_some (h : s.NoIndex) (i : Nat) : s.index? ≠ some i := by
  intro hi
  cases h with
  | empty => exact (index?_eq_some hi).1 rfl
  | zeroInFront hs =>
    have hlen : 1 < (48 :: _ : Text).length :=
      Nat.succ_lt_succ (List.length_pos_iff.2 hs)
    exact (index?_eq_some hi).2.1 hlen rfl
  | stray hb hd => exact index?_ne_some_of_mem hb hd i hi
  | tooLarge hn =>
    obtain ⟨hdecimal, hle⟩ := index?_eq_some_iff.1 hi
    rw [decimal_injective hdecimal] at hn
    exact Nat.not_lt_of_le hle hn

theorem noIndex_of_index? (h : s.index? = none) : s.NoIndex := by
  by_cases hs : s = []
  · rw [hs]
    exact .empty
  by_cases hstray : ∃ b ∈ s, ¬(48 ≤ b ∧ b ≤ 57)
  · obtain ⟨b, hb, hd⟩ := hstray
    exact .stray hb hd
  by_cases hfront : s.head? = some 48 → s = [48]
  · have hdigits : s.Digits := by
      refine ⟨hs, fun b hb => ?_⟩
      by_contra hd
      exact hstray ⟨b, hb, hd⟩
    obtain ⟨n, rfl, -⟩ := hdigits.exists_decimal hfront
    refine .tooLarge (Nat.lt_of_not_le fun hle => ?_)
    rw [index?_decimal hle] at h
    cases h
  · obtain ⟨hhead, hne⟩ := Classical.not_imp.1 hfront
    obtain ⟨t, rfl⟩ := List.head?_eq_some_iff.1 hhead
    exact .zeroInFront fun ht => hne (congrArg _ ht)

theorem index?_eq_none_iff : s.index? = none ↔ s.NoIndex := by
  constructor
  · exact noIndex_of_index?
  · intro h
    exact Option.eq_none_iff_forall_ne_some.2 h.index?_ne_some

/-- The value of decimal digits, kept in 64 bits. -/
def wordValue? (s : Text) : Option UInt64 :=
  s.foldlM (fun acc b =>
    if 48 ≤ b ∧ b ≤ 57 then some (acc * 10 + (b - 48).toUInt64) else none) 0

def wordIndex? (s : Text) : Option UInt32 :=
  if s.isEmpty || 10 < s.length || 1 < s.length && s.head? == some 48 then none
  else (s.wordValue?.filter fun w => w ≤ UInt64.ofNat maxIndex).map UInt64.toUInt32

theorem wordValue?_append (s : Text) (b : UInt8) :
    wordValue? (s ++ [b]) = (wordValue? s).bind fun w =>
      if 48 ≤ b ∧ b ≤ 57 then some (w * 10 + (b - 48).toUInt64) else none := by
  simp [wordValue?]

theorem toUInt64_digit (h : 48 ≤ b) : (b - 48).toUInt64 = UInt64.ofNat (b.toNat - 48) := by
  have hlt : b.toNat - 48 < UInt64.size :=
    Nat.lt_of_le_of_lt (Nat.sub_le _ _) (Nat.lt_trans b.toNat_lt (by decide))
  apply UInt64.toNat_inj.1
  rw [UInt8.toNat_toUInt64, UInt8.toNat_sub_of_le _ _ h, UInt64.toNat_ofNat_of_lt' hlt]
  rfl

/-- Without a bound on the digits the word holds their value modulo its size. -/
theorem wordValue?_eq_map (s : Text) : s.wordValue? = s.digitsValue?.map UInt64.ofNat := by
  induction s using List.reverseRecOn with
  | nil => rfl
  | append_singleton s b ih =>
    rw [wordValue?_append, digitsValue?_append, ih]
    cases digitsValue? s with
    | none => rfl
    | some n =>
      simp only [Option.map_some, Option.bind_some]
      split
      · next hb =>
        rw [toUInt64_digit hb.1, Option.map_some, UInt64.ofNat_add, UInt64.ofNat_mul]
        rfl
      · rfl

theorem wordValue?_toNat (h : s.length ≤ 19) :
    s.wordValue?.map UInt64.toNat = s.digitsValue? := by
  rw [wordValue?_eq_map]
  cases hs : s.digitsValue? with
  | none => rfl
  | some n =>
    have hlt : n < 2 ^ 64 := calc
      n < 10 ^ s.length := digitsValue?_lt hs
      _ ≤ 10 ^ 19 := Nat.pow_le_pow_right (by decide) h
      _ < 2 ^ 64 := by decide
    exact congrArg some (UInt64.toNat_ofNat_of_lt' hlt)

theorem le_ofNat_maxIndex {w : UInt64} : w ≤ UInt64.ofNat maxIndex ↔ w.toNat ≤ maxIndex :=
  UInt64.le_iff_toNat_le

theorem toNat_toUInt32 {w : UInt64} (h : w.toNat ≤ maxIndex) : w.toUInt32.toNat = w.toNat := by
  rw [UInt64.toNat_toUInt32, Nat.mod_eq_of_lt (Nat.lt_of_le_of_lt h (by decide))]

theorem wordIndex?_toNat (s : Text) : s.wordIndex?.map UInt32.toNat = s.index? := by
  simp only [wordIndex?, index?]
  split
  · rfl
  · next hguard =>
    have hlen : s.length ≤ 19 := by
      simp only [Bool.or_eq_true, decide_eq_true_eq, not_or] at hguard
      omega
    rw [← wordValue?_toNat hlen]
    cases s.wordValue? with
    | none => rfl
    | some w =>
      simp only [Option.map_some, Option.filter_some, le_ofNat_maxIndex]
      by_cases hw : w.toNat ≤ maxIndex
      · rw [if_pos (decide_eq_true hw), if_pos (decide_eq_true hw)]
        exact congrArg some (toNat_toUInt32 hw)
      · rw [decide_eq_false hw]
        rfl

/-- The names that spell an index are the canonical numerals of the numbers up to the
greatest index, and each is read as the number that it was written from. A scan in machine
words reads the same, as its number is exact after each of the ten bytes that it may meet. -/
theorem canonical_numeral_read (s : Text) :
    (∀ n, s.index? = some n ↔ n ≤ maxIndex ∧ s = decimal n) ∧
      (∀ n, s = decimal n ↔ s.Spells n) ∧
      (s.index? = none ↔ s.NoIndex) ∧
      s.wordIndex?.map UInt32.toNat = s.index? ∧
      ∀ k ≤ 10, (wordValue? (s.take k)).map UInt64.toNat = digitsValue? (s.take k) ∧
        ∀ n, digitsValue? (s.take k) = some n → n < 10 ^ 10 := by
  refine ⟨fun n => ?_, fun n => spells_iff.symm, index?_eq_none_iff, wordIndex?_toNat s, ?_⟩
  · rw [index?_eq_some_iff, and_comm]
  · intro k hk
    have hlen : (s.take k).length ≤ 10 := Nat.le_trans (List.length_take_le k s) hk
    refine ⟨wordValue?_toNat (Nat.le_trans hlen (by decide)), fun n hn => ?_⟩
    exact Nat.lt_of_lt_of_le (digitsValue?_lt hn) (Nat.pow_le_pow_right (by decide) hlen)

theorem greatest_numeral_read :
    index? "4294967294" = some maxIndex ∧
      (wordIndex? "4294967294").map UInt32.toNat = some maxIndex ∧
      (wordValue? (List.take 10 "9999999999")).map UInt64.toNat = some 9999999999 ∧
      index? "4294967295" = none ∧ index? "10000000000" = none ∧ index? "" = none ∧
      index? "07" = none ∧ index? "+7" = none ∧ index? " 7" = none ∧ index? [55, 0] = none := by
  have hrefused : ∀ {s : Text}, s.NoIndex → s.index? = none :=
    fun {s} h => (canonical_numeral_read s).2.2.1.2 h
  obtain ⟨hread, -, -, hword, -⟩ := canonical_numeral_read "4294967294"
  obtain ⟨-, -, -, -, hexact⟩ := canonical_numeral_read "9999999999"
  have hgreatest : index? "4294967294" = some maxIndex :=
    (hread maxIndex).2 ⟨Nat.le_refl _, by decide⟩
  refine ⟨hgreatest, hword.trans hgreatest, (hexact 10 (Nat.le_refl _)).1.trans (by decide),
    ?_, ?_, hrefused .empty, ?_, ?_, ?_, ?_⟩
  · exact hrefused (.tooLarge (n := 4294967295) (by decide))
  · exact hrefused (.tooLarge (n := 10000000000) (by decide))
  · exact hrefused (.zeroInFront (by decide))
  · exact hrefused (.stray (b := 43) (by decide) (by decide))
  · exact hrefused (.stray (b := 32) (by decide) (by decide))
  · exact hrefused (.stray (b := 0) (by decide) (by decide))

end Text

end InlineCache
