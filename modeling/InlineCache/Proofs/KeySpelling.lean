import InlineCache.Proofs.Access.Guard
import InlineCache.Proofs.ShortestDigits

/-! The spelling of a raw key. Every key that needs no coercion, unless it is a symbol, is
spelled by one name: a number by its digits, a constant by its word. What the key is
classified as, and the property it names, are those of that name. -/

namespace InlineCache

namespace Text

theorem decimal_append_zeros {c : Nat} (hc : 0 < c) (count : Nat) :
    decimal c ++ zeros count = decimal (c * 10 ^ count) := by
  induction count with
  | zero => simp [zeros]
  | succ count ih =>
    have hpos : 0 < c * 10 ^ count := Nat.mul_pos hc (Nat.pow_pos (by decide))
    have hlast : zeros (count + 1) = zeros count ++ [48] := List.replicate_succ'
    rw [hlast, ← List.append_assoc, ih, Nat.pow_succ, ← Nat.mul_assoc,
      decimal_of_le (Nat.le_mul_of_pos_left 10 hpos), Nat.mul_div_cancel _ (by decide),
      Nat.mul_mod_left]
    rfl

end Text

namespace Binary64

variable {x : Binary64} {d : Decimal} {i : Nat}

theorem scale_add_one (d : Decimal) : d.scale + 1 = d.exponent + d.digits.length := by
  rw [Decimal.scale]
  omega

theorem magnitude_of_whole (hc : 0 < d.coefficient) (he : 0 ≤ d.exponent)
    (hscale : d.scale ≤ nameStyle.most) :
    nameStyle.magnitude d = Text.decimal (d.coefficient * 10 ^ d.exponent.toNat) := by
  have hlength : 0 < d.digits.length := List.length_pos_iff.2 (Text.decimal_ne_nil _)
  have hleast : nameStyle.least ≤ d.scale := by
    simp only [nameStyle, Decimal.scale]
    omega
  rw [NumeralStyle.magnitude, if_pos ⟨hleast, hscale⟩, NumeralStyle.positional, scale_add_one,
    if_pos (by omega), Int.add_sub_cancel]
  exact Text.decimal_append_zeros hc _

/-- A magnitude that spells an index has no fraction and no exponent. -/
theorem whole_of_index? (hc : 0 ≤ d.exponent → 0 < d.coefficient)
    (h : (nameStyle.magnitude d).index? = some i) :
    0 ≤ d.exponent ∧ d.coefficient * 10 ^ d.exponent.toNat = i := by
  simp only [NumeralStyle.magnitude] at h
  split at h
  · simp only [NumeralStyle.positional, scale_add_one] at h
    split at h
    · next hpoint =>
      have he : 0 ≤ d.exponent := by omega
      rw [Int.add_sub_cancel, Decimal.digits, Text.decimal_append_zeros (hc he)] at h
      exact ⟨he, Text.decimal_injective (Text.index?_eq_some_iff.1 h).1⟩
    · split at h
      · have hdot : (46 : UInt8) ∈ Text.ofString "." := by decide
        refine absurd h (Text.index?_ne_some_of_mem ?_ (by decide : ¬(48 ≤ (46 : UInt8) ∧ _)) i)
        exact List.mem_append_left _ (List.mem_append_right _ hdot)
      · have hdot : (46 : UInt8) ∈ Text.ofString "0." := by decide
        refine absurd h (Text.index?_ne_some_of_mem ?_ (by decide : ¬(48 ≤ (46 : UInt8) ∧ _)) i)
        exact List.mem_append_left _ (List.mem_append_left _ hdot)
  · have hexponent : (101 : UInt8) ∈ Text.ofString "e" := by decide
    refine absurd h (Text.index?_ne_some_of_mem ?_ (by decide : ¬(48 ≤ (101 : UInt8) ∧ _)) i)
    exact List.mem_append_left _ (List.mem_append_left _ (List.mem_append_right _ hexponent))

theorem index?_eq_some_iff :
    x.index? = some i ↔ x.isFinite = true ∧ x.units = i * unitsOfOne ∧ i ≤ maxIndex ∧
      (x.negative = true → i = 0) := by
  constructor
  · intro h
    simp only [index?] at h
    split at h
    · next hintegral =>
      obtain ⟨hfinite, hdvd⟩ := Bool.and_eq_true_iff.1 hintegral
      obtain ⟨htruncated, hle⟩ := indexOfInt?_eq_some h
      have hunits := (Nat.div_mul_cancel (Nat.dvd_of_mod_eq_zero (of_decide_eq_true hdvd))).symm
      simp only [truncated] at htruncated
      generalize x.units / unitsOfOne = whole at hunits htruncated
      split at htruncated
      · next hn =>
        have hzero : whole = i ∧ i = 0 := by omega
        exact ⟨hfinite, hzero.1 ▸ hunits, hle, fun _ => hzero.2⟩
      · next hn =>
        exact ⟨hfinite, Int.ofNat.inj htruncated ▸ hunits, hle, fun hn' => absurd hn' hn⟩
    · cases h
  · rintro ⟨hfinite, hunits, hle, hnegative⟩
    have hdvd : x.units % unitsOfOne = 0 := hunits ▸ Nat.mul_mod_left _ _
    have hdiv : x.units / unitsOfOne = i := by
      rw [hunits, Nat.mul_div_cancel _ unitsOfOne_pos]
    have htruncated : x.truncated = i := by
      simp only [truncated, hdiv]
      split
      · next hn => rw [hnegative hn]; rfl
      · rfl
    rw [index?, isIntegral, hfinite, decide_eq_true hdvd, Bool.and_self, if_pos rfl, htruncated,
      indexOfInt?, if_pos ⟨Int.natCast_nonneg i, Int.ofNat_le.2 hle⟩]
    rfl

theorem name_of_isNaN (h : x.isNaN = true) : x.name = "NaN" := by
  simp only [name, NumeralStyle.write, h]
  rfl

theorem name_of_isZero (h : x.isZero = true) : x.name = Text.decimal 0 := by
  simp only [name, NumeralStyle.write, isNaN_of_isZero h, h]
  rfl

theorem name_of_ne_zero (hnan : x.isNaN = false) (hzero : x.isZero = false) :
    x.name = (if x.negative then Text.ofString "-" else []) ++
      if x.isFinite then nameStyle.magnitude x.shortest else nameStyle.infinity := by
  simp only [name, NumeralStyle.write, hnan, hzero, Bool.false_eq_true, if_false]
  cases x.isFinite with
  | false => simp only [Bool.not_false, if_true, Bool.false_eq_true, if_false]
  | true => simp only [Bool.not_true, Bool.false_eq_true, if_false, if_true]

theorem name_of_index? (h : x.index? = some i) : x.name = Text.decimal i := by
  obtain ⟨hfinite, hunits, hle, hnegative⟩ := index?_eq_some_iff.1 h
  by_cases hz : i = 0
  · rw [hz, Nat.zero_mul] at hunits
    rw [name_of_isZero (decide_eq_true hunits), hz]
  · have hpos : 0 < x.units := hunits ▸ Nat.mul_pos (Nat.pos_of_ne_zero hz) unitsOfOne_pos
    have hnan : x.isNaN = false := isNaN_of_isFinite hfinite
    have hsign : x.negative ≠ true := fun hn => hz (hnegative hn)
    obtain ⟨he, hvalue⟩ := shortest_of_index hpos hunits hle
    have hc : 0 < x.shortest.coefficient := by
      refine Nat.pos_of_ne_zero fun hc => hz ?_
      rw [← hvalue, hc, Nat.zero_mul]
    have hscale : x.shortest.scale ≤ nameStyle.most := by
      have hlength : (Text.decimal i).length ≤ 10 :=
        Text.decimal_length_le (k := 9) (Nat.lt_of_le_of_lt hle (by decide))
      rw [← hvalue, ← Text.decimal_append_zeros hc, List.length_append, Text.zeros,
        List.length_replicate] at hlength
      simp only [nameStyle, Decimal.scale, Decimal.digits]
      omega
    rw [name_of_ne_zero hnan (decide_eq_false (Nat.ne_of_gt hpos)), if_neg hsign, if_pos hfinite,
      magnitude_of_whole hc he hscale, hvalue, List.nil_append]

theorem units_of_magnitude (hpos : 0 < x.units)
    (h : (nameStyle.magnitude x.shortest).index? = some i) : x.units = i * unitsOfOne := by
  have hadmits : 0 ≤ x.shortest.exponent →
      x.admits (x.shortest.coefficient * 10 ^ x.shortest.exponent.toNat * unitsOfOne * unit) =
        true :=
    fun he => Decimal.multiple_of_nonneg he ▸ admits_shortest hpos
  have hc : 0 ≤ x.shortest.exponent → 0 < x.shortest.coefficient := fun he =>
    Nat.pos_of_mul_pos_right (Nat.pos_of_mul_pos_right (pos_of_admits hpos (hadmits he)))
  obtain ⟨he, hvalue⟩ := whole_of_index? hc h
  exact units_of_admits (hvalue ▸ hadmits he) (Text.le_maxIndex h)

theorem index?_of_name (h : x.name.index? = some i) : x.index? = some i := by
  cases hnan : x.isNaN with
  | true =>
    have hletter : (78 : UInt8) ∈ x.name := by
      rw [name_of_isNaN hnan]
      decide
    exact absurd h (Text.index?_ne_some_of_mem hletter (by decide) i)
  | false =>
    cases hzero : x.isZero with
    | true =>
      have hunits : x.units = 0 := of_decide_eq_true hzero
      rw [name_of_isZero hzero] at h
      obtain rfl := Text.decimal_injective (Text.index?_eq_some_iff.1 h).1
      exact index?_eq_some_iff.2 ⟨isFinite_of_isZero hzero, hunits.trans (Nat.zero_mul _).symm,
        Nat.zero_le _, fun _ => rfl⟩
    | false =>
      have hname := name_of_ne_zero hnan hzero
      by_cases hsign : x.negative = true
      · have hminus : (45 : UInt8) ∈ x.name := by
          rw [hname, if_pos hsign]
          exact List.mem_append_left _ (by decide)
        exact absurd h (Text.index?_ne_some_of_mem hminus (by decide) i)
      · rw [if_neg hsign, List.nil_append] at hname
        by_cases hfinite : x.isFinite = true
        · rw [hname, if_pos hfinite] at h
          have hpos : 0 < x.units := Nat.pos_of_ne_zero (of_decide_eq_false hzero)
          exact index?_eq_some_iff.2 ⟨hfinite, units_of_magnitude hpos h, Text.le_maxIndex h,
            fun hn => absurd hn hsign⟩
        · have hletter : (73 : UInt8) ∈ x.name := by
            rw [hname, if_neg hfinite]
            decide
          exact absurd h (Text.index?_ne_some_of_mem hletter (by decide) i)

theorem index?_name (x : Binary64) : x.name.index? = x.index? := by
  ext i
  constructor
  · exact index?_of_name
  · intro h
    obtain ⟨-, -, hle, -⟩ := index?_eq_some_iff.1 h
    rw [name_of_index? h, Text.index?_decimal hle]

end Binary64

theorem Text.index?_signedDecimal (n : Int) : (signedDecimal n).index? = indexOfInt? n := by
  ext i
  cases n with
  | ofNat n =>
    simp only [signedDecimal, index?_eq_some_iff, indexOfInt?]
    constructor
    · rintro ⟨hn, hi⟩
      obtain rfl := decimal_injective hn
      rw [if_pos ⟨Int.natCast_nonneg n, Int.ofNat_le.2 hi⟩]
      rfl
    · intro h
      obtain ⟨hn, hi⟩ := indexOfInt?_eq_some h
      exact ⟨congrArg decimal (Int.ofNat.inj hn), hi⟩
  | negSucc n =>
    have hminus : (45 : UInt8) ∈ signedDecimal (.negSucc n) :=
      List.mem_append_left _ (by decide)
    refine iff_of_false (index?_ne_some_of_mem hminus (by decide) i) fun h => ?_
    cases (indexOfInt?_eq_some h).1

namespace Value

/-- The name that spells a key: a string itself, the digits of a number, the word of a
constant. A symbol has none, and neither has what would have to be coerced. -/
def spelling? : Value → Option Text
  | .undefined => some "undefined"
  | .null => some "null"
  | .boolean b => some (if b then "true" else "false")
  | .int32 n => some (Text.signedDecimal n.toInt)
  | .int64 n => some (Text.signedDecimal n.toInt)
  | .number x => some x.name
  | .string s => some s
  | .symbol _ | .bigint _ | .object _ => none

variable {v : Value} {s : Text}

theorem index?_of_spelling? (h : v.spelling? = some s) : v.classify.index? = s.index? := by
  cases v with
  | int32 n | int64 n =>
    cases h
    exact (Text.index?_signedDecimal _).symm
  | number x =>
    cases h
    exact x.index?_name.symm
  | string =>
    cases h
    rfl
  | boolean b =>
    cases h
    cases b <;> decide
  | undefined | null =>
    cases h
    decide
  | symbol | bigint | object => cases h

theorem propertyKey_of_spelling? (h : v.spelling? = some s) : v.propertyKey = .name s := by
  cases v with
  | number x =>
    cases h
    simp only [propertyKey]
    cases hx : x.index? with
    | some i => exact congrArg PropertyKey.name (Binary64.name_of_index? hx).symm
    | none => rfl
  | symbol | bigint | object => cases h
  | _ =>
    cases h
    rfl

theorem symbol_of_spelling? (hc : v.classify.needsCoercion = false) (h : v.spelling? = none) :
    ∃ id, v = .symbol id := by
  cases v with
  | symbol id => exact ⟨id, rfl⟩
  | bigint | object => cases hc
  | _ => cases h

/-- A key is classified as the name that spells it and names the property of that name. So
its property key, taken as a raw key again, is classified as the key was and names the same
property, as every property key names itself. -/
theorem classified_as_spelled (hc : v.classify.needsCoercion = false) :
    (∀ s, v.spelling? = some s →
        (∀ i, v.classify.index? = some i ↔ s.index? = some i) ∧ v.propertyKey = .name s) ∧
      (v.spelling? = none → ∃ id, v = .symbol id ∧ v.propertyKey = .symbol id) ∧
      (∀ x i, v = .number x → v.classify.index? = some i → Text.decimal i = x.name) ∧
      (v.propertyKey.toValue.classify.needsCoercion = false ∧
        v.propertyKey.toValue.classify.index? = v.classify.index? ∧
        v.propertyKey.toValue.propertyKey = v.propertyKey) ∧
      ∀ k : PropertyKey, k.toValue.propertyKey = k := by
  refine ⟨fun s hs => ?_, ?_, ?_, ⟨needsCoercion_toValue _, ?_, propertyKey_toValue _⟩,
    propertyKey_toValue⟩
  · exact ⟨fun i => by rw [index?_of_spelling? hs], propertyKey_of_spelling? hs⟩
  · intro hs
    obtain ⟨id, rfl⟩ := symbol_of_spelling? hc hs
    exact ⟨id, rfl, rfl⟩
  · rintro x i rfl hx
    exact (Binary64.name_of_index? hx).symm
  · cases hs : v.spelling? with
    | some s =>
      rw [propertyKey_of_spelling? hs, index?_of_spelling? hs]
      rfl
    | none =>
      obtain ⟨id, rfl⟩ := symbol_of_spelling? hc hs
      rfl

theorem greatest_index_spelled :
    let v : Value := .number ⟨0x41efffffffc00000⟩
    v.classify.needsCoercion = false ∧ v.classify.index? = some maxIndex ∧
      v.propertyKey.toValue.classify.index? = some maxIndex ∧
      v.propertyKey = .name (Text.ofString "4294967294") := by
  intro v
  have hc : v.classify.needsCoercion = false := rfl
  have hindex : v.classify.index? = some maxIndex := by decide +kernel
  have hspelled : v.spelling? = some (Text.ofString "4294967294") := by decide +kernel
  obtain ⟨hkey, -, -, ⟨-, hagain, -⟩, -⟩ := classified_as_spelled hc
  exact ⟨hc, hindex, hagain.trans hindex, (hkey _ hspelled).2⟩

end Value

end InlineCache
