import InlineCache.Proofs.KeySpelling
import InlineCache.Proofs.Magnitude
import InlineCache.Proofs.Numeral
import Mathlib.Tactic.Linarith

/-! The name of a number keeps the number.
Each of the four layouts puts the digits of a number down in order, so reading them again
gives the number that the digits and the exponent stand for. Digits read back to one
magnitude, hence two numbers with one name are equal. -/

namespace InlineCache

namespace Text

variable {s : Text} {m : Nat}

theorem digitsValue?_append_zeros (hs : s.digitsValue? = some m) (count : Nat) :
    digitsValue? (s ++ zeros count) = some (m * 10 ^ count) := by
  induction count with
  | zero => simpa [zeros] using hs
  | succ count ih =>
    have hlast : zeros (count + 1) = zeros count ++ [digit 0] := List.replicate_succ'
    rw [hlast, ← List.append_assoc, digitsValue?_digit ih (by decide), Nat.pow_succ, Nat.add_zero,
      Nat.mul_assoc]

theorem getLast?_decimal (n : Nat) : (decimal n).getLast? = some (digit (n % 10)) := by
  by_cases h : n < 10
  · rw [decimal_of_lt h, Nat.mod_eq_of_lt h]
    rfl
  · rw [decimal_of_le (Nat.le_of_not_lt h), List.getLast?_append]
    rfl

theorem getLast?_decimal_ne {n : Nat} (h : n % 10 ≠ 0) : (decimal n).getLast? ≠ some 48 := by
  rw [getLast?_decimal]
  intro hlast
  have hvalue := digit_toNat (Nat.mod_lt n (show 0 < 10 by decide))
  rw [Option.some.inj hlast] at hvalue
  have h48 : (48 : UInt8).toNat = 48 := rfl
  omega

end Text

namespace Numeral

variable {negative : Bool} {digits f : Text} {c : Nat}

def positional (negative : Bool) (digits : Text) (point : Int) : Numeral :=
  if (digits.length : Int) ≤ point then
    ⟨negative, digits ++ Text.zeros (point - digits.length).toNat, none, none⟩
  else if 0 < point then
    ⟨negative, digits.take point.toNat, some (digits.drop point.toNat), none⟩
  else ⟨negative, Text.zeros 1, some (Text.zeros (-point).toNat ++ digits), none⟩

def scientific (negative : Bool) (digits : Text) (e : Int) : Numeral :=
  ⟨negative, digits.take 1, if 1 < digits.length then some (digits.drop 1) else none, some e⟩

theorem text_positional (negative : Bool) (digits : Text) (point : Int) :
    (positional negative digits point).text =
      (if negative then [45] else []) ++ NumeralStyle.positional digits point := by
  simp only [positional, NumeralStyle.positional]
  split
  · simp only [text, mantissa, Option.elim_none, List.append_nil]
  · split <;>
    · simp only [text, mantissa, Option.elim_none, Option.elim_some, List.append_nil,
        List.append_assoc]
      rfl

theorem text_scientific (negative : Bool) (digits : Text) (e : Int) :
    (scientific negative digits e).text =
      (if negative then [45] else []) ++ NumeralStyle.scientific digits e 1 := by
  have hwidth : 1 - (Text.decimal e.natAbs).length = 0 :=
    Nat.sub_eq_zero_of_le (List.length_pos_iff.2 (Text.decimal_ne_nil _))
  simp only [scientific, text, mantissa, NumeralStyle.scientific, hwidth, Option.elim_some,
    Text.withSign]
  by_cases hpoint : 1 < digits.length <;> by_cases he : e < 0 <;>
    simp only [hpoint, he, if_true, if_false, List.append_assoc, List.append_nil,
      Option.elim_none, Option.elim_some] <;> rfl

theorem proper_positional (hdigits : digits.Digits) (point : Int) :
    (positional negative digits point).Proper := by
  simp only [positional]
  split
  · exact ⟨hdigits.append (Text.zeros_digits _), nofun⟩
  · split
    · refine ⟨hdigits.take (by omega), ?_⟩
      rintro f ⟨⟩
      exact hdigits.drop (by omega)
    · refine ⟨⟨List.cons_ne_nil 48 [], Text.zeros_digits 1⟩, ?_⟩
      rintro f ⟨⟩
      exact hdigits.prepend (Text.zeros_digits _)

theorem proper_scientific (hdigits : digits.Digits) (e : Int) :
    (scientific negative digits e).Proper := by
  refine ⟨hdigits.take Nat.one_pos, fun f hf => ?_⟩
  simp only [scientific] at hf
  split at hf
  · next hlength =>
    obtain rfl := Option.some.inj hf
    exact hdigits.drop hlength
  · cases hf

theorem value_positional (hc : digits.digitsValue? = some c) (point : Int) :
    (positional negative digits point).value =
      (if negative then -1 else 1) * c * 10 ^ (point - digits.length) := by
  simp only [positional]
  split
  · next hwhole =>
    simp only [value, Option.getD_none, List.append_nil, Text.digitsValue?_append_zeros hc,
      Option.getD_some, List.length_nil]
    obtain ⟨count, hcount⟩ := Int.eq_ofNat_of_zero_le (Int.sub_nonneg_of_le hwhole)
    rw [hcount]
    simp
  · split
    · simp only [value, Option.getD_none, Option.getD_some, List.take_append_drop, hc,
        List.length_drop]
      congr 2
      omega
    · simp only [value, Option.getD_none, Option.getD_some, Text.digitsValue?_zeros_append, hc,
        List.length_append]
      simp only [Text.zeros, List.length_replicate]
      congr 2
      omega

theorem value_scientific (hc : digits.digitsValue? = some c) (hlength : 0 < digits.length)
    (e : Int) :
    (scientific negative digits e).value =
      (if negative then -1 else 1) * c * 10 ^ (e + 1 - digits.length) := by
  have hfraction : (if 1 < digits.length then some (digits.drop 1) else none).getD [] =
      digits.drop 1 := by
    split
    · rfl
    · exact (List.drop_eq_nil_of_le (by omega)).symm
  simp only [value, scientific, hfraction, List.take_append_drop, hc, Option.getD_some,
    List.length_drop]
  congr 2
  omega

theorem getLast?_positional {point : Int} (hdigits : digits.Digits)
    (hf : (positional negative digits point).fraction? = some f) :
    f.getLast? = digits.getLast? := by
  simp only [positional] at hf
  split at hf
  · cases hf
  · split at hf
    · cases hf
      rw [List.getLast?_drop, if_neg (by omega)]
    · cases hf
      rw [List.getLast?_append_of_ne_nil _ hdigits.1]

theorem getLast?_scientific {e : Int} (hf : (scientific negative digits e).fraction? = some f) :
    f.getLast? = digits.getLast? := by
  simp only [scientific] at hf
  split at hf
  · cases hf
    rw [List.getLast?_drop, if_neg (by omega)]
  · cases hf

end Numeral

namespace Decimal

variable {d d' : Decimal} {negative : Bool} {f : Text}

theorem dropZeros_coefficient (bound : Nat) {d : Decimal} (hpos : 0 < d.coefficient)
    (hle : d.coefficient ≤ bound) : (dropZeros bound d).coefficient % 10 ≠ 0 := by
  induction bound generalizing d with
  | zero => exact absurd hpos (Nat.not_lt.2 hle)
  | succ bound ih =>
    simp only [dropZeros]
    split
    · exact ih (d := ⟨d.coefficient / 10, d.exponent + 1⟩) (by simp only; omega)
        (by simp only; omega)
    · next hlast => exact hlast

/-- Decimals of one value are the same multiple of `10 ^ -1074`. -/
theorem multiple_eq_of_value (hd : -1074 ≤ d.exponent) (hd' : -1074 ≤ d'.exponent)
    (h : (d.coefficient : ℚ) * 10 ^ d.exponent = d'.coefficient * 10 ^ d'.exponent) :
    d.multiple = d'.multiple := by
  obtain ⟨places, hplaces⟩ : ∃ places : Int, places = 1074 := ⟨_, rfl⟩
  have hvalue : ∀ {d : Decimal}, -1074 ≤ d.exponent →
      (d.multiple : ℚ) = d.coefficient * 10 ^ d.exponent * 10 ^ places := by
    intro d hd
    rw [multiple, Nat.cast_mul, Nat.cast_pow, ← zpow_natCast, Int.toNat_of_nonneg (by omega),
      ← hplaces, mul_assoc, ← zpow_add₀ (by decide)]
    rfl
  exact Nat.cast_injective ((hvalue hd).trans ((congrArg (· * _) h).trans (hvalue hd').symm))

def numeral (negative : Bool) (d : Decimal) : Numeral :=
  if -6 ≤ d.scale ∧ d.scale ≤ 20 then .positional negative d.digits (d.scale + 1)
  else .scientific negative d.digits d.scale

theorem text_numeral (negative : Bool) (d : Decimal) :
    (d.numeral negative).text =
      (if negative then [45] else []) ++ Binary64.nameStyle.magnitude d := by
  rw [numeral, NumeralStyle.magnitude, Binary64.nameStyle]
  split
  · exact Numeral.text_positional negative d.digits _
  · exact Numeral.text_scientific negative d.digits _

theorem proper_numeral (negative : Bool) (d : Decimal) : (d.numeral negative).Proper := by
  rw [numeral]
  split
  · exact Numeral.proper_positional (Text.digits_decimal _) _
  · exact Numeral.proper_scientific (Text.digits_decimal _) _

theorem value_numeral (negative : Bool) (d : Decimal) :
    (d.numeral negative).value =
      (if negative then -1 else 1) * d.coefficient * 10 ^ d.exponent := by
  have hdigits : d.digits.digitsValue? = some d.coefficient := Text.digitsValue?_decimal _
  have hlength : 0 < d.digits.length := List.length_pos_iff.2 (Text.decimal_ne_nil _)
  have hscale : d.scale + 1 - d.digits.length = d.exponent := by
    rw [Binary64.scale_add_one, Int.add_sub_cancel]
  rw [numeral, ← hscale]
  split
  · exact Numeral.value_positional hdigits _
  · exact Numeral.value_scientific hdigits hlength _

theorem exponent?_numeral (negative : Bool) (d : Decimal) :
    (d.numeral negative).exponent? =
      if -6 ≤ d.scale ∧ d.scale ≤ 20 then none else some d.scale := by
  rw [numeral]
  split
  · simp only [Numeral.positional]
    split
    · rfl
    · split <;> rfl
  · rfl

theorem getLast?_numeral (hd : d.coefficient % 10 ≠ 0)
    (hf : (d.numeral negative).fraction? = some f) : f.getLast? ≠ some 48 := by
  have hlast : f.getLast? = d.digits.getLast? := by
    rw [numeral] at hf
    split at hf
    · exact Numeral.getLast?_positional (Text.digits_decimal _) hf
    · exact Numeral.getLast?_scientific hf
  exact hlast ▸ Text.getLast?_decimal_ne hd

theorem exponent_nonneg {z : Int} (hd : d.coefficient % 10 ≠ 0)
    (h : (if negative then -1 else 1) * (d.coefficient : ℚ) * 10 ^ d.exponent = z) :
    0 ≤ d.exponent := by
  by_contra hneg
  obtain ⟨j, hj⟩ : ∃ j : Nat, d.exponent = -((j + 1 : Nat) : Int) :=
    ⟨(-d.exponent - 1).toNat, by omega⟩
  have hmul : (if negative then -1 else 1) * (d.coefficient : ℚ) = z * 10 ^ (j + 1) := by
    rw [← h, hj, zpow_neg, zpow_natCast, mul_assoc _ _ (10 ^ (j + 1)), inv_mul_cancel₀, mul_one]
    exact pow_ne_zero _ (by decide)
  have hwhole : (if negative then -1 else 1) * (d.coefficient : Int) = z * 10 ^ (j + 1) := by
    cases negative <;> exact_mod_cast hmul
  rw [pow_succ, ← mul_assoc] at hwhole
  generalize z * 10 ^ j = q at hwhole
  split at hwhole <;> omega

theorem fraction?_numeral {z : Int} (hd : d.coefficient % 10 ≠ 0)
    (hplain : (d.numeral negative).exponent? = none) (hz : (d.numeral negative).value = z) :
    (d.numeral negative).fraction? = none := by
  rw [value_numeral] at hz
  have hwhole := exponent_nonneg hd hz
  rw [exponent?_numeral] at hplain
  split at hplain
  · next hscale =>
    rw [numeral, if_pos hscale, Numeral.positional, Binary64.scale_add_one, if_pos (by omega)]
  · cases hplain

theorem scientific_value (d : Decimal) :
    (d.coefficient : ℚ) / 10 ^ (d.digits.length - 1) * 10 ^ d.scale =
      d.coefficient * 10 ^ d.exponent := by
  have hlength : 0 < d.digits.length := List.length_pos_iff.2 (Text.decimal_ne_nil _)
  have hscale : d.scale = d.exponent + ((d.digits.length - 1 : Nat) : Int) := by
    rw [scale]
    omega
  have hpos : (10 : ℚ) ^ (d.digits.length - 1) ≠ 0 := pow_ne_zero _ (by decide)
  rw [hscale, zpow_add₀ (by decide), zpow_natCast]
  field_simp

end Decimal

theorem signed_inj {p q : Bool} {a b : ℚ} (ha : 0 < a) (hb : 0 < b)
    (h : (if p then -1 else 1) * a = (if q then -1 else 1) * b) : p = q ∧ a = b := by
  cases p <;> cases q <;> simp only [Bool.false_eq_true, if_false, if_true] at h
  · exact ⟨rfl, by linarith⟩
  · linarith
  · linarith
  · exact ⟨rfl, by linarith⟩

namespace Binary64

variable {x y : Binary64}

theorem shortest_coefficient (h : 0 < x.units) : x.shortest.coefficient % 10 ≠ 0 := by
  obtain ⟨r, hr⟩ := Nat.exists_eq_succ_of_ne_zero (Nat.ne_of_gt (rank_pos h))
  obtain ⟨hadmits, -⟩ := shortestFrom_admits h (x.span - 1)
  obtain ⟨hlow, -⟩ := between_of_admits hr hadmits
  have hmidpoint : 0 < midpoint r := by
    have := spacingAt_pos r
    rw [midpoint]
    omega
  have hmultiple : 0 < (x.shortestFrom (x.span - 1)).multiple := by
    have := Nat.mul_pos hmidpoint unit_pos
    omega
  exact Decimal.dropZeros_coefficient _ (Nat.pos_of_mul_pos_right hmultiple) (Nat.le_refl _)

theorem read?_name (hfinite : x.isFinite = true) (hzero : x.isZero = false) :
    Numeral.read? x.name = some (x.shortest.numeral x.negative) := by
  have hname : x.name = (x.shortest.numeral x.negative).text := by
    rw [name_of_ne_zero (isNaN_of_isFinite hfinite) hzero, if_pos hfinite, Decimal.text_numeral]
    rfl
  rw [hname, Numeral.read?_text (Decimal.proper_numeral _ _)]

theorem read?_name_of_isZero (h : x.isZero = true) :
    Numeral.read? x.name = some ⟨false, [48], none, none⟩ := by
  have hproper : Numeral.Proper ⟨false, [48], none, none⟩ :=
    ⟨⟨List.cons_ne_nil _ _, Text.zeros_digits 1⟩, nofun⟩
  have htext : Text.decimal 0 = Numeral.text ⟨false, [48], none, none⟩ := rfl
  rw [name_of_isZero h, htext, Numeral.read?_text hproper]

theorem name_of_infinite (hfinite : x.isFinite = false) (hnan : x.isNaN = false) :
    x.name = if x.negative then Text.ofString "-Infinity" else Text.ofString "Infinity" := by
  have hzero : x.isZero = false := by
    rw [Bool.eq_false_iff]
    intro hzero
    rw [isFinite_of_isZero hzero] at hfinite
    cases hfinite
  rw [name_of_ne_zero hnan hzero, hfinite]
  cases x.negative <;> rfl

theorem read?_name_of_infinite (hfinite : x.isFinite = false) : Numeral.read? x.name = none := by
  cases hnan : x.isNaN with
  | true =>
    rw [name_of_isNaN hnan]
    decide
  | false =>
    rw [name_of_infinite hfinite hnan]
    cases x.negative <;> decide

theorem numEq_self (h : x.isNaN = false) : x.numEq x = true := by
  simp [numEq, h]

theorem rank_of_infinite (hfinite : x.isFinite = false) (hnan : x.isNaN = false) :
    x.rank = 2047 * 2 ^ 52 := by
  have hexponent : x.exponentField = 2047 := by
    simpa [isFinite] using hfinite
  have hfraction : x.fraction = 0 := by
    simpa [isNaN, hfinite] using hnan
  rw [exponentField_eq] at hexponent
  rw [fraction_eq] at hfraction
  omega

theorem shortest_value_pos (h : 0 < x.units) :
    0 < (x.shortest.coefficient : ℚ) * 10 ^ x.shortest.exponent := by
  have hlast := shortest_coefficient h
  generalize x.shortest = d at hlast ⊢
  exact mul_pos (Nat.cast_pos.2 (by omega)) (zpow_pos (by decide) _)

theorem le_exponent_shortest (h : 0 < x.units) : -1074 ≤ x.shortest.exponent := by
  obtain ⟨-, hexponent⟩ := shortestFrom_admits h (x.span - 1)
  exact hexponent.trans (Decimal.dropZeros_multiple _ hexponent).2

/-- Digits of one value, with one sign, read back to one number. -/
theorem eq_of_value (hx : 0 < x.units) (hy : 0 < y.units)
    (h : (x.shortest.numeral x.negative).value = (y.shortest.numeral y.negative).value) :
    x = y := by
  rw [Decimal.value_numeral, Decimal.value_numeral, mul_assoc, mul_assoc] at h
  obtain ⟨hsign, hvalue⟩ := signed_inj (shortest_value_pos hx) (shortest_value_pos hy) h
  have hmultiple := Decimal.multiple_eq_of_value (le_exponent_shortest hx)
    (le_exponent_shortest hy) hvalue
  have hadmits : x.admits y.shortest.multiple = true := hmultiple ▸ admits_shortest hx
  exact eq_of_rank (rank_of_admits hx hy hadmits (admits_shortest hy)) hsign

theorem eq_of_infinite (hx : x.isFinite = false) (hy : y.isFinite = false)
    (hnx : x.isNaN = false) (hny : y.isNaN = false) (h : x.name = y.name) : x = y := by
  have hsign : x.negative = y.negative := by
    rw [name_of_infinite hx hnx, name_of_infinite hy hny] at h
    revert h
    cases x.negative <;> cases y.negative <;> decide
  exact eq_of_rank ((rank_of_infinite hx hnx).trans (rank_of_infinite hy hny).symm) hsign

theorem isZero_iff_value (hfinite : x.isFinite = true) :
    x.isZero = true ↔ (Numeral.read? x.name).map Numeral.value = some 0 := by
  cases hzero : x.isZero with
  | true =>
    have hdigits : Text.digitsValue? [48] = some 0 := rfl
    simp [read?_name_of_isZero hzero, Numeral.value, hdigits]
  | false =>
    have hpos := shortest_value_pos (Nat.pos_of_ne_zero (of_decide_eq_false hzero))
    rw [read?_name hfinite hzero, Option.map_some, Decimal.value_numeral, mul_assoc,
      Option.some_inj]
    refine iff_of_false Bool.false_ne_true (mul_ne_zero ?_ hpos.ne')
    cases x.negative <;> decide

theorem numEq_of_finite (hx : x.isFinite = true) (hy : y.isFinite = true)
    (h : x.name = y.name) : x.numEq y = true := by
  have hzero : x.isZero = y.isZero := by
    rw [Bool.eq_iff_iff, isZero_iff_value hx, isZero_iff_value hy, h]
  cases hzx : x.isZero with
  | true => simp [numEq, isNaN_of_isFinite hx, isNaN_of_isFinite hy, hzx, ← hzero]
  | false =>
    have hzy : y.isZero = false := hzero ▸ hzx
    have hread := read?_name hx hzx
    rw [h, read?_name hy hzy] at hread
    rw [eq_of_value (Nat.pos_of_ne_zero (of_decide_eq_false hzx))
      (Nat.pos_of_ne_zero (of_decide_eq_false hzy))
      (congrArg Numeral.value (Option.some.inj hread.symm))]
    exact numEq_self (isNaN_of_isFinite hy)

theorem isFinite_iff_read? (x : Binary64) :
    x.isFinite = true ↔ (Numeral.read? x.name).isSome = true := by
  cases hfinite : x.isFinite with
  | true =>
    cases hzero : x.isZero with
    | true => simp [read?_name_of_isZero hzero]
    | false => simp [read?_name hfinite hzero]
  | false => simp [read?_name_of_infinite hfinite]

theorem isNaN_iff_name (hfinite : x.isFinite = false) :
    x.isNaN = true ↔ x.name = Text.ofString "NaN" := by
  cases hnan : x.isNaN with
  | true => simp [name_of_isNaN hnan]
  | false =>
    rw [name_of_infinite hfinite hnan]
    cases x.negative <;> decide

theorem numEq_of_name (h : x.name = y.name) :
    x.numEq y = true ∨ x.isNaN = true ∧ y.isNaN = true := by
  have hfinite : x.isFinite = y.isFinite := by
    rw [Bool.eq_iff_iff, isFinite_iff_read?, isFinite_iff_read?, h]
  cases hx : x.isFinite with
  | true => exact .inl (numEq_of_finite hx (hfinite ▸ hx) h)
  | false =>
    have hy : y.isFinite = false := hfinite ▸ hx
    have hnan : x.isNaN = y.isNaN := by
      rw [Bool.eq_iff_iff, isNaN_iff_name hx, isNaN_iff_name hy, h]
    cases hnx : x.isNaN with
    | true => exact .inr ⟨rfl, hnan ▸ hnx⟩
    | false =>
      have hny : y.isNaN = false := hnan ▸ hnx
      rw [eq_of_infinite hx hy hnx hny h]
      exact .inl (numEq_self hny)

theorem name_of_numEq (h : x.numEq y = true) : x.name = y.name := by
  simp only [numEq, Bool.and_eq_true, Bool.or_eq_true, decide_eq_true_eq] at h
  rcases h.2 with rfl | ⟨hx, hy⟩
  · rfl
  · rw [name_of_isZero hx, name_of_isZero hy]

theorem name_eq_iff :
    x.name = y.name ↔ x.numEq y = true ∨ x.isNaN = true ∧ y.isNaN = true := by
  refine ⟨numEq_of_name, ?_⟩
  rintro (h | ⟨hx, hy⟩)
  · exact name_of_numEq h
  · rw [name_of_isNaN hx, name_of_isNaN hy]

/-- The name of a number denotes, as decimal notation, the digits that read back to the number
times the power of ten that they were found with. So numbers share a name, or the property
that they name as keys, only if they are equal or neither is a number. -/
theorem name_denotes (x y : Binary64) :
    (x.isFinite = true → x.isZero = false →
      x.admits x.shortest.multiple = true ∧ x.shortest.digits.getLast? ≠ some 48 ∧
      ∃ n, Numeral.read? x.name = some n ∧
        n.value = (if x.negative then -1 else 1) *
          (x.shortest.coefficient / 10 ^ (x.shortest.digits.length - 1) *
            10 ^ x.shortest.scale) ∧
        (n.exponent?.isSome = true ↔ 21 ≤ x.shortest.scale ∨ x.shortest.scale ≤ -7) ∧
        (n.exponent? = none → (∃ z : Int, n.value = z) → n.fraction? = none) ∧
        ∀ f, n.fraction? = some f → f.getLast? ≠ some 48) ∧
      (x.name = y.name ↔ x.numEq y = true ∨ x.isNaN = true ∧ y.isNaN = true) ∧
      ((Value.number x).propertyKey = (Value.number y).propertyKey ↔
        x.numEq y = true ∨ x.isNaN = true ∧ y.isNaN = true) := by
  refine ⟨fun hfinite hzero => ?_, name_eq_iff, ?_⟩
  · have hpos : 0 < x.units := Nat.pos_of_ne_zero (of_decide_eq_false hzero)
    have hlast := shortest_coefficient hpos
    refine ⟨admits_shortest hpos, Text.getLast?_decimal_ne hlast, _, read?_name hfinite hzero,
      ?_, ?_, ?_, ?_⟩
    · rw [Decimal.value_numeral, Decimal.scientific_value, mul_assoc]
    · rw [Decimal.exponent?_numeral]
      split
      · exact iff_of_false Bool.false_ne_true (by omega)
      · exact iff_of_true rfl (by omega)
    · rintro hplain ⟨z, hz⟩
      exact Decimal.fraction?_numeral hlast hplain hz
    · intro f hf
      exact Decimal.getLast?_numeral hlast hf
  · rw [Value.propertyKey_of_spelling? (v := .number x) rfl,
      Value.propertyKey_of_spelling? (v := .number y) rfl, PropertyKey.name.injEq]
    exact name_eq_iff

theorem tenth_denoted :
    let x : Binary64 := ⟨0x3fb999999999999a⟩
    let y : Binary64 := ⟨0x3fb999999999999b⟩
    x.isFinite = true ∧ x.isZero = false ∧
      (∃ n, Numeral.read? x.name = some n ∧ n.value = 1 / 10) ∧ x.name ≠ y.name := by
  intro x y
  have hfinite : x.isFinite = true := by decide
  have hzero : x.isZero = false := by decide +kernel
  have hnumEq : x.numEq y = false := by decide +kernel
  have hnan : x.isNaN = false := by decide
  have hshortest : x.shortest = ⟨1, -1⟩ := by decide +kernel
  obtain ⟨hnumeral, hname, -⟩ := name_denotes x y
  obtain ⟨-, -, n, hread, hvalue, -⟩ := hnumeral hfinite hzero
  refine ⟨hfinite, hzero, ⟨n, hread, ?_⟩, ?_⟩
  · have hlength : (Decimal.digits ⟨1, -1⟩).length = 1 := by decide
    have hscale : Decimal.scale ⟨1, -1⟩ = -1 := by decide
    have hsign : x.negative = false := by decide
    rw [hvalue, hshortest, hlength, hscale, hsign]
    norm_num
  · rw [ne_eq, hname, hnumEq, hnan]
    simp

end Binary64

end InlineCache
