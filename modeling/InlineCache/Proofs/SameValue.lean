import InlineCache.Value
import Mathlib.Algebra.Group.Nat.Defs
import Mathlib.Tactic.Common

/-! The comparison that tells the zeros apart.
An integer and a double compare as doubles, so what the comparison can tell of a
number is the double it rounds to. That is the number itself below `2 ^ 53` in
magnitude; from there on one double stands for several integers. -/

namespace InlineCache

namespace Binary64

theorem pow_52 : Nat.pow 2 52 = 4503599627370496 := rfl

theorem pow_63 : Nat.pow 2 63 = 9223372036854775808 := rfl

variable {x y : Binary64} {m n : Nat}

theorem toNat_ofNat (hn : n < 2 ^ 64) : (ofNat n).bits.toNat = n :=
  UInt64.toNat_ofNat_of_lt' hn

theorem spacing_pos (x : Binary64) : 0 < x.spacing := Nat.pow_pos (by decide)

theorem parts_of_isZero (hx : x.isZero = true) : x.exponentField = 0 ∧ x.fraction = 0 := by
  have hsignificand : x.significand = 0 :=
    (Nat.mul_eq_zero.1 (of_decide_eq_true hx)).resolve_right (Nat.ne_of_gt x.spacing_pos)
  simp only [significand] at hsignificand
  split at hsignificand
  · next he => exact ⟨he, hsignificand⟩
  · simp only [pow_52] at hsignificand
    omega

theorem isFinite_of_isZero (hx : x.isZero = true) : x.isFinite = true := by
  simp [isFinite, (parts_of_isZero hx).1]

theorem isNaN_of_isFinite (hx : x.isFinite = true) : x.isNaN = false := by
  simp [isNaN, hx]

theorem isNaN_of_isZero (hx : x.isZero = true) : x.isNaN = false :=
  isNaN_of_isFinite (isFinite_of_isZero hx)

theorem bits_of_isZero (hx : x.isZero = true) :
    x.bits.toNat = if x.negative then Nat.pow 2 63 else 0 := by
  have hparts := parts_of_isZero hx
  have hlt := x.bits.toNat_lt
  simp only [exponentField, fraction, pow_52] at hparts
  simp only [negative, decide_eq_true_eq, pow_63]
  split <;> omega

theorem eq_of_isZero (hx : x.isZero = true) (hy : y.isZero = true)
    (hsign : x.negative = y.negative) : x = y := by
  have hbits : x.bits.toNat = y.bits.toNat := by
    rw [bits_of_isZero hx, bits_of_isZero hy, hsign]
  cases x
  cases y
  exact congrArg mk (UInt64.toNat_inj.1 hbits)

def nan : Binary64 := ofNat 0x7ff8000000000000

def canonical (x : Binary64) : Binary64 := if x.isNaN then nan else x

theorem isNaN_nan : nan.isNaN = true := by decide

theorem canonical_of_not_isNaN (hx : x.isNaN = false) : x.canonical = x := by
  simp [canonical, hx]

theorem canonical_eq_iff :
    x.canonical = y.canonical ↔
      (x.isNaN && y.isNaN || x.numEq y && decide (x.negative = y.negative)) = true := by
  simp only [canonical, numEq]
  cases hx : x.isNaN with
  | true =>
    cases hy : y.isNaN with
    | true => simp
    | false =>
      have hne : nan ≠ y := by
        rintro rfl
        rw [isNaN_nan] at hy
        cases hy
      simp [hne]
  | false =>
    cases hy : y.isNaN with
    | true =>
      have hne : x ≠ nan := by
        rintro rfl
        rw [isNaN_nan] at hx
        cases hx
      simp [hne]
    | false =>
      simp only [Bool.false_eq_true, if_false, Bool.not_false, Bool.and_self, Bool.true_and,
        Bool.false_or, Bool.and_eq_true, Bool.or_eq_true, decide_eq_true_eq]
      constructor
      · rintro rfl
        exact ⟨.inl rfl, rfl⟩
      · rintro ⟨he | ⟨hzx, hzy⟩, hsign⟩
        · exact he
        · exact eq_of_isZero hzx hzy hsign

theorem roundedDiv_bounds {d q : Nat} (hd : 0 < d) (hq : q * d ≤ n) (hlt : n < 2 * q * d) :
    q ≤ roundedDiv n d ∧ roundedDiv n d ≤ 2 * q := by
  have hle : q ≤ n / d := (Nat.le_div_iff_mul_le hd).2 hq
  have hlt' : n / d < 2 * q := (Nat.div_lt_iff_lt_mul hd).2 hlt
  simp only [roundedDiv]
  split <;> omega

theorem shifted_bounds (hn : n ≠ 0) (he : n.log2 ≤ 52) :
    Nat.pow 2 52 ≤ n * Nat.pow 2 (52 - n.log2) ∧
      n * Nat.pow 2 (52 - n.log2) < 2 * Nat.pow 2 52 := by
  obtain ⟨hlow, hhigh⟩ := (Nat.log2_eq_iff hn).1 (rfl : n.log2 = n.log2)
  have hpow : Nat.pow 2 52 = 2 ^ n.log2 * Nat.pow 2 (52 - n.log2) := by
    simp only [Nat.pow_eq]
    rw [← Nat.pow_add, Nat.add_sub_cancel' he]
  rw [hpow, ← Nat.mul_assoc, ← Nat.pow_succ']
  exact ⟨Nat.mul_le_mul_right _ hlow,
    Nat.mul_lt_mul_of_pos_right hhigh (Nat.pow_pos (by decide))⟩

theorem roundedBits_bounds (hn : n ≠ 0) :
    (n.log2 + 1023) * Nat.pow 2 52 ≤ roundedBits n ∧
      roundedBits n ≤ (n.log2 + 1024) * Nat.pow 2 52 := by
  simp only [roundedBits, if_neg hn, Nat.add_mul]
  split
  · next he =>
    have := shifted_bounds hn he
    omega
  · next he =>
    obtain ⟨hlow, hhigh⟩ := (Nat.log2_eq_iff hn).1 (rfl : n.log2 = n.log2)
    have hpow : 2 ^ n.log2 = Nat.pow 2 52 * Nat.pow 2 (n.log2 - 52) := by
      simp only [Nat.pow_eq]
      rw [← Nat.pow_add, Nat.add_sub_cancel' (by omega)]
    rw [Nat.pow_succ] at hhigh
    have := roundedDiv_bounds (n := n) (d := Nat.pow 2 (n.log2 - 52)) (q := Nat.pow 2 52)
      (Nat.pow_pos (by decide)) (by omega) (by rw [Nat.mul_assoc]; omega)
    omega

theorem roundedBits_lt (hn : n ≤ 2 ^ 63) : roundedBits n < Nat.pow 2 63 - Nat.pow 2 52 := by
  by_cases hz : n = 0
  · subst hz
    decide
  · have hlog : n.log2 < 64 := (Nat.log2_lt hz).2 (by omega)
    have hle := (roundedBits_bounds hz).2
    simp only [pow_52, pow_63] at hle ⊢
    omega

theorem roundedBits_eq_zero (h : roundedBits n = 0) : n = 0 := by
  by_contra hn
  have hge := (roundedBits_bounds hn).1
  rw [h, pow_52] at hge
  omega

theorem eq_of_roundedBits_eq (hm : m < 2 ^ 53) (h : roundedBits m = roundedBits n) : m = n := by
  by_cases hmz : m = 0
  · subst hmz
    exact (roundedBits_eq_zero h.symm).symm
  by_cases hnz : n = 0
  · subst hnz
    exact roundedBits_eq_zero h
  have hlogm : m.log2 ≤ 52 := Nat.le_of_lt_succ ((Nat.log2_lt hmz).2 hm)
  have hboundsm := shifted_bounds hmz hlogm
  have hboundsn := roundedBits_bounds hnz
  have hexact : roundedBits m =
      (m.log2 + 1022) * Nat.pow 2 52 + m * Nat.pow 2 (52 - m.log2) := by
    simp only [roundedBits, if_neg hmz, if_pos hlogm]
  have hlogn : n.log2 ≤ 52 := by
    simp only [pow_52] at *
    omega
  have hexact' : roundedBits n =
      (n.log2 + 1022) * Nat.pow 2 52 + n * Nat.pow 2 (52 - n.log2) := by
    simp only [roundedBits, if_neg hnz, if_pos hlogn]
  have hshiftedn := shifted_bounds hnz hlogn
  have hlog : m.log2 = n.log2 := by
    simp only [pow_52] at *
    omega
  rw [hexact, hexact', hlog] at h
  exact Nat.eq_of_mul_eq_mul_right (Nat.pow_pos (by decide)) (Nat.add_left_cancel h)

theorem toNat_ofInt {i : Int} (hi : i.natAbs ≤ 2 ^ 63) :
    (ofInt i).bits.toNat = roundedBits i.natAbs + if i < 0 then Nat.pow 2 63 else 0 := by
  have hlt := roundedBits_lt hi
  simp only [pow_52, pow_63] at *
  apply toNat_ofNat
  simp only [pow_63]
  split <;> omega

theorem isNaN_ofInt {i : Int} (hi : i.natAbs ≤ 2 ^ 63) : (ofInt i).isNaN = false := by
  have hlt := roundedBits_lt hi
  have hfinite : (ofInt i).exponentField ≠ 2047 := by
    simp only [exponentField, toNat_ofInt hi]
    simp only [pow_52, pow_63] at *
    split <;> omega
  simp only [isNaN, isFinite, decide_eq_true hfinite, Bool.not_true, Bool.false_and]

theorem eq_of_ofInt_eq {i j : Int} (hi : i.natAbs < 2 ^ 53) (hj : j.natAbs ≤ 2 ^ 63)
    (h : ofInt i = ofInt j) : i = j := by
  have hbits := congrArg (fun x => x.bits.toNat) h
  simp only [toNat_ofInt (by omega : i.natAbs ≤ 2 ^ 63), toNat_ofInt hj] at hbits
  have hlti := roundedBits_lt (by omega : i.natAbs ≤ 2 ^ 63)
  have hltj := roundedBits_lt hj
  have hsign : i < 0 ↔ j < 0 := by
    simp only [pow_52, pow_63] at *
    split at hbits <;> split at hbits <;> omega
  simp only [hsign, Nat.add_right_cancel_iff] at hbits
  have habs := eq_of_roundedBits_eq hi hbits
  omega

end Binary64

namespace Value

variable {v w : Value} {i j : Int}

theorem natAbs_le_of_toInt? (hv : v.toInt? = some i) : i.natAbs ≤ 2 ^ 63 := by
  cases v with
  | int32 n =>
    cases hv
    have hlow := n.le_toInt
    have hhigh := n.toInt_lt
    omega
  | int64 n =>
    cases hv
    have hlow := n.le_toInt
    have hhigh := n.toInt_lt
    omega
  | _ => cases hv

theorem toNumber?_of_toInt? (hv : v.toInt? = some i) : v.toNumber? = some (.ofInt i) := by
  cases v <;> cases hv <;> rfl

theorem isNumeric_of_toInt? (hv : v.toInt? = some i) : v.isNumeric = true := by
  cases v <;> cases hv <;> rfl

def seen (form : Binary64 → Binary64) (v : Value) : Value :=
  if v.isNumeric then .number (form (v.toNumber?.getD .zero)) else v

/-- A value as `sameValue` sees it: a number is the double it rounds to. -/
def rounded (v : Value) : Value :=
  if v.isNumeric then .number (v.toNumber?.getD .zero).canonical else v

theorem rounded_of_toInt? (hv : v.toInt? = some i) : v.rounded = .number (.ofInt i) := by
  rw [rounded, if_pos (isNumeric_of_toInt? hv), toNumber?_of_toInt? hv, Option.getD_some,
    Binary64.canonical_of_not_isNaN (Binary64.isNaN_ofInt (natAbs_le_of_toInt? hv))]

theorem seen_of_toInt? (form : Binary64 → Binary64) (hv : v.toInt? = some i) :
    v.seen form = .number (form (.ofInt i)) := by
  rw [seen, if_pos (isNumeric_of_toInt? hv), toNumber?_of_toInt? hv, Option.getD_some]

theorem isNumeric_seen (form : Binary64 → Binary64) (v : Value) :
    (v.seen form).isNumeric = v.isNumeric := by
  cases hv : v.isNumeric with
  | false => rw [seen, hv, if_neg Bool.false_ne_true, hv]
  | true =>
    rw [seen, if_pos hv]
    rfl

theorem seen_of_not_isNumeric (form : Binary64 → Binary64) (hv : v.isNumeric = false) :
    v.seen form = v := by
  simp [seen, hv]

theorem equals_iff (hv : v.isNumeric = false ∨ w.isNumeric = false) :
    v.equals w = true ↔ v = w := by
  cases v <;> cases w <;> simp [equals, isNumeric, isIntegral, toInt?] at hv ⊢

/-- Two integers are the same when equal, and any other two values when they are seen
alike. -/
theorem compareWith_iff {onDoubles : Binary64 → Binary64 → Bool} {form : Binary64 → Binary64}
    (hform : ∀ x y : Binary64,
      form x = form y ↔ (x.isNaN && y.isNaN || onDoubles x y) = true) :
    compareWith onDoubles v w = true ↔
      v.seen form = w.seen form ∧ ∀ i j, v.toInt? = some i → w.toInt? = some j → i = j := by
  simp only [compareWith]
  by_cases hnumeric : (v.isNumeric && w.isNumeric) = true
  · rw [if_pos hnumeric]
    obtain ⟨hnv, hnw⟩ := Bool.and_eq_true_iff.1 hnumeric
    have hdoubles : v.seen form = w.seen form ↔
        form (v.toNumber?.getD .zero) = form (w.toNumber?.getD .zero) := by
      simp only [seen, if_pos hnv, if_pos hnw, number.injEq]
    split
    · next i j hi hj =>
      rw [decide_eq_true_eq, seen_of_toInt? form hi, seen_of_toInt? form hj]
      constructor
      · rintro rfl
        refine ⟨rfl, fun i' j' hi' hj' => ?_⟩
        cases hi.symm.trans hi'
        cases hj.symm.trans hj'
        rfl
      · exact fun h => h.2 i j hi hj
    · next hints =>
      rw [hdoubles, hform]
      exact (and_iff_left fun i j hi hj => absurd hj (hints i j hi)).symm
  · rw [if_neg hnumeric]
    have hnot : v.isNumeric = false ∨ w.isNumeric = false := by
      simpa [Bool.and_eq_true, ← Bool.not_eq_true, imp_iff_not_or] using hnumeric
    rw [equals_iff hnot]
    constructor
    · rintro rfl
      refine ⟨rfl, fun i j hi hj => ?_⟩
      cases hi.symm.trans hj
      rfl
    · rintro ⟨hseen, -⟩
      have hboth : v.isNumeric = w.isNumeric := by
        rw [← isNumeric_seen form v, ← isNumeric_seen form w, hseen]
      have hv : v.isNumeric = false := hnot.elim id hboth.trans
      rwa [seen_of_not_isNumeric form hv, seen_of_not_isNumeric form (hboth ▸ hv)] at hseen

theorem sameValue_iff :
    v.sameValue w = true ↔
      v.rounded = w.rounded ∧ ∀ i j, v.toInt? = some i → w.toInt? = some j → i = j :=
  compareWith_iff fun _ _ => Binary64.canonical_eq_iff

theorem sameValue_refl (v : Value) : v.sameValue v = true :=
  sameValue_iff.2 ⟨rfl, fun _ _ hi hj => Option.some.inj (hi.symm.trans hj)⟩

theorem rounded_eq_of_sameValue (h : v.sameValue w = true) : v.rounded = w.rounded :=
  (sameValue_iff.1 h).1

theorem sameValue_of_rounded_eq (h : v.rounded = w.rounded)
    (hv : ∀ i, v.toInt? = some i → i.natAbs < 2 ^ 53) : v.sameValue w = true := by
  refine sameValue_iff.2 ⟨h, fun i j hi hj => ?_⟩
  rw [rounded_of_toInt? hi, rounded_of_toInt? hj, number.injEq] at h
  exact Binary64.eq_of_ofInt_eq (hv i hi) (natAbs_le_of_toInt? hj) h

end Value

end InlineCache
