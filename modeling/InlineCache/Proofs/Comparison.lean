import InlineCache.Proofs.Magnitude

/-! The two comparisons as relations.
Each compares two values by what it sees of them, so it is reflexive and symmetric. It is
transitive as well, unless it steps from one large integer to another through a double
that both round to: integers are compared exactly only with each other. Up to `2 ^ 53` in
magnitude, and wherever an integer has a double of its own, that double alone is the same
as the integer. -/

namespace InlineCache

namespace Binary64

variable {x y : Binary64} {n : Nat} {i j : Int}

def unsigned (x : Binary64) : Binary64 := if x.isZero then zero else x.canonical

theorem canonical_ne_zero (h : x.isZero = false) : x.canonical ≠ zero := by
  intro he
  simp only [canonical] at he
  split at he
  · exact absurd he (by decide)
  · rw [he] at h
    exact absurd h (by decide)

theorem ne_of_isZero (hx : x.isZero = true) (hy : y.isZero = false) : x ≠ y := by
  rintro rfl
  rw [hx] at hy
  cases hy

theorem unsigned_eq_iff :
    x.unsigned = y.unsigned ↔ (x.isNaN && y.isNaN || x.numEq y) = true := by
  cases hx : x.isZero with
  | true =>
    have hnx := isNaN_of_isZero hx
    cases hy : y.isZero with
    | true => simp [unsigned, numEq, hx, hy, hnx, isNaN_of_isZero hy]
    | false =>
      simp [unsigned, numEq, hx, hy, hnx, (canonical_ne_zero hy).symm, ne_of_isZero hx hy]
  | false =>
    cases hy : y.isZero with
    | true =>
      simp [unsigned, numEq, hx, hy, isNaN_of_isZero hy, canonical_ne_zero hx,
        (ne_of_isZero hy hx).symm]
    | false =>
      simp only [unsigned, hx, hy, Bool.false_eq_true, if_false, canonical_eq_iff, numEq,
        Bool.and_false, Bool.or_false]
      by_cases he : x = y <;> simp [he]

def signedUnits (x : Binary64) : Int := if x.negative then -(x.units : Int) else x.units

def Denotes (x : Binary64) (i : Int) : Prop :=
  x.isFinite = true ∧ x.signedUnits = i * unitsOfOne

instance (x : Binary64) (i : Int) : Decidable (x.Denotes i) := inferInstanceAs (Decidable (_ ∧ _))

theorem units_of_denotes (h : x.Denotes i) : x.units = i.natAbs * unitsOfOne := by
  have habs := congrArg Int.natAbs h.2
  rw [Int.natAbs_mul, Int.natAbs_natCast] at habs
  rw [← habs, signedUnits]
  split <;> omega

theorem negative_of_denotes (h : x.Denotes i) (hi : i ≠ 0) : x.negative = decide (i < 0) := by
  have hone : (0 : Int) < unitsOfOne := Int.natCast_pos.2 unitsOfOne_pos
  have hsigned := h.2
  simp only [signedUnits] at hsigned
  split at hsigned
  · next hn =>
    have hle : i * unitsOfOne ≤ 0 := by omega
    have hneg : i < 0 := by
      by_contra hpos
      have := Int.mul_pos (show 0 < i by omega) hone
      omega
    rw [hn, decide_eq_true hneg]
  · next hn =>
    have hneg : ¬ i < 0 := by
      intro hlt
      have := Int.mul_neg_of_neg_of_pos hlt hone
      omega
    rw [eq_false_of_ne_true hn, decide_eq_false hneg]

theorem exponent_pos (hn : n ≠ 0) (h : x.units = n * unitsOfOne) : 0 < x.rank / 2 ^ 52 := by
  rw [← exponentField_eq]
  refine Nat.pos_of_ne_zero fun he => ?_
  have hfraction : x.fraction < 2 ^ 52 := by
    rw [fraction_eq]
    exact Nat.mod_lt _ (by decide)
  have hone : 2 ^ 52 ≤ unitsOfOne := by
    delta unitsOfOne
    generalize hplaces : 1074 = places
    exact Nat.pow_le_pow_right (by decide) (by omega)
  have hunits : x.units = x.fraction := by
    simp only [units, significand, spacing, he, if_true]
    exact Nat.mul_one _
  have := Nat.mul_le_mul (Nat.pos_of_ne_zero hn) hone
  omega

theorem unitsOfOne_eq {places : Nat} (h : places = 1074) : unitsOfOne = 2 ^ places := by
  delta unitsOfOne
  rw [← h]
  rfl

theorem log2_mul_pow (hn : n ≠ 0) (k : Nat) : (n * 2 ^ k).log2 = n.log2 + k := by
  obtain ⟨hlow, hhigh⟩ := (Nat.log2_eq_iff hn).1 (rfl : n.log2 = n.log2)
  have hpos : 0 < 2 ^ k := Nat.two_pow_pos k
  refine (Nat.log2_eq_iff (Nat.mul_ne_zero hn (Nat.ne_of_gt hpos))).2 ⟨?_, ?_⟩
  · rw [Nat.pow_add]
    exact Nat.mul_le_mul_right _ hlow
  · rw [Nat.add_right_comm, Nat.pow_add]
    exact Nat.mul_lt_mul_of_pos_right hhigh hpos

theorem roundedDiv_exact (q : Nat) {d : Nat} (hd : 0 < d) : roundedDiv (q * d) d = q := by
  simp only [roundedDiv, Nat.mul_div_cancel q hd, Nat.mul_mod_left]
  rw [if_neg (by omega)]

theorem roundedBits_of_units (hn : n ≠ 0) (h : x.units = n * unitsOfOne) :
    roundedBits n = x.rank := by
  have hexponent := exponent_pos hn h
  obtain ⟨e, s, hrank, hlow, hhigh⟩ : ∃ e s, x.rank = e * 2 ^ 52 + s ∧ 2 ^ 52 ≤ s ∧ s < 2 ^ 53 :=
    ⟨x.rank / 2 ^ 52 - 1, 2 ^ 52 + x.rank % 2 ^ 52, by omega, by omega, by omega⟩
  obtain ⟨places, hplaces⟩ : ∃ places, places = 1074 := ⟨_, rfl⟩
  have hunits : n * 2 ^ places = s * 2 ^ e := by
    rw [← unitsOfOne_eq hplaces, ← h, units_eq, hrank, unitsAt_normal e hlow hhigh]
  have hslog : s.log2 = 52 := (Nat.log2_eq_iff (by omega)).2 ⟨hlow, hhigh⟩
  have hlog : n.log2 + places = 52 + e := by
    rw [← log2_mul_pow hn, hunits, log2_mul_pow (by omega), hslog]
  have hsignificand : (if n.log2 ≤ 52 then n * Nat.pow 2 (52 - n.log2)
      else roundedDiv n (Nat.pow 2 (n.log2 - 52))) = s := by
    split
    · next hle =>
      have hsplit : places = 52 - n.log2 + e := by omega
      rw [hsplit, Nat.pow_add, ← Nat.mul_assoc] at hunits
      exact Nat.eq_of_mul_eq_mul_right (Nat.two_pow_pos e) hunits
    · next hgt =>
      have hsplit : e = n.log2 - 52 + places := by omega
      rw [hsplit, Nat.pow_add, ← Nat.mul_assoc] at hunits
      have hexact := Nat.eq_of_mul_eq_mul_right (Nat.two_pow_pos places) hunits
      calc roundedDiv n (Nat.pow 2 (n.log2 - 52))
          = roundedDiv (s * 2 ^ (n.log2 - 52)) (2 ^ (n.log2 - 52)) :=
            congrArg (roundedDiv · (2 ^ (n.log2 - 52))) hexact
        _ = s := roundedDiv_exact s (Nat.two_pow_pos _)
  simp only [roundedBits, if_neg hn, hsignificand, pow_52]
  omega

theorem unitsAt_roundedBits (hn : n < 2 ^ 53) : unitsAt (roundedBits n) = n * unitsOfOne := by
  by_cases hz : n = 0
  · rw [hz, Nat.zero_mul]
    rfl
  · have hlog : n.log2 ≤ 52 := Nat.le_of_lt_succ ((Nat.log2_lt hz).2 hn)
    obtain ⟨hlow, hhigh⟩ := shifted_bounds hz hlog
    obtain ⟨places, hplaces⟩ : ∃ places, places = 1074 := ⟨_, rfl⟩
    simp only [roundedBits, if_neg hz, if_pos hlog]
    calc unitsAt ((n.log2 + 1022) * 2 ^ 52 + n * 2 ^ (52 - n.log2))
        = n * 2 ^ (52 - n.log2) * 2 ^ (n.log2 + 1022) := unitsAt_normal _ hlow hhigh
      _ = n * 2 ^ places := by
        rw [Nat.mul_assoc, ← Nat.pow_add, show 52 - n.log2 + (n.log2 + 1022) = places by omega]
      _ = n * unitsOfOne := by rw [unitsOfOne_eq hplaces]

theorem rank_ofInt (hi : i.natAbs ≤ 2 ^ 63) : (ofInt i).rank = roundedBits i.natAbs := by
  have hlt := roundedBits_lt hi
  simp only [pow_52, pow_63] at hlt
  rw [rank, toNat_ofInt hi, pow_63]
  split <;> omega

theorem negative_ofInt (hi : i.natAbs ≤ 2 ^ 63) : (ofInt i).negative = decide (i < 0) := by
  have hlt := roundedBits_lt hi
  simp only [pow_52, pow_63] at hlt
  simp only [negative, toNat_ofInt hi, pow_63, decide_eq_decide]
  split <;> omega

theorem isFinite_ofInt (hi : i.natAbs ≤ 2 ^ 63) : (ofInt i).isFinite = true := by
  have hlt := roundedBits_lt hi
  simp only [pow_52, pow_63] at hlt
  rw [isFinite, exponentField_eq, rank_ofInt hi, decide_eq_true_eq]
  omega

theorem denotes_ofInt (hi : i.natAbs < 2 ^ 53) : (ofInt i).Denotes i := by
  have hle : i.natAbs ≤ 2 ^ 63 := by omega
  refine ⟨isFinite_ofInt hle, ?_⟩
  have hunits : (ofInt i).units = i.natAbs * unitsOfOne := by
    rw [units_eq, rank_ofInt hle, unitsAt_roundedBits hi]
  simp only [signedUnits, negative_ofInt hle, hunits, decide_eq_true_eq]
  generalize unitsOfOne = one
  split
  · next hneg =>
    rw [Int.natCast_mul, ← Int.neg_mul, Int.ofNat_natAbs_of_nonpos (by omega), Int.neg_neg]
  · next hpos => rw [Int.natCast_mul, Int.natAbs_of_nonneg (by omega)]

theorem isZero_of_denotes (h : x.Denotes 0) : x.isZero = true := by
  have hunits := units_of_denotes h
  rw [Int.natAbs_zero, Nat.zero_mul] at hunits
  exact decide_eq_true hunits

theorem unsigned_of_denotes (hi : i.natAbs ≤ 2 ^ 63) (h : x.Denotes i) :
    (ofInt i).unsigned = x.unsigned := by
  by_cases hz : i = 0
  · subst hz
    have hzero : (ofInt 0).isZero = true := by decide
    rw [unsigned, unsigned, if_pos hzero, if_pos (isZero_of_denotes h)]
  · have he : ofInt i = x := by
      apply eq_of_rank
      · rw [rank_ofInt hi]
        exact roundedBits_of_units (by omega) (units_of_denotes h)
      · rw [negative_ofInt hi, negative_of_denotes h hz]
    rw [he]

theorem denotes_of_unsigned (h : x.unsigned = y.unsigned) (hx : x.Denotes i) : y.Denotes i := by
  have hreal : x.isNaN = false := by simp [isNaN, hx.1]
  rw [unsigned_eq_iff, hreal, Bool.false_and, Bool.false_or] at h
  simp only [numEq, Bool.and_eq_true, Bool.or_eq_true, decide_eq_true_eq] at h
  rcases h.2 with rfl | ⟨hzx, hzy⟩
  · exact hx
  · have hunits := units_of_denotes hx
    have hux : x.units = 0 := of_decide_eq_true hzx
    have huy : y.units = 0 := of_decide_eq_true hzy
    rw [hux, eq_comm, Nat.mul_eq_zero] at hunits
    have hi : i = 0 := by
      have := hunits.resolve_right (Nat.ne_of_gt unitsOfOne_pos)
      omega
    refine ⟨isFinite_of_isZero hzy, ?_⟩
    rw [hi, Int.zero_mul, signedUnits, huy]
    split <;> rfl

theorem unsigned_ofInt (hi : i.natAbs ≤ 2 ^ 63) : (ofInt i).unsigned = ofInt i := by
  by_cases hz : (ofInt i).isZero = true
  · have hparts := parts_of_isZero hz
    rw [exponentField_eq, fraction_eq, rank_ofInt hi] at hparts
    have habs := roundedBits_eq_zero (show roundedBits i.natAbs = 0 by omega)
    rw [Int.natAbs_eq_zero.1 habs]
    decide
  · rw [unsigned, if_neg hz, canonical_of_not_isNaN (isNaN_ofInt hi)]

end Binary64

namespace Value

variable {v w u : Value} {i j : Int} {onDoubles : Binary64 → Binary64 → Bool}
  {form : Binary64 → Binary64}

theorem sameValueZero_iff :
    v.sameValueZero w = true ↔
      v.seen Binary64.unsigned = w.seen Binary64.unsigned ∧
        ∀ i j, v.toInt? = some i → w.toInt? = some j → i = j :=
  compareWith_iff fun _ _ => Binary64.unsigned_eq_iff

theorem exists_number (hv : v.isNumeric = true) (hi : v.toInt? = none) : ∃ x, v = .number x := by
  cases v with
  | number x => exact ⟨x, rfl⟩
  | _ => simp_all [isNumeric, isIntegral, toInt?]

section Comparison

variable (hform : ∀ x y : Binary64, form x = form y ↔ (x.isNaN && y.isNaN || onDoubles x y) = true)

include hform

theorem compareWith_refl (v : Value) : compareWith onDoubles v v = true :=
  (compareWith_iff hform).2 ⟨rfl, fun _ _ hi hj => Option.some.inj (hi.symm.trans hj)⟩

theorem compareWith_comm (v w : Value) : compareWith onDoubles v w = compareWith onDoubles w v := by
  rw [Bool.eq_iff_iff, compareWith_iff hform, compareWith_iff hform]
  constructor
  · exact fun h => ⟨h.1.symm, fun i j hi hj => (h.2 j i hj hi).symm⟩
  · exact fun h => ⟨h.1.symm, fun i j hi hj => (h.2 j i hj hi).symm⟩

/-- The only steps that do not add up go from an integer to a double and on to another
integer that is seen alike. -/
theorem compareWith_trans (hvw : compareWith onDoubles v w = true)
    (hwu : compareWith onDoubles w u = true) :
    compareWith onDoubles v u = true ∨
      ∃ i x j, v.toInt? = some i ∧ w = .number x ∧ u.toInt? = some j ∧ i ≠ j ∧
        form (.ofInt i) = form (.ofInt j) := by
  rw [compareWith_iff hform] at hvw hwu ⊢
  have hseen := hvw.1.trans hwu.1
  by_cases hints : ∀ i j, v.toInt? = some i → u.toInt? = some j → i = j
  · exact .inl ⟨hseen, hints⟩
  · right
    push Not at hints
    obtain ⟨i, j, hi, hj, hne⟩ := hints
    have hnone : w.toInt? = none := by
      cases hk : w.toInt? with
      | none => rfl
      | some k => exact absurd ((hvw.2 i k hi hk).trans (hwu.2 k j hk hj)) hne
    have hnumeric : w.isNumeric = true := by
      rw [← isNumeric_seen form w, ← hvw.1, isNumeric_seen, isNumeric_of_toInt? hi]
    obtain ⟨x, rfl⟩ := exists_number hnumeric hnone
    rw [seen_of_toInt? form hi, seen_of_toInt? form hj, number.injEq] at hseen
    exact ⟨i, x, j, hi, rfl, hj, hne, hseen⟩

end Comparison

/-- Two different integers beyond `2 ^ 53`, with a double between them. -/
def Torn (v w u : Value) : Prop :=
  ∃ i x j, v.toInt? = some i ∧ w = .number x ∧ u.toInt? = some j ∧ i ≠ j ∧
    2 ^ 53 ≤ i.natAbs ∧ 2 ^ 53 ≤ j.natAbs

theorem torn_of_ofInt {x : Binary64} (hi : v.toInt? = some i) (hw : w = .number x)
    (hj : u.toInt? = some j) (hne : i ≠ j) (h : Binary64.ofInt i = .ofInt j) : Torn v w u := by
  have hbi := natAbs_le_of_toInt? hi
  have hbj := natAbs_le_of_toInt? hj
  refine ⟨i, x, j, hi, hw, hj, hne, ?_, ?_⟩
  · by_contra hlt
    exact hne (Binary64.eq_of_ofInt_eq (Nat.lt_of_not_le hlt) hbj h)
  · by_contra hlt
    exact hne (Binary64.eq_of_ofInt_eq (Nat.lt_of_not_le hlt) hbi h.symm).symm

theorem sameValue_trans (hvw : v.sameValue w = true) (hwu : w.sameValue u = true) :
    v.sameValue u = true ∨ Torn v w u := by
  rcases compareWith_trans (fun _ _ => Binary64.canonical_eq_iff) hvw hwu with
    h | ⟨i, x, j, hi, hw, hj, hne, hform⟩
  · exact .inl h
  · rw [Binary64.canonical_of_not_isNaN (Binary64.isNaN_ofInt (natAbs_le_of_toInt? hi)),
      Binary64.canonical_of_not_isNaN (Binary64.isNaN_ofInt (natAbs_le_of_toInt? hj))] at hform
    exact .inr (torn_of_ofInt hi hw hj hne hform)

theorem sameValueZero_trans (hvw : v.sameValueZero w = true) (hwu : w.sameValueZero u = true) :
    v.sameValueZero u = true ∨ Torn v w u := by
  rcases compareWith_trans (fun _ _ => Binary64.unsigned_eq_iff) hvw hwu with
    h | ⟨i, x, j, hi, hw, hj, hne, hform⟩
  · exact .inl h
  · rw [Binary64.unsigned_ofInt (natAbs_le_of_toInt? hi),
      Binary64.unsigned_ofInt (natAbs_le_of_toInt? hj)] at hform
    exact .inr (torn_of_ofInt hi hw hj hne hform)

theorem compareWith_mono {finer coarser : Binary64 → Binary64 → Bool}
    (hle : ∀ x y, finer x y = true → coarser x y = true) (h : compareWith finer v w = true) :
    compareWith coarser v w = true := by
  simp only [compareWith] at h ⊢
  by_cases hnumeric : (v.isNumeric && w.isNumeric) = true
  · rw [if_pos hnumeric] at h ⊢
    split
    · next i j hi hj => rwa [hi, hj] at h
    · next hints =>
      split at h
      · next i j hi hj => exact absurd hj (hints i j hi)
      · exact Bool.or_eq_true_iff.2 ((Bool.or_eq_true_iff.1 h).imp_right (hle _ _))
  · rwa [if_neg hnumeric] at h ⊢

variable {n : Int64} {x y : Binary64}

theorem sameValueZero_int64_iff :
    (Value.int64 n).sameValueZero (.number x) = true ↔
      (Binary64.ofInt n.toInt).unsigned = x.unsigned := by
  rw [sameValueZero_iff, seen_of_toInt? _ (rfl : (Value.int64 n).toInt? = some n.toInt)]
  constructor
  · intro h
    exact number.inj h.1
  · intro h
    exact ⟨congrArg number h, fun i j _ hj => by cases hj⟩

theorem natAbs_toInt_le (n : Int64) : n.toInt.natAbs ≤ 2 ^ 63 :=
  natAbs_le_of_toInt? (v := .int64 n) rfl

/-- An integer that has a double of its own is the same as that double alone. -/
theorem sameValueZero_iff_denotes (hy : y.Denotes n.toInt) :
    (Value.int64 n).sameValueZero (.number x) = true ↔ x.Denotes n.toInt := by
  rw [sameValueZero_int64_iff, Binary64.unsigned_of_denotes (natAbs_toInt_le n) hy]
  constructor
  · exact fun h => Binary64.denotes_of_unsigned h hy
  · intro hx
    rw [← Binary64.unsigned_of_denotes (natAbs_toInt_le n) hy,
      Binary64.unsigned_of_denotes (natAbs_toInt_le n) hx]

/-- Both comparisons are reflexive and symmetric and the finer one implies the other. They
are transitive but for two large integers that a double joins, and an integer is the same
as a double that is this number, and as no other unless there is none. -/
theorem comparisons_join_large_integers_only (v w u : Value) (n : Int64) (x : Binary64) :
    (v.sameValue v = true ∧ v.sameValueZero v = true) ∧
      (v.sameValue w = w.sameValue v ∧ v.sameValueZero w = w.sameValueZero v) ∧
      (v.sameValue w = true → v.sameValueZero w = true) ∧
      (v.sameValue w = true → w.sameValue u = true → v.sameValue u = true ∨ Torn v w u) ∧
      (v.sameValueZero w = true → w.sameValueZero u = true →
        v.sameValueZero u = true ∨ Torn v w u) ∧
      (x.Denotes n.toInt → (Value.int64 n).sameValueZero (.number x) = true) ∧
      (((∃ y : Binary64, y.Denotes n.toInt) ∨ n.toInt.natAbs < 2 ^ 53) →
        ((Value.int64 n).sameValueZero (.number x) = true ↔ x.Denotes n.toInt)) := by
  refine ⟨⟨sameValue_refl v, ?_⟩, ⟨?_, ?_⟩, ?_, sameValue_trans, sameValueZero_trans,
    fun hx => (sameValueZero_iff_denotes hx).2 hx, ?_⟩
  · exact compareWith_refl (fun _ _ => Binary64.unsigned_eq_iff) v
  · exact compareWith_comm (fun _ _ => Binary64.canonical_eq_iff) v w
  · exact compareWith_comm (fun _ _ => Binary64.unsigned_eq_iff) v w
  · exact compareWith_mono fun _ _ h => (Bool.and_eq_true_iff.1 h).1
  · rintro (⟨y, hy⟩ | hn)
    · exact sameValueZero_iff_denotes hy
    · exact sameValueZero_iff_denotes (Binary64.denotes_ofInt hn)

theorem representations_compared :
    let seven : Binary64 := ⟨0x401c000000000000⟩
    let x : Binary64 := ⟨0x4340000000000001⟩
    let n : Int64 := 9007199254740994
    (Value.int32 7).sameValue (.number seven) = true ∧
      (Value.number seven).sameValue (.int64 7) = true ∧
      ((Value.int32 7).sameValue (.int64 7) = true ∨
        Torn (.int32 7) (.number seven) (.int64 7)) ∧
      x.Denotes n.toInt ∧ (Value.int64 n).sameValueZero (.number x) = true := by
  intro seven x n
  have hleft : (Value.int32 7).sameValue (.number seven) = true := by decide +kernel
  have hright : (Value.number seven).sameValue (.int64 7) = true := by decide +kernel
  have hx : x.Denotes n.toInt := by decide +kernel
  obtain ⟨-, -, -, htrans, -, hsame, -⟩ :=
    comparisons_join_large_integers_only (.int32 7) (.number seven) (.int64 7) n x
  exact ⟨hleft, hright, htrans hleft hright, hx, hsame hx⟩

/-- The double `2 ^ 53` is the same as that integer and as the next one, which are not the
same, and it is not the next one. -/
theorem double_joins_two_integers :
    let x : Binary64 := ⟨0x4340000000000000⟩
    (Value.int64 9007199254740993).sameValue (.number x) = true ∧
      (Value.number x).sameValue (.int64 9007199254740992) = true ∧
      (Value.int64 9007199254740993).sameValue (.int64 9007199254740992) = false ∧
      (Value.int64 9007199254740993).sameValueZero (.number x) = true ∧
      (Value.number x).sameValueZero (.int64 9007199254740992) = true ∧
      (Value.int64 9007199254740993).sameValueZero (.int64 9007199254740992) = false ∧
      ¬ x.Denotes (9007199254740993 : Int64).toInt := by
  decide +kernel

end Value

end InlineCache
