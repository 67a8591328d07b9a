import InlineCache.Proofs.CanonicalIndex
import InlineCache.Proofs.SameValue

/-! The digits that a double is written with. They read back to it, and one that lies on a
grid is written without places below that grid. Around a double below `2 ^ 53` there is
room for one whole number at most, so an index that reads back to a double equals it, and a
double that is an index is written as that index. -/

namespace InlineCache

theorem Text.lt_length_decimal {n k : Nat} (h : 10 ^ k ≤ n) : k < (decimal n).length := by
  by_contra hk
  have hlt : n < 10 ^ (decimal n).length := digitsValue?_lt (digitsValue?_decimal n)
  have hle : 10 ^ (decimal n).length ≤ 10 ^ k :=
    Nat.pow_le_pow_right (by decide) (Nat.le_of_not_lt hk)
  exact Nat.not_lt_of_le (Nat.le_trans hle h) hlt

namespace Binary64

variable {x : Binary64} {m n drop start : Nat}

def unit : Nat := Nat.pow 5 1074

theorem unit_pos : 0 < unit := by
  delta unit
  generalize 1074 = places
  exact Nat.pow_pos (by decide)

theorem unitsOfOne_pos : 0 < unitsOfOne := by
  delta unitsOfOne
  generalize 1074 = places
  exact Nat.pow_pos (by decide)

theorem pow_places {places : Nat} (h : places = 1074) : 10 ^ places = unitsOfOne * unit := by
  delta unitsOfOne unit
  rw [← h]
  exact Nat.mul_pow 2 5 places

theorem scaled_eq (x : Binary64) : x.scaled = x.units * unit := by
  delta scaled unit
  exact Eq.refl _

theorem admits_eq (x : Binary64) (m : Nat) :
    x.admits m =
      if x.fraction % 2 = 0 then
        decide ((4 * x.units - x.reachBelow) * unit ≤ 4 * m) &&
          decide (4 * m ≤ (4 * x.units + 2 * x.spacing) * unit)
      else
        decide ((4 * x.units - x.reachBelow) * unit < 4 * m) &&
          decide (4 * m < (4 * x.units + 2 * x.spacing) * unit) := by
  delta admits unit
  exact Eq.refl _

theorem reachBelow_pos (x : Binary64) : 0 < x.reachBelow := by
  have hspacing := x.spacing_pos
  simp only [reachBelow]
  split <;> omega

theorem reachBelow_le (x : Binary64) : x.reachBelow ≤ 2 * x.spacing := by
  simp only [reachBelow]
  split <;> omega

theorem admits_scaled (h : 0 < x.units) : x.admits x.scaled = true := by
  have hreach := x.reachBelow_pos
  have hspacing := x.spacing_pos
  have hlow : (4 * x.units - x.reachBelow) * unit < 4 * x.scaled := by
    rw [scaled_eq, ← Nat.mul_assoc]
    exact Nat.mul_lt_mul_of_pos_right (by omega) unit_pos
  have hhigh : 4 * x.scaled < (4 * x.units + 2 * x.spacing) * unit := by
    rw [scaled_eq, ← Nat.mul_assoc]
    exact Nat.mul_lt_mul_of_pos_right (by omega) unit_pos
  rw [admits_eq]
  split
  · exact Bool.and_eq_true_iff.2
      ⟨decide_eq_true (Nat.le_of_lt hlow), decide_eq_true (Nat.le_of_lt hhigh)⟩
  · exact Bool.and_eq_true_iff.2 ⟨decide_eq_true hlow, decide_eq_true hhigh⟩

theorem bounds_of_admits (h : x.admits (m * unit) = true) :
    4 * x.units ≤ 4 * m + 2 * x.spacing ∧ 4 * m ≤ 4 * x.units + 2 * x.spacing := by
  have hreach := x.reachBelow_le
  have hclosed : (4 * x.units - x.reachBelow) * unit ≤ 4 * (m * unit) ∧
      4 * (m * unit) ≤ (4 * x.units + 2 * x.spacing) * unit := by
    rw [admits_eq] at h
    split at h
    · exact (Bool.and_eq_true_iff.1 h).imp of_decide_eq_true of_decide_eq_true
    · have hstrict := (Bool.and_eq_true_iff.1 h).imp of_decide_eq_true of_decide_eq_true
      exact ⟨Nat.le_of_lt hstrict.1, Nat.le_of_lt hstrict.2⟩
  rw [← Nat.mul_assoc] at hclosed
  have hlow := Nat.le_of_mul_le_mul_right hclosed.1 unit_pos
  have hhigh := Nat.le_of_mul_le_mul_right hclosed.2 unit_pos
  omega

theorem pos_of_admits (h : 0 < x.units) (hm : x.admits (m * unit) = true) : 0 < m := by
  have hsignificand : 0 < x.significand := Nat.pos_of_mul_pos_right h
  have hle : x.spacing ≤ x.units := Nat.le_mul_of_pos_left _ hsignificand
  have hspacing := x.spacing_pos
  have hbounds := bounds_of_admits hm
  omega

theorem admits_of_onGrid? {c : Nat} (h : x.onGrid? drop = some c) :
    x.admits (c * 10 ^ drop) = true := by
  simp only [onGrid?, Nat.pow_eq] at h
  split at h
  · next hlow hhigh =>
    obtain rfl := Option.some.inj h
    simp only [roundedAt, roundedDiv, Nat.pow_eq]
    split
    · exact hhigh
    · exact hlow
  · next hlow _ =>
    cases h
    exact hlow
  · next hhigh =>
    cases h
    exact hhigh
  · cases h

theorem isSome_onGrid? (h : 0 < x.units) (hdvd : 10 ^ drop ∣ x.scaled) :
    (x.onGrid? drop).isSome = true := by
  have hself : x.admits (x.scaled / 10 ^ drop * 10 ^ drop) = true := by
    rw [Nat.div_mul_cancel hdvd]
    exact admits_scaled h
  simp only [onGrid?, Nat.pow_eq, hself]
  split <;> simp_all

end Binary64

namespace Decimal

def multiple (d : Decimal) : Nat := d.coefficient * 10 ^ (d.exponent + 1074).toNat

theorem multiple_of_nonneg {d : Decimal} (h : 0 ≤ d.exponent) :
    d.multiple =
      d.coefficient * 10 ^ d.exponent.toNat * Binary64.unitsOfOne * Binary64.unit := by
  obtain ⟨places, hplaces⟩ : ∃ places, places = 1074 := ⟨_, rfl⟩
  rw [multiple, show (d.exponent + 1074).toNat = d.exponent.toNat + places by omega,
    Nat.pow_add, Binary64.pow_places hplaces, ← Nat.mul_assoc, ← Nat.mul_assoc]

theorem dropZeros_multiple (bound : Nat) {d : Decimal} (h : -1074 ≤ d.exponent) :
    (dropZeros bound d).multiple = d.multiple ∧ d.exponent ≤ (dropZeros bound d).exponent := by
  induction bound generalizing d with
  | zero => exact ⟨rfl, Int.le_refl _⟩
  | succ bound ih =>
    simp only [dropZeros]
    split
    · next hzero =>
      have hle : -1074 ≤ d.exponent + 1 := Int.le_add_one h
      obtain ⟨hmultiple, hexponent⟩ := ih (d := ⟨d.coefficient / 10, d.exponent + 1⟩) hle
      have hplaces : (d.exponent + 1 + 1074).toNat = (d.exponent + 1074).toNat + 1 := by omega
      have hcoefficient : d.coefficient / 10 * 10 = d.coefficient :=
        Nat.div_mul_cancel (Nat.dvd_of_mod_eq_zero hzero)
      refine ⟨hmultiple.trans ?_, Int.le_trans (Int.le_add_one (Int.le_refl _)) hexponent⟩
      rw [multiple, multiple, hplaces, Nat.pow_succ', ← Nat.mul_assoc, hcoefficient]
    · exact ⟨rfl, Int.le_refl _⟩

end Decimal

namespace Binary64

variable {x : Binary64} {n drop start : Nat}

theorem shortestFrom_admits (h : 0 < x.units) (start : Nat) :
    x.admits (x.shortestFrom start).multiple = true ∧ -1074 ≤ (x.shortestFrom start).exponent := by
  induction start with
  | zero =>
    refine ⟨?_, Int.le_refl _⟩
    simp only [shortestFrom, Decimal.multiple]
    rw [show ((-1074 : Int) + 1074).toNat = 0 from rfl, Nat.pow_zero, Nat.mul_one]
    exact admits_scaled h
  | succ drop ih =>
    simp only [shortestFrom]
    split
    · next c hc =>
      refine ⟨?_, by simp only; omega⟩
      simp only [Decimal.multiple]
      rw [show (((drop + 1 : Nat) : Int) - 1074 + 1074).toNat = drop + 1 by omega]
      exact admits_of_onGrid? hc
    · exact ih

theorem le_shortestFrom_exponent (hdrop : (x.onGrid? drop).isSome = true) (hle : drop ≤ start) :
    (drop : Int) - 1074 ≤ (x.shortestFrom start).exponent := by
  induction start with
  | zero =>
    obtain rfl := Nat.le_zero.1 hle
    exact Int.le_refl _
  | succ start ih =>
    simp only [shortestFrom]
    split
    · simp only
      omega
    · next hnone =>
      refine ih (Nat.le_of_lt_succ (Nat.lt_of_le_of_ne hle ?_))
      rintro rfl
      rw [hnone] at hdrop
      cases hdrop

theorem admits_shortest (h : 0 < x.units) : x.admits x.shortest.multiple = true := by
  obtain ⟨hadmits, hexponent⟩ := shortestFrom_admits h (x.span - 1)
  rw [shortest, Decimal.reduced, (Decimal.dropZeros_multiple _ hexponent).1]
  exact hadmits

theorem le_shortest_exponent (h : 0 < x.units) (hdvd : 10 ^ drop ∣ x.scaled) :
    (drop : Int) - 1074 ≤ x.shortest.exponent := by
  have hspan : drop < x.span := by
    have hscaled : 0 < x.scaled := by
      rw [scaled_eq]
      exact Nat.mul_pos h unit_pos
    exact Text.lt_length_decimal (Nat.le_of_dvd hscaled hdvd)
  have hfrom := le_shortestFrom_exponent (isSome_onGrid? h hdvd) (Nat.le_sub_one_of_lt hspan)
  obtain ⟨-, hexponent⟩ := shortestFrom_admits h (x.span - 1)
  exact Int.le_trans hfrom (Decimal.dropZeros_multiple _ hexponent).2

theorem spacing_dvd (h : x.exponentField ≤ 1075) : x.spacing ∣ unitsOfOne := by
  have hle : x.exponentField - 1 ≤ 1074 := Nat.sub_le_of_le_add h
  delta unitsOfOne
  generalize 1074 = places at hle ⊢
  exact Nat.pow_dvd_pow 2 hle

theorem le_spacing (h : 1075 < x.exponentField) : unitsOfOne ≤ x.spacing := by
  have hle : 1074 ≤ x.exponentField - 1 := Nat.le_sub_of_add_le (Nat.le_of_lt h)
  delta unitsOfOne
  generalize 1074 = places at hle ⊢
  exact Nat.pow_le_pow_right (by decide) hle

theorem maxIndex_lt_significand (h : 1075 < x.exponentField) : maxIndex < x.significand := by
  rw [significand, if_neg (by omega)]
  exact Nat.lt_add_right _ (by decide)

theorem le_of_half_apart {a b s : Nat} (hs : 0 < s) (h : 4 * (a * s) ≤ 4 * (b * s) + 2 * s) :
    a ≤ b := by
  by_contra hlt
  have hstep := Nat.mul_le_mul_right s (Nat.lt_of_not_le hlt)
  rw [Nat.succ_mul] at hstep
  omega

/-- Whole numbers that read back to one below `2 ^ 53` equal it, as both are multiples of
the spacing. -/
theorem units_of_dense (hdense : x.exponentField ≤ 1075)
    (h : x.admits (n * unitsOfOne * unit) = true) : x.units = n * unitsOfOne := by
  obtain ⟨hlow, hhigh⟩ := bounds_of_admits h
  obtain ⟨cells, hcells⟩ := spacing_dvd hdense
  have hmultiple : n * unitsOfOne = n * cells * x.spacing := by
    rw [hcells, Nat.mul_comm x.spacing, Nat.mul_assoc]
  rw [hmultiple] at hlow hhigh ⊢
  exact congrArg (· * x.spacing) (Nat.le_antisymm (le_of_half_apart x.spacing_pos hlow)
    (le_of_half_apart x.spacing_pos hhigh))

theorem units_of_admits (h : x.admits (n * unitsOfOne * unit) = true) (hn : n ≤ maxIndex) :
    x.units = n * unitsOfOne := by
  rcases Nat.lt_or_ge 1075 x.exponentField with hsparse | hdense
  · -- all that reads back to so great a number is greater than any index
    have hle : n * unitsOfOne ≤ n * x.spacing := Nat.mul_le_mul_left n (le_spacing hsparse)
    have hlow := (bounds_of_admits h).1
    have hreached : x.significand ≤ n :=
      le_of_half_apart x.spacing_pos (Nat.le_trans hlow (by omega))
    have hlarge := maxIndex_lt_significand hsparse
    omega
  · exact units_of_dense hdense h

theorem shortest_of_index (hpos : 0 < x.units) (hx : x.units = n * unitsOfOne)
    (hn : n ≤ maxIndex) :
    0 ≤ x.shortest.exponent ∧ x.shortest.coefficient * 10 ^ x.shortest.exponent.toNat = n := by
  have hdense : x.exponentField ≤ 1075 := by
    by_contra hsparse
    have hlarge := maxIndex_lt_significand (Nat.lt_of_not_le hsparse)
    have hspacing := le_spacing (Nat.lt_of_not_le hsparse)
    have hlt : n * unitsOfOne < x.significand * x.spacing :=
      Nat.lt_of_le_of_lt (Nat.mul_le_mul_left n hspacing)
        (Nat.mul_lt_mul_of_pos_right (by omega) x.spacing_pos)
    exact absurd hx (Nat.ne_of_gt hlt)
  have hexponent : 0 ≤ x.shortest.exponent := by
    obtain ⟨places, hplaces⟩ : ∃ places, places = 1074 := ⟨_, rfl⟩
    have hdvd : 10 ^ places ∣ x.scaled := by
      rw [pow_places hplaces, scaled_eq, hx, Nat.mul_assoc]
      exact Nat.dvd_mul_left _ n
    have hgrid := le_shortest_exponent hpos hdvd
    omega
  have hadmits := admits_shortest hpos
  rw [Decimal.multiple_of_nonneg hexponent] at hadmits
  have hunits := units_of_dense hdense hadmits
  exact ⟨hexponent, Nat.eq_of_mul_eq_mul_right unitsOfOne_pos (hunits.symm.trans hx)⟩

end Binary64

end InlineCache
