import InlineCache.Proofs.ShortestDigits
import Mathlib.Order.Monotone.Basic

/-! Doubles in order of magnitude.
The bits below the sign number the magnitudes from zero upwards, and each lies one spacing
above the one before it. So the midpoints between them cut the reals into intervals that
share their ends at most, and an end belongs to the even neighbour: what reads back to a
magnitude reads back to no other. -/

namespace InlineCache

namespace Binary64

variable {x y : Binary64} {r n m : Nat}

def rank (x : Binary64) : Nat := x.bits.toNat % 2 ^ 63

def spacingAt (r : Nat) : Nat := 2 ^ (r / 2 ^ 52 - 1)

def significandAt (r : Nat) : Nat := if r / 2 ^ 52 = 0 then r % 2 ^ 52 else 2 ^ 52 + r % 2 ^ 52

def unitsAt (r : Nat) : Nat := significandAt r * spacingAt r

theorem exponentField_eq (x : Binary64) : x.exponentField = x.rank / 2 ^ 52 := by
  simp only [exponentField, rank, pow_52]
  omega

theorem fraction_eq (x : Binary64) : x.fraction = x.rank % 2 ^ 52 := by
  simp only [fraction, rank, pow_52]
  omega

theorem spacing_eq (x : Binary64) : x.spacing = spacingAt x.rank := by
  rw [spacing, exponentField_eq]
  rfl

theorem units_eq (x : Binary64) : x.units = unitsAt x.rank := by
  simp only [units, significand, exponentField_eq, fraction_eq, spacing_eq, pow_52]
  rfl

theorem eq_of_rank (hrank : x.rank = y.rank) (hsign : x.negative = y.negative) : x = y := by
  have hx := x.bits.toNat_lt
  have hy := y.bits.toNat_lt
  simp only [rank] at hrank
  simp only [negative, pow_63, decide_eq_decide] at hsign
  have hbits : x.bits.toNat = y.bits.toNat := by omega
  cases x
  cases y
  exact congrArg mk (UInt64.toNat_inj.1 hbits)

theorem spacingAt_pos (r : Nat) : 0 < spacingAt r := Nat.two_pow_pos _

theorem unitsAt_normal (e : Nat) {s : Nat} (hlow : 2 ^ 52 ≤ s) (hhigh : s < 2 ^ 53) :
    unitsAt (e * 2 ^ 52 + s) = s * 2 ^ e := by
  have hexponent : (e * 2 ^ 52 + s) / 2 ^ 52 = e + 1 := by omega
  have hfraction : 2 ^ 52 + (e * 2 ^ 52 + s) % 2 ^ 52 = s := by omega
  simp only [unitsAt, significandAt, spacingAt, hexponent, hfraction, Nat.succ_ne_zero, if_false,
    Nat.add_sub_cancel]

/-- Within a binade the spacing stays, and from one to the next it doubles, but for the
first two. -/
theorem parts_succ (r : Nat) :
    (r + 1) / 2 ^ 52 = r / 2 ^ 52 ∧ (r + 1) % 2 ^ 52 = r % 2 ^ 52 + 1 ∨
      (r + 1) / 2 ^ 52 = r / 2 ^ 52 + 1 ∧ (r + 1) % 2 ^ 52 = 0 ∧ r % 2 ^ 52 = 2 ^ 52 - 1 := by
  omega

theorem unitsAt_succ (r : Nat) : unitsAt (r + 1) = unitsAt r + spacingAt r := by
  simp only [unitsAt, significandAt, spacingAt]
  rcases parts_succ r with ⟨hexponent, hfraction⟩ | ⟨hexponent, hfraction, hlast⟩
  · rw [hexponent, hfraction]
    split <;> exact Nat.succ_mul _ _
  · rw [hexponent, hfraction, hlast]
    cases r / 2 ^ 52 with
    | zero => rfl
    | succ e =>
      simp only [Nat.succ_ne_zero, if_false, Nat.add_sub_cancel, Nat.pow_succ]
      omega

theorem rank_pos (h : 0 < x.units) : 0 < x.rank := by
  rw [units_eq] at h
  refine Nat.pos_of_ne_zero fun hr => ?_
  rw [hr] at h
  exact absurd h (by decide)

def midpoint (r : Nat) : Nat := 4 * unitsAt r + 2 * spacingAt r

theorem midpoint_strictMono : StrictMono midpoint :=
  strictMono_nat_of_lt_succ fun r => by
    have hstep := unitsAt_succ r
    have hpos := spacingAt_pos r
    simp only [midpoint]
    omega

theorem reachBelow_eq (hr : x.rank = r + 1) : x.reachBelow = 2 * spacingAt r := by
  simp only [reachBelow, exponentField_eq, fraction_eq, spacing_eq, hr, spacingAt]
  rcases parts_succ r with ⟨hexponent, hfraction⟩ | ⟨hexponent, hfraction, -⟩
  · rw [hexponent, hfraction, if_neg fun h => Nat.succ_ne_zero _ h.1]
  · rw [hexponent, hfraction]
    cases r / 2 ^ 52 with
    | zero => rfl
    | succ e =>
      rw [if_pos ⟨rfl, by omega⟩]
      simp only [Nat.add_sub_cancel, Nat.pow_succ]
      omega

theorem between_of_admits (hr : x.rank = r + 1) (h : x.admits m = true) :
    midpoint r * unit ≤ 4 * m ∧ 4 * m ≤ midpoint x.rank * unit ∧
      (x.rank % 2 = 1 → midpoint r * unit < 4 * m ∧ 4 * m < midpoint x.rank * unit) := by
  have hlow : 4 * x.units - x.reachBelow = midpoint r := by
    rw [reachBelow_eq hr, units_eq, hr, unitsAt_succ, midpoint]
    omega
  have hhigh : 4 * x.units + 2 * x.spacing = midpoint x.rank := by
    rw [units_eq, spacing_eq, midpoint]
  have hparity : x.fraction % 2 = x.rank % 2 := by
    rw [fraction_eq]
    omega
  rw [admits_eq, hlow, hhigh, hparity] at h
  split at h
  · next heven =>
    obtain ⟨hl, hh⟩ := (Bool.and_eq_true_iff.1 h).imp of_decide_eq_true of_decide_eq_true
    exact ⟨hl, hh, fun hodd => absurd hodd (by omega)⟩
  · obtain ⟨hl, hh⟩ := (Bool.and_eq_true_iff.1 h).imp of_decide_eq_true of_decide_eq_true
    exact ⟨Nat.le_of_lt hl, Nat.le_of_lt hh, fun _ => ⟨hl, hh⟩⟩

theorem not_admits_of_lt (hx : 0 < x.units) (hlt : x.rank < y.rank) (hm : x.admits m = true) :
    y.admits m = false := by
  rw [Bool.eq_false_iff]
  intro hm'
  obtain ⟨r, hr⟩ := Nat.exists_eq_succ_of_ne_zero (Nat.ne_of_gt (rank_pos hx))
  obtain ⟨s, hs⟩ := Nat.exists_eq_succ_of_ne_zero (Nat.ne_zero_of_lt hlt)
  obtain ⟨-, hhigh, hodd⟩ := between_of_admits hr hm
  obtain ⟨hlow, -, hodd'⟩ := between_of_admits hs hm'
  have hle : midpoint s ≤ midpoint x.rank := Nat.le_of_mul_le_mul_right (hlow.trans hhigh) unit_pos
  have hnext : s = x.rank := by
    have := midpoint_strictMono.le_iff_le.1 hle
    omega
  -- the two are neighbours, and the midpoint between them belongs to one of them only
  rw [hnext] at hlow hs hodd'
  rcases Nat.mod_two_eq_zero_or_one x.rank with heven | hodd''
  · have := (hodd' (by omega)).1
    omega
  · have := (hodd hodd'').2
    omega

/-- Nothing reads back to two magnitudes. -/
theorem rank_of_admits (hx : 0 < x.units) (hy : 0 < y.units) (hmx : x.admits m = true)
    (hmy : y.admits m = true) : x.rank = y.rank := by
  rcases Nat.lt_trichotomy x.rank y.rank with hlt | heq | hgt
  · rw [not_admits_of_lt hx hlt hmx] at hmy
    cases hmy
  · exact heq
  · rw [not_admits_of_lt hy hgt hmy] at hmx
    cases hmx

end Binary64

end InlineCache
