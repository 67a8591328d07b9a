/-! Double-precision numbers as bit patterns.
A finite number is its sign and a whole number of units, where a unit is the
smallest positive magnitude `2 ^ -1074`; every test and conversion below is
exact arithmetic on units. -/

namespace InlineCache

structure Binary64 where
  bits : UInt64
deriving DecidableEq

namespace Binary64

def ofNat (n : Nat) : Binary64 := ⟨UInt64.ofNat n⟩

def zero : Binary64 := ⟨0⟩

def one : Binary64 := ofNat 0x3ff0000000000000

def negative (x : Binary64) : Bool := decide (Nat.pow 2 63 ≤ x.bits.toNat)

def exponentField (x : Binary64) : Nat := x.bits.toNat / Nat.pow 2 52 % 2048

def fraction (x : Binary64) : Nat := x.bits.toNat % Nat.pow 2 52

def isFinite (x : Binary64) : Bool := decide (x.exponentField ≠ 2047)

def isNaN (x : Binary64) : Bool := !x.isFinite && decide (x.fraction ≠ 0)

def spacing (x : Binary64) : Nat := Nat.pow 2 (x.exponentField - 1)

def significand (x : Binary64) : Nat :=
  if x.exponentField = 0 then x.fraction else Nat.pow 2 52 + x.fraction

def units (x : Binary64) : Nat := x.significand * x.spacing

def unitsOfOne : Nat := Nat.pow 2 1074

def isZero (x : Binary64) : Bool := decide (x.units = 0)

/-- Numeric equality: `NaN` differs from everything and the two zeros agree. -/
def numEq (x y : Binary64) : Bool :=
  !x.isNaN && !y.isNaN && (decide (x = y) || x.isZero && y.isZero)

def isIntegral (x : Binary64) : Bool := x.isFinite && decide (x.units % unitsOfOne = 0)

def truncated (x : Binary64) : Int :=
  let n := x.units / unitsOfOne
  if x.negative then -(n : Int) else n

def toInt64? (x : Binary64) : Option Int64 :=
  let n := x.truncated
  if x.isIntegral ∧ Int64.minValue.toInt ≤ n ∧ n ≤ Int64.maxValue.toInt then some (Int64.ofInt n)
  else none

def roundedDiv (n d : Nat) : Nat :=
  let q := n / d
  let r := n % d
  if d < 2 * r ∨ d = 2 * r ∧ q % 2 = 1 then q + 1 else q

/-- The bits of the number nearest to a whole number. A carry out of the
significand moves into the exponent by itself. -/
def roundedBits (n : Nat) : Nat :=
  if n = 0 then 0
  else
    let e := Nat.log2 n
    let m := if e ≤ 52 then n * Nat.pow 2 (52 - e) else roundedDiv n (Nat.pow 2 (e - 52))
    (e + 1022) * Nat.pow 2 52 + m

def ofInt (n : Int) : Binary64 :=
  ofNat (roundedBits n.natAbs + if n < 0 then Nat.pow 2 63 else 0)

end Binary64

end InlineCache
