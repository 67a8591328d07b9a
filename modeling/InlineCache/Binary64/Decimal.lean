import InlineCache.Text
import InlineCache.Binary64.Basic

/-! Decimal digits of a double.
Every finite double is a whole multiple of `10 ^ -1074`, so its exact decimal
expansion, the fewest digits that read back to it and its value rounded to a
fixed number of digits all come from one natural number. -/

namespace InlineCache

structure Decimal where
  coefficient : Nat
  exponent : Int
deriving DecidableEq

namespace Decimal

def digits (d : Decimal) : Text := Text.decimal d.coefficient

def scale (d : Decimal) : Int := d.exponent + d.digits.length - 1

def dropZeros : Nat → Decimal → Decimal
  | 0, d => d
  | bound + 1, d =>
    if d.coefficient % 10 = 0 then dropZeros bound ⟨d.coefficient / 10, d.exponent + 1⟩ else d

def reduced (d : Decimal) : Decimal := dropZeros d.coefficient d

end Decimal

namespace Binary64

def scaled (x : Binary64) : Nat := x.units * Nat.pow 5 1074

/-- Half the distance to the magnitude below, in quarters of a unit. Below a
power of two the numbers lie twice as dense. -/
def reachBelow (x : Binary64) : Nat :=
  if x.fraction = 0 ∧ 1 < x.exponentField then x.spacing else 2 * x.spacing

/-- Whether `m * 10 ^ -1074` reads back to `x`: it lies between the midpoints to
the neighbours, which belong to an even significand. -/
def admits (x : Binary64) (m : Nat) : Bool :=
  let low := (4 * x.units - x.reachBelow) * Nat.pow 5 1074
  let high := (4 * x.units + 2 * x.spacing) * Nat.pow 5 1074
  if x.fraction % 2 = 0 then decide (low ≤ 4 * m) && decide (4 * m ≤ high)
  else decide (low < 4 * m) && decide (4 * m < high)

def roundedAt (x : Binary64) (drop : Nat) : Nat := roundedDiv x.scaled (Nat.pow 10 drop)

def onGrid? (x : Binary64) (drop : Nat) : Option Nat :=
  let step := Nat.pow 10 drop
  let q := x.scaled / step
  match x.admits (q * step), x.admits ((q + 1) * step) with
  | true, true => some (x.roundedAt drop)
  | true, false => some q
  | false, true => some (q + 1)
  | false, false => none

/-- The coarsest grid from `drop` downwards that holds a number reading back to
`x`. The finest one holds `x` itself. -/
def shortestFrom (x : Binary64) : Nat → Decimal
  | 0 => ⟨x.scaled, -1074⟩
  | drop + 1 =>
    match x.onGrid? (drop + 1) with
    | some c => ⟨c, (drop + 1 : Nat) - 1074⟩
    | none => shortestFrom x drop

def span (x : Binary64) : Nat := (Text.decimal x.scaled).length

def shortest (x : Binary64) : Decimal := (x.shortestFrom (x.span - 1)).reduced

def toPrecision (x : Binary64) (count : Nat) : Decimal :=
  let drop := x.span - count
  Decimal.reduced ⟨x.roundedAt drop, (drop : Int) - 1074⟩

end Binary64

end InlineCache
