import InlineCache.Binary64.Decimal

/-! Written numbers.
A style says where positional writing ends and how exponents, zeros and the
values outside the reals are written. Property names and displayed values each
have one. -/

namespace InlineCache

structure NumeralStyle where
  least : Int
  most : Int
  exponentWidth : Nat
  infinity : Text
  nan : Text
  /-- Whether zero and `NaN` show their sign. -/
  signsAll : Bool

namespace NumeralStyle

def positional (digits : Text) (point : Int) : Text :=
  let k := digits.length
  if (k : Int) ≤ point then digits ++ Text.zeros (point - k).toNat
  else if 0 < point then digits.take point.toNat ++ "." ++ digits.drop point.toNat
  else "0." ++ Text.zeros (-point).toNat ++ digits

def scientific (digits : Text) (e : Int) (width : Nat) : Text :=
  let magnitude := Text.decimal e.natAbs
  let exponent := Text.zeros (width - magnitude.length) ++ magnitude
  let tail : Text := if 1 < digits.length then "." ++ digits.drop 1 else []
  digits.take 1 ++ tail ++ "e" ++ (if e < 0 then "-" else "+") ++ exponent

def magnitude (s : NumeralStyle) (d : Decimal) : Text :=
  if s.least ≤ d.scale ∧ d.scale ≤ s.most then positional d.digits (d.scale + 1)
  else scientific d.digits d.scale s.exponentWidth

def write (s : NumeralStyle) (x : Binary64) (d : Decimal) : Text :=
  let sign : Text := if x.negative then "-" else []
  let shown : Text := if s.signsAll then sign else []
  if x.isNaN then shown ++ s.nan
  else if x.isZero then shown ++ "0"
  else if !x.isFinite then sign ++ s.infinity
  else sign ++ s.magnitude d

end NumeralStyle

namespace Binary64

/-- Property names: positional below `10 ^ 21` and down to `10 ^ -6`. -/
def nameStyle : NumeralStyle where
  least := -6
  most := 20
  exponentWidth := 1
  infinity := "Infinity"
  nan := "NaN"
  signsAll := false

def displayStyle : NumeralStyle where
  least := -4
  most := 16
  exponentWidth := 2
  infinity := "inf"
  nan := "nan"
  signsAll := true

def name (x : Binary64) : Text := nameStyle.write x x.shortest

def display (x : Binary64) : Text := displayStyle.write x (x.toPrecision 17)

end Binary64

end InlineCache
