import InlineCache.PropertyKey

/-! How a raw key names a property.
An array index is a whole number up to `2 ^ 32 - 2`, given as an integer, as a
double or as its canonical decimal name. Every other key is a name, or would
have to be coerced first. -/

namespace InlineCache

def maxIndex : Nat := 4294967294

/-- The array index that a name spells: digits only, at most ten, and no zero in
front of another digit. -/
def Text.index? (s : Text) : Option Nat :=
  if s.isEmpty || 10 < s.length || 1 < s.length && s.head? == some 48 then none
  else s.digitsValue?.filter fun n => n ≤ maxIndex

structure KeyClass where
  index? : Option Nat := none
  nativeInteger : Bool := false
  propertyKey : Bool := false
  needsCoercion : Bool := false
deriving DecidableEq

def indexOfInt? (n : Int) : Option Nat := if 0 ≤ n ∧ n ≤ maxIndex then some n.toNat else none

def Binary64.index? (x : Binary64) : Option Nat :=
  if x.isIntegral then indexOfInt? x.truncated else none

namespace Value

def nativeIndex? (v : Value) : Option Nat := v.toInt?.bind indexOfInt?

def classify : Value → KeyClass
  | .int32 n => { index? := indexOfInt? n.toInt, nativeInteger := true }
  | .int64 n => { index? := indexOfInt? n.toInt, nativeInteger := true }
  | .number x => { index? := x.index? }
  | .string s => { index? := s.index?, propertyKey := true }
  | .symbol _ => { propertyKey := true }
  | .undefined | .null | .boolean _ => {}
  | .bigint _ | .object _ => { needsCoercion := true }

def propertyKey : Value → PropertyKey
  | .string s => .name s
  | .symbol id => .symbol id
  | .number x => .name (match x.index? with
    | some n => Text.decimal n
    | none => x.name)
  | .bigint _ | .object _ => .empty
  | v => .name v.text

theorem toValue_propertyKey {v : Value} (h : v.classify.propertyKey = true) :
    v.propertyKey.toValue = v := by
  cases v <;> simp_all [Value.classify, Value.propertyKey, PropertyKey.toValue]

end Value

end InlineCache
