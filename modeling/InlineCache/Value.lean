import InlineCache.Handle
import InlineCache.Binary64.Numeral

/-! Values held by properties and used as raw keys.
Integers keep their width, so one mathematical number has up to three
representations; `sameValue` and `sameValueZero` look through them. -/

namespace InlineCache

inductive Value where
  | undefined
  | null
  | boolean (b : Bool)
  | int32 (n : Int32)
  | int64 (n : Int64)
  | number (x : Binary64)
  | bigint (id : UInt64)
  | string (s : Text)
  | symbol (id : UInt64)
  | object (h : Handle)
deriving DecidableEq

namespace Value

instance : Inhabited Value := ⟨.undefined⟩

def toInt? : Value → Option Int
  | .int32 n => some n.toInt
  | .int64 n => some n.toInt
  | _ => none

def isIntegral (v : Value) : Bool := v.toInt?.isSome

def isNumeric : Value → Bool
  | .number _ => true
  | v => v.isIntegral

def toNumber? : Value → Option Binary64
  | .number x => some x
  | .int32 n => some (.ofInt n.toInt)
  | .int64 n => some (.ofInt n.toInt)
  | .boolean b => some (if b then .one else .zero)
  | _ => none

def toInt64? : Value → Option Int64
  | .int64 n => some n
  | .int32 n => some n.toInt64
  | .number x => x.toInt64?
  | .boolean b => some (if b then 1 else 0)
  | _ => none

def toBoolean? : Value → Option Bool
  | .boolean b => some b
  | _ => none

def asString : Value → Text
  | .string s => s
  | _ => []

def asSymbol : Value → UInt64
  | .symbol id => id
  | _ => 0

def asHandle : Value → Handle
  | .object h => h
  | _ => .null

def equals : Value → Value → Bool
  | .number x, .number y => x.numEq y
  | v, w => decide (v = w)

/-- Compares numeric values by `onDoubles` unless both are integers, which
compare exactly, and other values by `equals`. -/
def compareWith (onDoubles : Binary64 → Binary64 → Bool) (v w : Value) : Bool :=
  if v.isNumeric && w.isNumeric then
    match v.toInt?, w.toInt? with
    | some m, some n => decide (m = n)
    | _, _ =>
      let x := v.toNumber?.getD .zero
      let y := w.toNumber?.getD .zero
      x.isNaN && y.isNaN || onDoubles x y
  else v.equals w

def sameValue : Value → Value → Bool :=
  compareWith fun x y => x.numEq y && decide (x.negative = y.negative)

def sameValueZero : Value → Value → Bool := compareWith Binary64.numEq

def text : Value → Text
  | .undefined => "undefined"
  | .null => "null"
  | .boolean b => if b then "true" else "false"
  | .int32 n => Text.signedDecimal n.toInt
  | .int64 n => Text.signedDecimal n.toInt
  | .number x => x.display
  | .string s => s
  | .bigint id => Text.tagged "bigint" id.toNat
  | .symbol id => Text.tagged "symbol" id.toNat
  | .object h => Text.tagged "handle" h.toNat

end Value

end InlineCache
