import InlineCache.Value

/-! Property keys: names and symbols, with the hash that places them in a table. -/

namespace InlineCache

inductive PropertyKey where
  | name (s : Text)
  | symbol (id : UInt64)
deriving DecidableEq

namespace PropertyKey

def empty : PropertyKey := .name []

instance : Inhabited PropertyKey := ⟨empty⟩

def hashSeed : UInt64 := 1469598103934665603

def symbolSeed : UInt64 := hashSeed ^^^ 0x9e3779b97f4a7c15

def mixByte (acc : UInt64) (b : UInt8) : UInt64 := (acc ^^^ b.toUInt64) * 1099511628211

def symbolBytes (id : UInt64) : Text :=
  (List.range 8).map fun i => UInt8.ofNat (id.toNat >>> (8 * i))

def hash (k : PropertyKey) : UInt64 :=
  let acc := match k with
    | .name s => s.foldl mixByte hashSeed
    | .symbol id => (symbolBytes id).foldl mixByte symbolSeed
  if acc = 0 then hashSeed else acc

def toValue : PropertyKey → Value
  | .name s => .string s
  | .symbol id => .symbol id

def accepts (k : PropertyKey) (v : Value) : Bool := decide (v = k.toValue)

def text : PropertyKey → Text
  | .name s => "\"" ++ s ++ "\""
  | .symbol id => Text.tagged "symbol" id.toNat

end PropertyKey

end InlineCache
