import InlineCache.KeyClass

/-! Data properties and the places that hold them. -/

namespace InlineCache

structure Property where
  value : Value := .undefined
  writable : Bool := false
  enumerable : Bool := false
  configurable : Bool := false
deriving DecidableEq

namespace Property

def plain (v : Value) : Property := ⟨v, true, true, true⟩

/-- Whether `p` may be redefined as `d`. Unless configurable it keeps its
attributes, except that it may lose `writable`, and once that is lost its value
stays the same value. -/
def permits (p d : Property) : Bool :=
  p.configurable ||
    !d.configurable && decide (d.enumerable = p.enumerable) &&
      (p.writable || !d.writable && p.value.sameValue d.value)

def sealed (p : Property) : Property := { p with configurable := false }

def frozen (p : Property) : Property := { p with configurable := false, writable := false }

end Property

inductive Place where
  | element (i : Nat)
  | name (k : PropertyKey)
deriving DecidableEq

def PropertyKey.place (k : PropertyKey) : Place :=
  match k with
  | .name s =>
    match s.index? with
    | some i => .element i
    | none => .name k
  | .symbol _ => .name k

end InlineCache
