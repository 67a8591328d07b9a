/-! Object identities. -/

namespace InlineCache

/-- A slot of the heap together with the generation that occupied it. A slot is
used again under a later generation, so an old handle does not denote the new
occupant. -/
structure Handle where
  slot : UInt32
  generation : UInt32
deriving DecidableEq

namespace Handle

def null : Handle := ⟨0, 0⟩

def toNat (h : Handle) : Nat := h.generation.toNat * 4294967296 + h.slot.toNat

def ofNat (n : Nat) : Handle := ⟨UInt32.ofNat n, UInt32.ofNat (n / 4294967296)⟩

def orElse (h other : Handle) : Handle := if h = null then other else h

end Handle

end InlineCache
