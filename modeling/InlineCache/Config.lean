/-! Configuration of the cache and flags of a call site. -/

namespace InlineCache

/-- How call sites created from now on keep their chains. `preferNative` gives
integer keys an entry of their own; transitions are recorded when `tracing` is
on and `historySize` is not zero. -/
structure Config where
  maxDepth : UInt32 := 1
  preferNative : Bool := true
  tracing : Bool := false
  historySize : UInt32 := 64
deriving DecidableEq

structure Flags where
  strict : Bool := false
  definitionOnly : Bool := false
deriving DecidableEq

end InlineCache
