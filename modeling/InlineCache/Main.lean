import InlineCache.Demo

/-! Prints the demonstration. -/

def main : IO UInt32 := do
  let (code, output) := InlineCache.Demo.run
  IO.print output.toString
  return UInt32.ofNat code
