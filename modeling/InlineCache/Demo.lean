import InlineCache.Execute

/-! A demonstration: four writes at one site, its transitions and its counts. -/

namespace InlineCache

namespace Demo

open Effect

abbrev Act := Effect Empty (Surroundings Unit)

def noTraps : Handler Empty (Surroundings Unit) := fun _ _ => none

def siteName : Text := "demo.set"

def keys : List Value := [.string "x", .string "x", .int32 0, .string "y"]

def site : Act (Option Site) := onOuter fun o => (o.table.find? siteName, o)

def line (parts : List Text) : Text := parts.flatten ++ "\n"

def write (target : Handle) (key : Value) : Act Text := do
  let answer ← Site.set noTraps siteName target key (.int32 7) .null
  let status := match answer with
    | .ok status | .error status => status
  let chain := (← site).elim [] fun s => s.chain.head.text
  return line ["set [", key.text, "] -> ", status.name, " chain: ", chain]

def transition (t : Transition) : Text :=
  line ["  v", Text.decimal t.version, " ", t.outcome.name, " at access ", Text.decimal t.access,
    ": ", t.chain]

def counts (t : SiteTally) : Text :=
  line ["accesses: ", Text.decimal t.accesses, " hits: ", Text.decimal t.hits,
    " collapses: ", Text.decimal t.collapses]

def session : Act (Nat × Text) := do
  let (made, target) ← onHeap (·.createArray "demo.object" .null)
  if made ≠ .ok then
    return (1, line ["Object creation failed"])
  let opened ← onOuter fun o =>
    let (status, table) := o.table.create .write siteName { strict := true } .unknown
    (status, { o with table })
  if opened ≠ .ok then
    return (1, line ["Site creation failed"])
  let writes ← keys.mapM (write target)
  match ← site with
  | none => return (1, line ["Site creation failed"])
  | some s => return (0, writes.flatten ++ (s.history.map transition).flatten ++ counts s.tally)

def start : World Empty (Surroundings Unit) where
  outer := { table := { config := { tracing := true } }, other := () }

def run : Nat × Text :=
  match session start with
  | some (r, _) => r
  | none => (1, [])

end Demo

end InlineCache
