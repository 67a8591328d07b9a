import InlineCache.Dispatch
import InlineCache.SiteTable

/-! Property access at call sites.
A site resolves the entry for an access and runs what that entry has
specialized. The entry is chosen before it runs, so a trap that comes back to
the site may rewrite its chain without changing the access under way. -/

namespace InlineCache

structure Surroundings (β : Type) where
  table : SiteTable := {}
  other : β
deriving DecidableEq

variable {τ ω β : Type}

namespace Entry

def set (run : Handler τ ω) (flags : Flags) (e : Entry) (target : Handle) (key v : Value)
    (receiver : Handle) : Effect τ ω Status :=
  match e with
  | .cachedName k => Dispatch.setName flags target k v
  | .indexFast | .indexGeneral => Dispatch.setIndex flags target (key.classify.index?.getD 0) v
  | .proxyTarget => Dispatch.setOnProxy run flags target key v receiver
  | .generic => Dispatch.set run flags target key v receiver

def get (run : Handler τ ω) (e : Entry) (target : Handle) (key : Value) (receiver : Handle)
    (held : Value) : Effect τ ω (Status × Value) :=
  match e with
  | .cachedName k => Dispatch.getName target k
  | .indexFast | .indexGeneral => Dispatch.getIndex target (key.classify.index?.getD 0)
  | .proxyTarget => Dispatch.getOnProxy run target key receiver held
  | .generic => Dispatch.get run target key receiver

end Entry

namespace Site

open Effect

def modify (name : Text) (f : Site → Site) : Effect τ (Surroundings β) Unit :=
  onOuter fun o => ((), { o with table := o.table.modify name f })

def choose (name : Text) (s : Site) (target : Handle) (key : Value) :
    Effect τ (Surroundings β) Entry := do
  let probe ← readStore (·.heap.probe target key)
  let (e, s') := s.resolve probe
  modify name fun _ => s'
  return e

def set (run : Handler τ (Surroundings β)) (name : Text) (target : Handle) (key v : Value)
    (receiver : Handle) : Effect τ (Surroundings β) (Except Status Status) := do
  match ← onOuter fun o => (o.table.typed? .write name, o) with
  | .error status => return .error status
  | .ok s =>
    if key.classify.needsCoercion then
      modify name Site.reject
      return .ok .invalidKey
    let e ← choose name s target key
    let status ← e.set run s.flags target key v (receiver.orElse target)
    modify name (·.complete status)
    return .ok status

def get (run : Handler τ (Surroundings β)) (name : Text) (target : Handle) (key : Value)
    (receiver : Handle) : Effect τ (Surroundings β) (Except Status (Status × Value)) := do
  match ← onOuter fun o => (o.table.typed? .read name, o) with
  | .error status => return .error status
  | .ok s =>
    if key.classify.needsCoercion then
      modify name Site.reject
      return .ok (.invalidKey, .undefined)
    let e ← choose name s target key
    let answer ← e.get run target key (receiver.orElse target) .undefined
    modify name (·.complete answer.1)
    return .ok answer

end Site

end InlineCache
