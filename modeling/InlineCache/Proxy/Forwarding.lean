import InlineCache.Proxy.World

/-! Accesses through proxies.
A proxy without a trap for the operation passes it on to its target. The access
ends at the first trap, at an object that is no proxy, or at a proxy that is
unknown or revoked. -/

namespace InlineCache

inductive Landing (τ : Type) where
  | refused (s : Status)
  | trapped (trap : τ) (target : Handle)
  | object (target : Handle)
deriving DecidableEq

variable {τ ω : Type}

namespace Store

/-- Follows targets while `select` finds no trap, with the number of proxies
passed; the first number bounds the proxies visited. -/
def landFrom (s : Store τ) (select : Proxy τ → Option τ) : Nat → Handle → Option (Nat × Landing τ)
  | 0, _ => none
  | bound + 1, x =>
    match s.registry.open? x with
    | .error status => some (0, .refused status)
    | .ok p =>
      match select p with
      | some trap => some (0, .trapped trap p.target)
      | none =>
        if s.heap.isProxy p.target then
          (landFrom s select bound p.target).map fun l => (l.1 + 1, l.2)
        else some (1, .object p.target)

def land (s : Store τ) (select : Proxy τ → Option τ) (x : Handle) : Option (Nat × Landing τ) :=
  s.landFrom select (s.registry.records.length + 1) x

end Store

namespace Proxy

open Effect

def forward (select : Proxy τ → Option τ) (x : Handle) : Effect τ ω (Landing τ) := fun w =>
  (w.store.land select x).map fun l =>
    (l.2, { w with store := { w.store with registry := w.store.registry.countForwards l.1 } })

def callTrap (run : Handler τ ω) (call : TrapCall τ) : Effect τ ω TrapReply := do
  log call
  let reply ← run call
  onRegistry (·.countTrap reply.status)
  return reply

def settle (reply : TrapReply) (strict : Bool) : Effect τ ω Status := do
  if reply.status ≠ .ok then
    return reply.status
  else if reply.accepted then
    return .ok
  else
    onRegistry (·.countRejection)
    return if strict then .typeError else .ok

def invokeSet (run : Handler τ ω) (x receiver : Handle) (k : PropertyKey) (v : Value)
    (strict : Bool) : Effect τ ω Status := do
  match ← forward Proxy.set? x with
  | .refused status => return status
  | .trapped trap target =>
    let reply ← callTrap run (.set trap target receiver k v)
    settle reply strict
  | .object target => onHeap (·.setNamed target k v strict)

def invokeGet (run : Handler τ ω) (x receiver : Handle) (k : PropertyKey) :
    Effect τ ω (Status × Value) := do
  match ← forward Proxy.get? x with
  | .refused status => return (status, .undefined)
  | .trapped trap target =>
    let reply ← callTrap run (.get trap target receiver k)
    return (reply.status, reply.value)
  | .object target => onHeap (·.getNamed target k)

def invokeDefine (run : Handler τ ω) (x : Handle) (k : PropertyKey) (v : Value) :
    Effect τ ω Status := do
  match ← forward Proxy.define? x with
  | .refused status => return status
  | .trapped trap target =>
    let reply ← callTrap run (.define trap target k v)
    settle reply true
  | .object target => onHeap (·.defineOwn target k v)

end Proxy

end InlineCache
