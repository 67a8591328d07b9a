import InlineCache.Heap.Access
import InlineCache.Proxy.Registry

/-! Effects on the store that may call traps.
A trap is outside code: it may act on the whole world before it replies, and it
may never reply. Each call is logged before the trap acts. -/

namespace InlineCache

inductive TrapCall (τ : Type) where
  | get (trap : τ) (target receiver : Handle) (key : PropertyKey)
  | set (trap : τ) (target receiver : Handle) (key : PropertyKey) (value : Value)
  | define (trap : τ) (target : Handle) (key : PropertyKey) (value : Value)
deriving DecidableEq

/-- What a trap replies. Only the call of a get trap takes the value and only
those of the others look whether the trap accepted. -/
structure TrapReply where
  status : Status
  value : Value := .undefined
  accepted : Bool := true
deriving DecidableEq

structure World (τ ω : Type) where
  store : Store τ := {}
  calls : List (TrapCall τ) := []
  outer : ω

/-- An effect gives its answer with the world it leaves, or never returns. -/
abbrev Effect (τ ω : Type) := StateT (World τ ω) Option

abbrev Handler (τ ω : Type) := TrapCall τ → Effect τ ω TrapReply

namespace Effect

variable {τ ω α : Type}

def onStore (f : Store τ → α × Store τ) : Effect τ ω α := fun w =>
  some ((f w.store).1, { w with store := (f w.store).2 })

def onHeap (f : Heap → α × Heap) : Effect τ ω α :=
  onStore fun s => ((f s.heap).1, { s with heap := (f s.heap).2 })

def onRegistry (f : Registry τ → Registry τ) : Effect τ ω Unit :=
  onStore fun s => ((), { s with registry := f s.registry })

def readStore (f : Store τ → α) : Effect τ ω α := onStore fun s => (f s, s)

def onOuter (f : ω → α × ω) : Effect τ ω α := fun w =>
  some ((f w.outer).1, { w with outer := (f w.outer).2 })

def log (call : TrapCall τ) : Effect τ ω Unit := fun w =>
  some ((), { w with calls := w.calls ++ [call] })

@[simp] theorem onStore_apply (f : Store τ → α × Store τ) (w : World τ ω) :
    onStore f w = some ((f w.store).1, { w with store := (f w.store).2 }) := rfl

@[simp] theorem onOuter_apply (f : ω → α × ω) (w : World τ ω) :
    onOuter f w = some ((f w.outer).1, { w with outer := (f w.outer).2 }) := rfl

@[simp] theorem log_apply (call : TrapCall τ) (w : World τ ω) :
    log call w = some ((), { w with calls := w.calls ++ [call] }) := rfl

end Effect

end InlineCache
