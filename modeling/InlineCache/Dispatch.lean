import InlineCache.Config
import InlineCache.Proxy.Forwarding

/-! Property access without a cache.
Every access is derived from its raw key: the class of the key and the kind of
the target choose between elements, names and proxies. -/

namespace InlineCache

def missingAsUndefined (r : Status × Value) : Status × Value :=
  if r.1 = .notFound then (.ok, .undefined) else r

namespace Dispatch

open Effect

variable {τ ω : Type}

def setName (flags : Flags) (target : Handle) (k : PropertyKey) (v : Value) : Effect τ ω Status :=
  if flags.definitionOnly then onHeap (·.defineOwn target k v)
  else onHeap (·.setNamed target k v flags.strict)

def setIndex (flags : Flags) (target : Handle) (i : Nat) (v : Value) : Effect τ ω Status :=
  if flags.definitionOnly then onHeap (·.defineOwn target (.name (Text.decimal i)) v)
  else onHeap (·.setIndexed target i v flags.strict)

def setOnProxy (run : Handler τ ω) (flags : Flags) (proxy : Handle) (key v : Value)
    (receiver : Handle) : Effect τ ω Status :=
  if key.classify.needsCoercion then pure .invalidKey
  else if flags.definitionOnly then Proxy.invokeDefine run proxy key.propertyKey v
  else Proxy.invokeSet run proxy (receiver.orElse proxy) key.propertyKey v flags.strict

def set (run : Handler τ ω) (flags : Flags) (target : Handle) (key v : Value) (receiver : Handle) :
    Effect τ ω Status := do
  if key.classify.needsCoercion then
    return .invalidKey
  if ← readStore (·.heap.isProxy target) then
    setOnProxy run flags target key v receiver
  else
    match key.classify.index? with
    | some i => setIndex flags target i v
    | none => setName flags target key.propertyKey v

def getName (target : Handle) (k : PropertyKey) : Effect τ ω (Status × Value) := do
  return missingAsUndefined (← onHeap (·.getNamed target k))

def getIndex (target : Handle) (i : Nat) : Effect τ ω (Status × Value) := do
  return missingAsUndefined (← onHeap (·.getIndexed target i))

/-- A key that would have to be coerced leaves the value held so far. -/
def getOnProxy (run : Handler τ ω) (proxy : Handle) (key : Value) (receiver : Handle)
    (held : Value) : Effect τ ω (Status × Value) := do
  if key.classify.needsCoercion then
    return (.invalidKey, held)
  else
    return missingAsUndefined (← Proxy.invokeGet run proxy (receiver.orElse proxy) key.propertyKey)

def get (run : Handler τ ω) (target : Handle) (key : Value) (receiver : Handle) :
    Effect τ ω (Status × Value) := do
  if key.classify.needsCoercion then
    return (.invalidKey, .undefined)
  if ← readStore (·.heap.isProxy target) then
    getOnProxy run target key receiver .undefined
  else
    match key.classify.index? with
    | some i => getIndex target i
    | none => getName target key.propertyKey

end Dispatch

end InlineCache
