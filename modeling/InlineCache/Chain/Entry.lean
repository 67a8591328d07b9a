import InlineCache.Heap.Basic

/-! Entries of a call site's chain.
An entry serves the accesses its guard accepts. The guard looks at the raw key
and at whether the target is a proxy, nothing else. -/

namespace InlineCache

structure Probe where
  key : Value
  onProxy : Bool
deriving DecidableEq

inductive Entry where
  /-- One name or symbol, on an object that is no proxy. -/
  | cachedName (k : PropertyKey)
  /-- Array indices given as integers, on an object that is no proxy. -/
  | indexFast
  /-- Array indices in any spelling, on an object that is no proxy. -/
  | indexGeneral
  | proxyTarget
  | generic
deriving DecidableEq

inductive EntryKind where
  | cachedName
  | indexFast
  | indexGeneral
  | proxyTarget
  | generic
deriving DecidableEq

namespace EntryKind

def name : EntryKind → Text
  | .cachedName => "CachedName"
  | .indexFast => "ArrayIndexFast"
  | .indexGeneral => "ArrayIndexGeneral"
  | .proxyTarget => "ProxyTarget"
  | .generic => "Generic"

def all : List EntryKind := [.cachedName, .indexFast, .indexGeneral, .proxyTarget, .generic]

def nameOfCode (code : Int) : Text :=
  match all[(code % 256).toNat]? with
  | some k => k.name
  | none => "Unknown"

end EntryKind

def Heap.probe (h : Heap) (target : Handle) (key : Value) : Probe := ⟨key, h.isProxy target⟩

namespace Entry

def kind : Entry → EntryKind
  | .cachedName _ => .cachedName
  | .indexFast => .indexFast
  | .indexGeneral => .indexGeneral
  | .proxyTarget => .proxyTarget
  | .generic => .generic

def isGeneric (e : Entry) : Bool := decide (e = .generic)

def select (probe : Probe) (preferNative : Bool) : Entry :=
  let c := probe.key.classify
  if c.needsCoercion then .generic
  else if probe.onProxy then .proxyTarget
  else
    match c.index? with
    | some _ => if c.nativeInteger && preferNative then .indexFast else .indexGeneral
    | none => if c.propertyKey then .cachedName probe.key.propertyKey else .generic

def guard (e : Entry) (probe : Probe) : Bool :=
  let c := probe.key.classify
  match e with
  | .cachedName k => !probe.onProxy && k.accepts probe.key
  | .indexFast => !probe.onProxy && c.nativeInteger && c.index?.isSome
  | .indexGeneral => !probe.onProxy && c.index?.isSome
  | .proxyTarget => probe.onProxy
  | .generic => true

def supersedes (e other : Entry) : Bool :=
  match e with
  | .generic => true
  | .indexGeneral => decide (other = .indexFast)
  | _ => false

def boundKey : Entry → PropertyKey
  | .cachedName k => k
  | _ => .empty

def text (e : Entry) : Text :=
  match e with
  | .cachedName k => e.kind.name ++ "(" ++ k.text ++ ")"
  | _ => e.kind.name

theorem guard_select (probe : Probe) (preferNative : Bool) :
    (select probe preferNative).guard probe = true := by
  simp only [select]
  split
  · rfl
  · split
    · assumption
    · next hp =>
      cases hi : probe.key.classify.index? with
      | none =>
        cases hk : probe.key.classify.propertyKey with
        | false => rfl
        | true => simp [guard, hp, PropertyKey.accepts, Value.toValue_propertyKey hk]
      | some i =>
        cases hn : probe.key.classify.nativeInteger && preferNative <;> simp_all [guard]

end Entry

end InlineCache
