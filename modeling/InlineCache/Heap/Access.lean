import InlineCache.Heap.Basic

/-! Reading and writing properties.
A read walks the prototypes until one holds the place; the walk ends at a proxy,
at a dead handle or at null. A write changes the object itself only. -/

namespace InlineCache

namespace Heap

/-- The nearest property of a place from `x` along the prototypes; the number
bounds the objects visited. -/
def nearest? (h : Heap) (p : Place) : Nat → Handle → Option Property
  | 0, _ => none
  | bound + 1, x =>
    match h.storage? x with
    | none => none
    | some o =>
      match o.own? p with
      | some q => some q
      | none => nearest? h p bound o.prototype

def inherited? (h : Heap) (o : Object) (p : Place) : Option Property :=
  h.nearest? p h.slots.size o.prototype

def readAt (h : Heap) (x : Handle) (p : Place) : (Status × Value) × Heap :=
  let t := h.tally
  match h.storage? x with
  | none => ((.invalidArgument, .undefined), h)
  | some o =>
    match o.own? p with
    | some q => ((.ok, q.value), { h with tally := { t with ownHits := t.ownHits + 1 } })
    | none =>
      match h.inherited? o p with
      | some q =>
        ((.ok, q.value), { h with tally := { t with prototypeHits := t.prototypeHits + 1 } })
      | none => ((.notFound, .undefined), { h with tally := { t with misses := t.misses + 1 } })

def assignAt (h : Heap) (x : Handle) (p : Place) (v : Value) (strict : Bool) : Status × Heap :=
  match h.storage? x with
  | none => (.invalidArgument, h)
  | some o => h.leave x (o.assign h.tally p v strict (h.inherited? o p))

def defineAt (h : Heap) (x : Handle) (p : Place) (d : Property) : Status × Heap :=
  match h.storage? x with
  | none => (.invalidArgument, h)
  | some o => h.leave x (o.define h.tally p d)

def getNamed (h : Heap) (x : Handle) (k : PropertyKey) : (Status × Value) × Heap :=
  h.readAt x k.place

def getIndexed (h : Heap) (x : Handle) (i : Nat) : (Status × Value) × Heap :=
  h.readAt x (.element i)

def setNamed (h : Heap) (x : Handle) (k : PropertyKey) (v : Value) (strict : Bool) :
    Status × Heap :=
  h.assignAt x k.place v strict

def setIndexed (h : Heap) (x : Handle) (i : Nat) (v : Value) (strict : Bool) : Status × Heap :=
  if i ≤ maxIndex then h.assignAt x (.element i) v strict else (.invalidArgument, h)

def define (h : Heap) (x : Handle) (k : PropertyKey) (d : Property) : Status × Heap :=
  h.defineAt x k.place d

def defineElement (h : Heap) (x : Handle) (i : Nat) (d : Property) : Status × Heap :=
  if i ≤ maxIndex then h.defineAt x (.element i) d else (.invalidArgument, h)

def defineOwn (h : Heap) (x : Handle) (k : PropertyKey) (v : Value) : Status × Heap :=
  h.define x k (.plain v)

def describeOwn (h : Heap) (x : Handle) (k : PropertyKey) : Status × Property :=
  match h.find? x with
  | none => (.invalidArgument, {})
  | some o =>
    match o.own? k.place with
    | some p => (.ok, p)
    | none => (.notFound, {})

def hasOwn (h : Heap) (x : Handle) (k : PropertyKey) : Bool :=
  (h.find? x).any fun o => (o.own? k.place).isSome

def ownKeys (h : Heap) (x : Handle) : Status × List PropertyKey :=
  match h.find? x with
  | some o => (.ok, o.enumerableKeys)
  | none => (.invalidArgument, [])

end Heap

end InlineCache
