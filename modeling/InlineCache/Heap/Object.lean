import InlineCache.Status
import InlineCache.Heap.NameTable
import InlineCache.Heap.ElementStore

/-! One object and the writes that concern it alone.
A write returns the outcome, the object and the heap's counts it leaves; a
refused write may still have made room for the property it did not take. -/

namespace InlineCache

inductive ObjectKind where
  | ordinary
  | array
  | proxy
deriving DecidableEq

def ObjectKind.name : ObjectKind → Text
  | .ordinary => "Ordinary"
  | .array => "Array"
  | .proxy => "Proxy"

structure HeapTally where
  liveObjects : Nat := 0
  allocations : Nat := 0
  releases : Nat := 0
  propertyAdds : Nat := 0
  propertyUpdates : Nat := 0
  elementWrites : Nat := 0
  sparseElements : Nat := 0
  ownHits : Nat := 0
  prototypeHits : Nat := 0
  misses : Nat := 0
  rejectedWrites : Nat := 0
  rehashes : Nat := 0
  collisions : Nat := 0
  seals : Nat := 0
  freezes : Nat := 0
deriving DecidableEq

namespace HeapTally

def toList (t : HeapTally) : List Nat :=
  [t.liveObjects, t.allocations, t.releases, t.propertyAdds, t.propertyUpdates, t.elementWrites,
    t.sparseElements, t.ownHits, t.prototypeHits, t.misses, t.rejectedWrites, t.rehashes,
    t.collisions, t.seals, t.freezes]

end HeapTally

structure Object where
  kind : ObjectKind
  label : Text
  prototype : Handle
  extensible : Bool := true
  sealed : Bool := false
  frozen : Bool := false
  names : NameTable := .empty
  elements : ElementStore := {}
  /-- One past the highest element of an array, 0 for other kinds. -/
  length : Nat := 0
deriving DecidableEq

structure Written where
  status : Status
  object : Object
  tally : HeapTally
deriving DecidableEq

namespace Object

def own? (o : Object) : Place → Option Property
  | .element i => o.elements.lookup? i
  | .name k => o.names.lookup? k

def accepts (o : Object) (own? : Option Property) (d : Property) : Bool :=
  match own? with
  | some p => p.permits d
  | none => o.extensible

def refuse (o : Object) (t : HeapTally) (strict : Bool) : Written :=
  ⟨if strict then .typeError else .ok, o, { t with rejectedWrites := t.rejectedWrites + 1 }⟩

def countChange (t : HeapTally) (own? : Option Property) : HeapTally :=
  if own?.isSome then { t with propertyUpdates := t.propertyUpdates + 1 }
  else { t with propertyAdds := t.propertyAdds + 1 }

def defineName (o : Object) (t : HeapTally) (k : PropertyKey) (d : Property) : Written :=
  let names := o.names.roomy
  let found := names.locate k
  let own? := found.position?.bind names.propertyAt?
  let o' := { o with names }
  let t' := { t with
    rehashes := t.rehashes + o.names.crowded.toNat
    collisions := t.collisions + found.collided.toNat }
  if o.accepts own? d then
    let names' := match found.position? with
      | some i => names.setAt i d
      | none => names.insertAt found.bucket k d
    ⟨.ok, { o with names := names' }, countChange t' own?⟩
  else o'.refuse t' true

def defineElement (o : Object) (t : HeapTally) (i : Nat) (d : Property) : Written :=
  let own? := o.elements.lookup? i
  if o.accepts own? d then
    let elements := o.elements.settle i
    let length := if o.kind = .array then max o.length (i + 1) else o.length
    let t' := countChange t own?
    ⟨.ok, { o with elements := elements.put i d, length }, { t' with
      elementWrites := t'.elementWrites + 1
      sparseElements := t'.sparseElements + (elements.spills i).toNat }⟩
  else o.refuse t true

def define (o : Object) (t : HeapTally) (p : Place) (d : Property) : Written :=
  match p with
  | .element i => o.defineElement t i d
  | .name k => o.defineName t k d

def assignName (o : Object) (t : HeapTally) (k : PropertyKey) (p : Property) (v : Value) :
    Written :=
  let names := match (o.names.locate k).position? with
    | some i => o.names.setAt i { p with value := v }
    | none => o.names
  ⟨.ok, { o with names }, { t with propertyUpdates := t.propertyUpdates + 1 }⟩

/-- Assigns to a place. `inherited?` is the nearest property of that place among
the prototypes; when it is read-only no own property may hide it. A write to a
sparse element makes a dense cell for it first, even if the write is refused. -/
def assign (o : Object) (t : HeapTally) (p : Place) (v : Value) (strict : Bool)
    (inherited? : Option Property) : Written :=
  match o.own? p with
  | some q =>
    match p with
    | .element i =>
      let o' := { o with elements := o.elements.settle i }
      if q.writable then
        ⟨.ok, { o with elements := o'.elements.put i { q with value := v } },
          { t with elementWrites := t.elementWrites + 1 }⟩
      else o'.refuse t strict
    | .name k => if q.writable then o.assignName t k q v else o.refuse t strict
  | none =>
    if inherited?.all (·.writable) && o.extensible then o.define t p (.plain v)
    else o.refuse t strict

def toSealed (o : Object) : Object :=
  { o with
    extensible := false, sealed := true
    names := o.names.map Property.sealed, elements := o.elements.map Property.sealed }

def toFrozen (o : Object) : Object :=
  { o with
    extensible := false, sealed := true, frozen := true
    names := o.names.map Property.frozen, elements := o.elements.map Property.frozen }

def enumerableKeys (o : Object) : List PropertyKey :=
  (o.elements.toList.filterMap fun e =>
    if e.2.enumerable then some (.name (Text.decimal e.1)) else none) ++
  o.names.toList.filterMap fun e => if e.2.enumerable then some e.1 else none

end Object

end InlineCache
