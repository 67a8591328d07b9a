import InlineCache.Heap.Operation
import InlineCache.Proofs.Lookup
import Mathlib.Data.List.Nodup
import Mathlib.Data.PFun

/-! The heap without its storage.
A plain object keeps its names as a list in insertion order and its elements as a
map in index order, and both are searched from the front. Walks along prototypes
have no bound: an operation whose walk never ended would be undefined. -/

namespace InlineCache

@[ext]
structure NameList where
  entries : List (PropertyKey × Property) := []
  distinct : (entries.map (·.1)).Nodup := by exact List.nodup_nil

namespace NameList

def find? (l : NameList) (k : PropertyKey) : Option Property := l.entries.lookup k

def putEntry (k : PropertyKey) (p : Property) (l : List (PropertyKey × Property)) :
    List (PropertyKey × Property) :=
  if k ∈ l.map (·.1) then l.map fun e => if e.1 = k then (k, p) else e else l ++ [(k, p)]

theorem keys_putEntry (k : PropertyKey) (p : Property) (l : List (PropertyKey × Property)) :
    (putEntry k p l).map (·.1) =
      if k ∈ l.map (·.1) then l.map (·.1) else l.map (·.1) ++ [k] := by
  simp only [putEntry]
  split
  · rw [List.map_map]
    apply List.map_congr_left
    intro e _
    simp only [Function.comp]
    split
    · next he => exact he.symm
    · rfl
  · rw [List.map_append, List.map_singleton]

def put (l : NameList) (k : PropertyKey) (p : Property) : NameList where
  entries := putEntry k p l.entries
  distinct := by
    rw [keys_putEntry]
    split
    · exact l.distinct
    · next hk =>
      rw [← List.concat_eq_append]
      exact l.distinct.concat hk

def map (f : Property → Property) (l : NameList) : NameList where
  entries := l.entries.map fun e => (e.1, f e.2)
  distinct := by
    rw [List.map_map]
    exact l.distinct

end NameList

@[ext]
structure IndexMap where
  entries : List (Nat × Property) := []
  ascending : entries.Pairwise (·.1 < ·.1) := by exact List.Pairwise.nil

namespace IndexMap

def find? (m : IndexMap) (i : Nat) : Option Property := m.entries.lookup i

def put (m : IndexMap) (i : Nat) (p : Property) : IndexMap where
  entries := (m.entries.filter fun e => decide (e.1 < i)) ++
    (i, p) :: m.entries.filter fun e => decide (i < e.1)
  ascending := by
    rw [List.pairwise_append]
    refine ⟨m.ascending.filter _, List.pairwise_cons.2 ⟨?_, m.ascending.filter _⟩, ?_⟩
    · intro e he
      exact of_decide_eq_true (List.mem_filter.1 he).2
    · intro e he e' he'
      have hlt : e.1 < i := of_decide_eq_true (List.mem_filter.1 he).2
      rcases List.mem_cons.1 he' with rfl | he'
      · exact hlt
      · exact Nat.lt_trans hlt (of_decide_eq_true (List.mem_filter.1 he').2)

def map (f : Property → Property) (m : IndexMap) : IndexMap where
  entries := m.entries.map fun e => (e.1, f e.2)
  ascending := List.pairwise_map.2 m.ascending

def span (m : IndexMap) : Nat := m.entries.foldl (fun n e => max n (e.1 + 1)) 0

end IndexMap

structure PlainObject where
  kind : ObjectKind
  label : Text
  prototype : Handle
  extensible : Bool := true
  sealed : Bool := false
  frozen : Bool := false
  names : NameList := {}
  elements : IndexMap := {}

namespace PlainObject

def own? (o : PlainObject) : Place → Option Property
  | .element i => o.elements.find? i
  | .name k => o.names.find? k

def store (o : PlainObject) (p : Place) (d : Property) : PlainObject :=
  match p with
  | .element i => { o with elements := o.elements.put i d }
  | .name k => { o with names := o.names.put k d }

def refuse (o : PlainObject) (strict : Bool) : Status × PlainObject :=
  (if strict then .typeError else .ok, o)

def define (o : PlainObject) (p : Place) (d : Property) : Status × PlainObject :=
  let accepted := match o.own? p with
    | some q => q.permits d
    | none => o.extensible
  if accepted then (.ok, o.store p d) else o.refuse true

def assign (o : PlainObject) (p : Place) (v : Value) (strict : Bool)
    (inherited? : Option Property) : Status × PlainObject :=
  match o.own? p with
  | some q => if q.writable then (.ok, o.store p { q with value := v }) else o.refuse strict
  | none =>
    if inherited?.all (·.writable) && o.extensible then o.define p (.plain v)
    else o.refuse strict

def toSealed (o : PlainObject) : PlainObject :=
  { o with
    extensible := false, sealed := true
    names := o.names.map Property.sealed, elements := o.elements.map Property.sealed }

def toFrozen (o : PlainObject) : PlainObject :=
  { o with
    extensible := false, sealed := true, frozen := true
    names := o.names.map Property.frozen, elements := o.elements.map Property.frozen }

def enumerableKeys (o : PlainObject) : List PropertyKey :=
  (o.elements.entries.filterMap fun e =>
    if e.2.enumerable then some (.name (Text.decimal e.1)) else none) ++
  o.names.entries.filterMap fun e => if e.2.enumerable then some e.1 else none

end PlainObject

/-- Live objects by handle. A destroyed object leaves its slot number with the next
generation, and the one destroyed last is used first. -/
structure PlainHeap where
  find? : Handle → Option PlainObject := fun _ => none
  spare : List Handle := []
  opened : Nat := 0

namespace PlainHeap

def storage? (h : PlainHeap) (x : Handle) : Option PlainObject :=
  (h.find? x).filter fun o => decide (o.kind ≠ .proxy)

def search (h : PlainHeap) (p : Place) (x : Handle) : Option Property ⊕ Handle :=
  match h.storage? x with
  | none => .inl none
  | some o =>
    match o.own? p with
    | some q => .inl (some q)
    | none => .inr o.prototype

def nearest? (h : PlainHeap) (p : Place) : Handle →. Option Property :=
  PFun.fix fun x => Part.some (h.search p x)

/-- One step on the way from `y` to a dead handle or null, looking for `x`. A proxy is
passed, as it has a prototype. -/
def seek (h : PlainHeap) (x y : Handle) : Bool ⊕ Handle :=
  match h.find? y with
  | none => .inl false
  | some o => if y = x then .inl true else .inr o.prototype

def meets (h : PlainHeap) (x : Handle) : Handle →. Bool :=
  PFun.fix fun y => Part.some (h.seek x y)

section Walks

variable {h : PlainHeap} {p : Place} {x y z : Handle} {o : PlainObject} {q : Property}
  {r : Option Property} {b : Bool}

theorem nearest?_of_inl (hx : h.search p x = .inl r) : h.nearest? p x = Part.some r :=
  Part.eq_some_iff.2 (PFun.fix_stop (Part.mem_some_iff.2 hx.symm))

theorem nearest?_of_inr (hx : h.search p x = .inr y) : h.nearest? p x = h.nearest? p y :=
  PFun.fix_fwd_eq (Part.mem_some_iff.2 hx.symm)

theorem nearest?_of_none (hx : h.storage? x = none) : h.nearest? p x = Part.some none := by
  apply nearest?_of_inl
  simp only [search, hx]

theorem nearest?_of_own (hx : h.storage? x = some o) (ho : o.own? p = some q) :
    h.nearest? p x = Part.some (some q) := by
  apply nearest?_of_inl
  simp only [search, hx, ho]

theorem nearest?_of_not_own (hx : h.storage? x = some o) (ho : o.own? p = none) :
    h.nearest? p x = h.nearest? p o.prototype := by
  apply nearest?_of_inr
  simp only [search, hx, ho]

theorem meets_of_inl (hy : h.seek x y = .inl b) : h.meets x y = Part.some b :=
  Part.eq_some_iff.2 (PFun.fix_stop (Part.mem_some_iff.2 hy.symm))

theorem meets_of_inr (hy : h.seek x y = .inr z) : h.meets x y = h.meets x z :=
  PFun.fix_fwd_eq (Part.mem_some_iff.2 hy.symm)

theorem meets_of_none (hy : h.find? y = none) : h.meets x y = Part.some false := by
  apply meets_of_inl
  simp only [seek, hy]

theorem meets_self (hx : h.find? x = some o) : h.meets x x = Part.some true := by
  apply meets_of_inl
  simp only [seek, hx, if_true]

theorem meets_of_ne (hy : h.find? y = some o) (hne : y ≠ x) :
    h.meets x y = h.meets x o.prototype := by
  apply meets_of_inr
  simp only [seek, hy, if_neg hne]

end Walks

def update (h : PlainHeap) (x : Handle) (o : PlainObject) : PlainHeap :=
  { h with find? := fun y => if y = x then some o else h.find? y }

def occupy (h : PlainHeap) (o : PlainObject) : Handle × PlainHeap :=
  match h.spare with
  | x :: spare => (x, { h.update x o with spare })
  | [] =>
    let x : Handle := ⟨UInt32.ofNat h.opened, 1⟩
    (x, { h.update x o with opened := h.opened + 1 })

theorem find?_occupy (h : PlainHeap) (o : PlainObject) (y : Handle) :
    (h.occupy o).2.find? y = if y = (h.occupy o).1 then some o else h.find? y := by
  cases hspare : h.spare with
  | nil => simp only [occupy, hspare, update]
  | cons x spare => simp only [occupy, hspare, update]

def allocate (h : PlainHeap) (kind : ObjectKind) (label : Text) (prototype : Handle) :
    HeapAnswer × PlainHeap :=
  if prototype = .null ∨ (h.find? prototype).isSome then
    let (x, h') := h.occupy { kind, label, prototype }
    (.made .ok x, h')
  else (.made .invalidArgument .null, h)

def destroy (h : PlainHeap) (x : Handle) : HeapAnswer × PlainHeap :=
  match h.find? x with
  | none => (.status .notFound, h)
  | some _ =>
    (.status .ok, { h with
      find? := fun y => if y = x then none else h.find? y
      spare := ⟨x.slot, x.generation + 1⟩ :: h.spare })

def readAt (h : PlainHeap) (x : Handle) (p : Place) : Part (HeapAnswer × PlainHeap) :=
  match h.storage? x with
  | none => return (.value .invalidArgument .undefined, h)
  | some _ => do
    match ← h.nearest? p x with
    | some q => return (.value .ok q.value, h)
    | none => return (.value .notFound .undefined, h)

def defineAt (h : PlainHeap) (x : Handle) (p : Place) (d : Property) : HeapAnswer × PlainHeap :=
  match h.storage? x with
  | none => (.status .invalidArgument, h)
  | some o =>
    let (status, o') := o.define p d
    (.status status, h.update x o')

def assignAt (h : PlainHeap) (x : Handle) (p : Place) (v : Value) (strict : Bool) :
    Part (HeapAnswer × PlainHeap) :=
  match h.storage? x with
  | none => return (.status .invalidArgument, h)
  | some o => do
    let (status, o') := o.assign p v strict (← h.nearest? p o.prototype)
    return (.status status, h.update x o')

def setPrototype (h : PlainHeap) (x prototype : Handle) : Part (HeapAnswer × PlainHeap) :=
  match h.find? x with
  | none => return (.status .notFound, h)
  | some o =>
    if prototype ≠ .null ∧ (h.find? prototype).isNone then
      return (.status .invalidArgument, h)
    else if !o.extensible ∧ prototype ≠ o.prototype then return (.status .typeError, h)
    else do
      if ← h.meets x prototype then return (.status .invalidArgument, h)
      else return (.status .ok, h.update x { o with prototype })

def modify (h : PlainHeap) (x : Handle) (f : PlainObject → PlainObject) :
    HeapAnswer × PlainHeap :=
  match h.find? x with
  | none => (.status .notFound, h)
  | some o => (.status .ok, h.update x (f o))

def describeOwn (h : PlainHeap) (x : Handle) (p : Place) : HeapAnswer :=
  match h.find? x with
  | none => .property .invalidArgument {}
  | some o =>
    match o.own? p with
    | some q => .property .ok q
    | none => .property .notFound {}

def ownKeys (h : PlainHeap) (x : Handle) : HeapAnswer :=
  match h.find? x with
  | some o => .keys .ok o.enumerableKeys
  | none => .keys .invalidArgument []

def arrayLength (h : PlainHeap) (x : Handle) : HeapAnswer :=
  match h.find? x with
  | none => .length .notFound 0
  | some o => if o.kind = .array then .length .ok o.elements.span else .length .invalidArgument 0

def inspect (h : PlainHeap) (x : Handle) : ObjectView :=
  match h.find? x with
  | some o => {
      status := .ok, label := o.label, live := true, kind := o.kind
      isProxy := decide (o.kind = .proxy), prototype := o.prototype
      extensible := o.extensible, frozen := o.frozen }
  | none => {
      status := .notFound, label := [], live := false, kind := .ordinary
      isProxy := false, prototype := .null, extensible := false, frozen := false }

def perform (h : PlainHeap) : HeapOp → Part (HeapAnswer × PlainHeap)
  | .create label prototype => return (h.allocate .ordinary label prototype)
  | .createArray label prototype => return (h.allocate .array label prototype)
  | .createShell label => return (h.allocate .proxy label .null)
  | .destroy x => return (h.destroy x)
  | .define x k d => return (h.defineAt x k.place d)
  | .defineElement x i d =>
    if i ≤ maxIndex then return (h.defineAt x (.element i) d)
    else return (.status .invalidArgument, h)
  | .defineOwn x k v => return (h.defineAt x k.place (.plain v))
  | .setNamed x k v strict => h.assignAt x k.place v strict
  | .setIndexed x i v strict =>
    if i ≤ maxIndex then h.assignAt x (.element i) v strict
    else return (.status .invalidArgument, h)
  | .getNamed x k => h.readAt x k.place
  | .getIndexed x i => h.readAt x (.element i)
  | .setPrototype x prototype => h.setPrototype x prototype
  | .preventExtensions x => return (h.modify x fun o => { o with extensible := false })
  | .sealObject x => return (h.modify x fun o => if o.sealed then o else o.toSealed)
  | .freezeObject x => return (h.modify x fun o => if o.frozen then o else o.toFrozen)
  | .describeOwn x k => return (h.describeOwn x k.place, h)
  | .hasOwn x k => return (.flag ((h.find? x).any fun o => (o.own? k.place).isSome), h)
  | .ownKeys x => return (h.ownKeys x, h)
  | .arrayLength x => return (h.arrayLength x, h)
  | .inspect x => return (.object (h.inspect x), h)
  | .tally => return (.tally {}, h)

def run (h : PlainHeap) : List HeapOp → Part (List HeapAnswer × PlainHeap)
  | [] => return ([], h)
  | op :: rest => do
    let (a, h') ← h.perform op
    let (as, h'') ← run h' rest
    return (a :: as, h'')

end PlainHeap

end InlineCache
