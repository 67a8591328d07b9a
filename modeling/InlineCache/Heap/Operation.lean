import InlineCache.Heap.Access
import InlineCache.Heap.Integrity

/-! The operations of the heap as data, so that a history is a list of them. -/

namespace InlineCache

inductive HeapOp where
  | create (label : Text) (prototype : Handle)
  | createArray (label : Text) (prototype : Handle)
  | createShell (label : Text)
  | destroy (x : Handle)
  | define (x : Handle) (k : PropertyKey) (d : Property)
  | defineElement (x : Handle) (i : Nat) (d : Property)
  | defineOwn (x : Handle) (k : PropertyKey) (v : Value)
  | setNamed (x : Handle) (k : PropertyKey) (v : Value) (strict : Bool)
  | setIndexed (x : Handle) (i : Nat) (v : Value) (strict : Bool)
  | getNamed (x : Handle) (k : PropertyKey)
  | getIndexed (x : Handle) (i : Nat)
  | setPrototype (x prototype : Handle)
  | preventExtensions (x : Handle)
  | sealObject (x : Handle)
  | freezeObject (x : Handle)
  | describeOwn (x : Handle) (k : PropertyKey)
  | hasOwn (x : Handle) (k : PropertyKey)
  | ownKeys (x : Handle)
  | arrayLength (x : Handle)
  | inspect (x : Handle)
  | tally

structure ObjectView where
  status : Status
  label : Text
  live : Bool
  kind : ObjectKind
  isProxy : Bool
  prototype : Handle
  extensible : Bool
  frozen : Bool
deriving DecidableEq

inductive HeapAnswer where
  | status (s : Status)
  | made (s : Status) (x : Handle)
  | value (s : Status) (v : Value)
  | property (s : Status) (p : Property)
  | keys (s : Status) (ks : List PropertyKey)
  | length (s : Status) (n : Nat)
  | flag (b : Bool)
  | object (o : ObjectView)
  | tally (t : HeapTally)
deriving DecidableEq

namespace Heap

def inspect (h : Heap) (x : Handle) : ObjectView where
  status := (h.label x).1
  label := (h.label x).2
  live := h.isLive x
  kind := h.kindOf x
  isProxy := h.isProxy x
  prototype := h.prototype x
  extensible := h.isExtensible x
  frozen := h.isFrozen x

def perform (h : Heap) : HeapOp → HeapAnswer × Heap
  | .create label prototype => (h.create label prototype).map (fun a => .made a.1 a.2) id
  | .createArray label prototype => (h.createArray label prototype).map (fun a => .made a.1 a.2) id
  | .createShell label => (h.createShell label).map (fun a => .made a.1 a.2) id
  | .destroy x => (h.destroy x).map .status id
  | .define x k d => (h.define x k d).map .status id
  | .defineElement x i d => (h.defineElement x i d).map .status id
  | .defineOwn x k v => (h.defineOwn x k v).map .status id
  | .setNamed x k v strict => (h.setNamed x k v strict).map .status id
  | .setIndexed x i v strict => (h.setIndexed x i v strict).map .status id
  | .getNamed x k => (h.getNamed x k).map (fun a => .value a.1 a.2) id
  | .getIndexed x i => (h.getIndexed x i).map (fun a => .value a.1 a.2) id
  | .setPrototype x prototype => (h.setPrototype x prototype).map .status id
  | .preventExtensions x => (h.preventExtensions x).map .status id
  | .sealObject x => (h.sealObject x).map .status id
  | .freezeObject x => (h.freezeObject x).map .status id
  | .describeOwn x k => (.property (h.describeOwn x k).1 (h.describeOwn x k).2, h)
  | .hasOwn x k => (.flag (h.hasOwn x k), h)
  | .ownKeys x => (.keys (h.ownKeys x).1 (h.ownKeys x).2, h)
  | .arrayLength x => (.length (h.arrayLength x).1 (h.arrayLength x).2, h)
  | .inspect x => (.object (h.inspect x), h)
  | .tally => (.tally h.tally, h)

def after (ops : List HeapOp) : Heap := ops.foldl (fun h op => (h.perform op).2) {}

end Heap

end InlineCache
