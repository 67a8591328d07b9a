import InlineCache.Heap.Property

/-! Named properties of one object.
The entries stand in insertion order. Beside them an open-addressed table of
buckets finds the position of a key by linear probing from its home bucket, and
is rebuilt at twice the size once three fifths of it would be taken. -/

namespace InlineCache

structure NameTable where
  entries : Array (PropertyKey × Property)
  buckets : Array (Option Nat)
deriving DecidableEq

/-- Where a probe for a key ended: at its position, or at the bucket where it
would go. `collided` tells that the home bucket held another key. -/
structure Location where
  bucket : Nat
  position? : Option Nat
  collided : Bool
deriving DecidableEq

namespace NameTable

def initialBuckets : Nat := 8

def maxBuckets : Nat := 1073741824

def empty : NameTable := ⟨#[], Array.replicate initialBuckets none⟩

def home (count : Nat) (k : PropertyKey) : Nat := k.hash.toUInt32.toNat % count

def keyAt? (t : NameTable) (i : Nat) : Option PropertyKey := t.entries[i]?.map (·.1)

/-- Probes for a key, `step` buckets after `start`; the first number bounds the
probes that remain. -/
def locateFrom (t : NameTable) (k : PropertyKey) (start : Nat) : Nat → Nat → Location
  | 0, step => ⟨(start + step) % t.buckets.size, none, decide (step ≠ 0)⟩
  | left + 1, step =>
    let bucket := (start + step) % t.buckets.size
    match t.buckets[bucket]?.join with
    | none => ⟨bucket, none, decide (step ≠ 0)⟩
    | some i =>
      if t.keyAt? i = some k then ⟨bucket, some i, decide (step ≠ 0)⟩
      else locateFrom t k start left (step + 1)

def locate (t : NameTable) (k : PropertyKey) : Location :=
  t.locateFrom k (home t.buckets.size k) t.buckets.size 0

def propertyAt? (t : NameTable) (i : Nat) : Option Property := t.entries[i]?.map (·.2)

def lookup? (t : NameTable) (k : PropertyKey) : Option Property :=
  (t.locate k).position?.bind t.propertyAt?

/-- The first empty bucket, `step` after `start`. Where all are taken, as in a rebuild of
more than `maxBuckets` entries, the search would never end; here it gives up at `start`. -/
def vacancyFrom (buckets : Array (Option Nat)) (start : Nat) : Nat → Nat → Nat
  | 0, step => (start + step) % buckets.size
  | left + 1, step =>
    let bucket := (start + step) % buckets.size
    match buckets[bucket]?.join with
    | none => bucket
    | some _ => vacancyFrom buckets start left (step + 1)

def enter (buckets : Array (Option Nat)) (entry : (PropertyKey × Property) × Nat) :
    Array (Option Nat) :=
  let bucket := vacancyFrom buckets (home buckets.size entry.1.1) buckets.size 0
  buckets.setIfInBounds bucket (some entry.2)

def rebuild (t : NameTable) (count : Nat) : NameTable :=
  { t with buckets := t.entries.toList.zipIdx.foldl enter (Array.replicate count none) }

def crowded (t : NameTable) : Bool :=
  decide (max (t.buckets.size * 3 / 5) 1 < t.entries.size + 1)

def roomy (t : NameTable) : NameTable :=
  if t.crowded then t.rebuild (min (t.buckets.size * 2) maxBuckets) else t

def setAt (t : NameTable) (i : Nat) (p : Property) : NameTable :=
  { t with entries := t.entries.modify i fun e => (e.1, p) }

def insertAt (t : NameTable) (bucket : Nat) (k : PropertyKey) (p : Property) : NameTable where
  entries := t.entries.push (k, p)
  buckets := t.buckets.setIfInBounds bucket (some t.entries.size)

def map (f : Property → Property) (t : NameTable) : NameTable :=
  { t with entries := t.entries.map fun e => (e.1, f e.2) }

def toList (t : NameTable) : List (PropertyKey × Property) := t.entries.toList

end NameTable

end InlineCache
