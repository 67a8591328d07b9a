import InlineCache.Heap.Object

/-! The object heap.
Objects live in numbered slots. Every operation takes the heap and returns its
answer with the heap it leaves; an operation on a handle that denotes no live
object answers with a failing status. -/

namespace InlineCache

structure Slot where
  generation : UInt32
  object? : Option Object
deriving DecidableEq

structure Heap where
  slots : Array Slot := #[]
  /-- Empty slots, the one to be used next first. -/
  free : List Nat := []
  tally : HeapTally := {}
deriving DecidableEq

namespace Heap

def find? (h : Heap) (x : Handle) : Option Object :=
  if x = .null then none
  else
    match h.slots[x.slot.toNat]? with
    | some s => if s.generation = x.generation then s.object? else none
    | none => none

def storage? (h : Heap) (x : Handle) : Option Object :=
  (h.find? x).filter fun o => decide (o.kind ≠ .proxy)

def isLive (h : Heap) (x : Handle) : Bool := (h.find? x).isSome

def update (h : Heap) (x : Handle) (o : Object) : Heap :=
  { h with slots := h.slots.modify x.slot.toNat fun s => { s with object? := some o } }

def leave (h : Heap) (x : Handle) (w : Written) : Status × Heap :=
  (w.status, { h.update x w.object with tally := w.tally })

def occupy (h : Heap) (o : Object) : Handle × Heap :=
  let tally := { h.tally with
    liveObjects := h.tally.liveObjects + 1
    allocations := h.tally.allocations + 1
    rehashes := h.tally.rehashes + 1 }
  match h.free with
  | i :: free =>
    let generation := (h.slots[i]?.elim 0 (·.generation)) + 1
    (⟨UInt32.ofNat i, generation⟩, ⟨h.slots.setIfInBounds i ⟨generation, some o⟩, free, tally⟩)
  | [] =>
    -- numbers of slots have 32 bits: behind the last of them, a slot in use is taken over
    let i := UInt32.ofNat h.slots.size
    let slots := h.slots.push ⟨1, some o⟩
    let generation := slots[i.toNat]?.elim 1 (·.generation)
    (⟨i, generation⟩, ⟨slots.modify i.toNat fun s => { s with object? := some o }, [], tally⟩)

def allocate (h : Heap) (kind : ObjectKind) (label : Text) (prototype : Handle) :
    (Status × Handle) × Heap :=
  if prototype = .null ∨ h.isLive prototype then
    let (x, h') := h.occupy { kind, label, prototype }
    ((.ok, x), h')
  else ((.invalidArgument, .null), h)

def create (h : Heap) (label : Text) (prototype : Handle) : (Status × Handle) × Heap :=
  h.allocate .ordinary label prototype

def createArray (h : Heap) (label : Text) (prototype : Handle) : (Status × Handle) × Heap :=
  h.allocate .array label prototype

def createShell (h : Heap) (label : Text) : (Status × Handle) × Heap :=
  h.allocate .proxy label .null

def destroy (h : Heap) (x : Handle) : Status × Heap :=
  match h.find? x with
  | none => (.notFound, h)
  | some _ =>
    let i := x.slot.toNat
    (.ok, {
      slots := h.slots.modify i fun s => { s with object? := none }
      free := i :: h.free
      tally := { h.tally with
        liveObjects := h.tally.liveObjects - 1, releases := h.tally.releases + 1 } })

def isProxy (h : Heap) (x : Handle) : Bool := (h.find? x).any fun o => decide (o.kind = .proxy)

def kindOf (h : Heap) (x : Handle) : ObjectKind := (h.find? x).elim .ordinary (·.kind)

def prototype (h : Heap) (x : Handle) : Handle := (h.find? x).elim .null (·.prototype)

def isExtensible (h : Heap) (x : Handle) : Bool := (h.find? x).any (·.extensible)

def isFrozen (h : Heap) (x : Handle) : Bool := (h.find? x).any (·.frozen)

def label (h : Heap) (x : Handle) : Status × Text :=
  match h.find? x with
  | some o => (.ok, o.label)
  | none => (.notFound, [])

def arrayLength (h : Heap) (x : Handle) : Status × Nat :=
  match h.find? x with
  | none => (.notFound, 0)
  | some o => if o.kind = .array then (.ok, o.length) else (.invalidArgument, 0)

theorem ne_null_of_find? {h : Heap} {x : Handle} {o : Object} (hx : h.find? x = some o) :
    x ≠ .null := by
  intro hn
  simp [find?, hn] at hx

theorem find?_update {h : Heap} {x : Handle} {o : Object} (hx : h.find? x = some o) (o' : Object)
    (y : Handle) : (h.update x o').find? y = if y = x then some o' else h.find? y := by
  have hn := ne_null_of_find? hx
  simp only [find?, if_neg hn] at hx
  by_cases hy : y = .null
  · subst hy
    simp [find?, hn.symm]
  · simp only [find?, if_neg hy, update, Array.getElem?_modify]
    by_cases hs : x.slot.toNat = y.slot.toNat
    · have hslot : x.slot = y.slot := UInt32.toNat_inj.1 hs
      rw [if_pos hs, ← hs]
      cases hc : h.slots[x.slot.toNat]? with
      | none => simp [hc] at hx
      | some c =>
        simp only [hc] at hx
        have hg : c.generation = x.generation := by
          by_cases hg : c.generation = x.generation
          · exact hg
          · simp [hg] at hx
        by_cases he : y = x
        · simp [he, hg]
        · have : c.generation ≠ y.generation := by
            intro hgy
            exact he (by cases x; cases y; simp_all)
          simp [he, this]
    · have he : y ≠ x := fun e => hs (by rw [e])
      simp [hs, he]

end Heap

end InlineCache
