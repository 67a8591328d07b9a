import InlineCache.Heap.Basic

/-! Prototype links and integrity levels. -/

namespace InlineCache

namespace Heap

/-- Whether the prototype walk from `y` meets `x`; the number bounds the steps. -/
def reaches (h : Heap) (x : Handle) : Nat → Handle → Bool
  | 0, _ => false
  | bound + 1, y =>
    if y = .null then false
    else if y = x then true
    else
      match h.find? y with
      | none => false
      | some o => if o.prototype = y then false else reaches h x bound o.prototype

/-- Links an object to a prototype. A link that would close a cycle is refused,
and an object that is not extensible keeps the prototype it has. -/
def setPrototype (h : Heap) (x prototype : Handle) : Status × Heap :=
  match h.find? x with
  | none => (.notFound, h)
  | some o =>
    if prototype ≠ .null ∧ !h.isLive prototype then (.invalidArgument, h)
    else if !o.extensible ∧ prototype ≠ o.prototype then (.typeError, h)
    else if h.reaches x (h.slots.size + 1) prototype then (.invalidArgument, h)
    else (.ok, h.update x { o with prototype })

def preventExtensions (h : Heap) (x : Handle) : Status × Heap :=
  match h.find? x with
  | none => (.notFound, h)
  | some o => (.ok, h.update x { o with extensible := false })

def sealObject (h : Heap) (x : Handle) : Status × Heap :=
  match h.find? x with
  | none => (.notFound, h)
  | some o =>
    let t := h.tally
    if o.sealed then (.ok, h)
    else (.ok, { h.update x o.toSealed with tally := { t with seals := t.seals + 1 } })

def freezeObject (h : Heap) (x : Handle) : Status × Heap :=
  match h.find? x with
  | none => (.notFound, h)
  | some o =>
    let t := h.tally
    if o.frozen then (.ok, h)
    else (.ok, { h.update x o.toFrozen with tally := { t with freezes := t.freezes + 1 } })

end Heap

end InlineCache
