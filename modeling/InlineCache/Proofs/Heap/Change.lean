import InlineCache.Heap.Operation
import InlineCache.Proofs.CanonicalIndex

/-! The steps of the heap. Whatever the operation, it edits what is there, by counting
or by a change of one object, or it opens or closes a slot. -/

namespace InlineCache

def HeapTally.census (t : HeapTally) : Nat × Nat × Nat :=
  (t.liveObjects, t.allocations, t.releases)

namespace Object

inductive Step (o : Object) : Object → Prop
  | defined (t : HeapTally) (p : Place) (d : Property) (hp : p.Proper) :
      Step o (o.define t p d).object
  | assigned (t : HeapTally) (p : Place) (v : Value) (strict : Bool)
      (inherited? : Option Property) (hp : p.Proper) :
      Step o (o.assign t p v strict inherited?).object
  | linked (p : Handle) (hp : o.extensible = true ∨ p = o.prototype) :
      Step o { o with prototype := p }
  | closed : Step o { o with extensible := false }
  | sealed : Step o o.toSealed
  | frozen : Step o o.toFrozen

def frame (o : Object) : Object := { o with names := .empty, elements := {}, length := 0 }

variable (o : Object) (t : HeapTally)

theorem countChange_census (own? : Option Property) :
    (countChange t own?).census = t.census := by
  simp only [countChange]
  split <;> rfl

theorem define_frame (p : Place) (d : Property) : (o.define t p d).object.frame = o.frame := by
  cases p with
  | element i =>
    simp only [define, defineElement]
    split <;> rfl
  | name k =>
    simp only [define, defineName]
    split <;> rfl

theorem define_prototype (p : Place) (d : Property) :
    (o.define t p d).object.prototype = o.prototype := by
  have hp := congrArg Object.prototype (o.define_frame t p d)
  exact hp

theorem define_census (p : Place) (d : Property) :
    (o.define t p d).tally.census = t.census := by
  cases p with
  | element i =>
    simp only [define, defineElement]
    split
    · exact countChange_census t _
    · rfl
  | name k =>
    simp only [define, defineName]
    split
    · exact countChange_census _ _
    · rfl

theorem assign_frame (p : Place) (v : Value) (strict : Bool) (inherited? : Option Property) :
    (o.assign t p v strict inherited?).object.frame = o.frame := by
  simp only [assign]
  cases o.own? p with
  | none =>
    simp only
    split
    · exact o.define_frame t p _
    · rfl
  | some q =>
    cases p with
    | element i =>
      simp only
      split <;> rfl
    | name k =>
      simp only
      split <;> rfl

theorem assign_prototype (p : Place) (v : Value) (strict : Bool) (inherited? : Option Property) :
    (o.assign t p v strict inherited?).object.prototype = o.prototype := by
  have hp := congrArg Object.prototype (o.assign_frame t p v strict inherited?)
  exact hp

theorem assign_census (p : Place) (v : Value) (strict : Bool) (inherited? : Option Property) :
    (o.assign t p v strict inherited?).tally.census = t.census := by
  simp only [assign]
  cases o.own? p with
  | none =>
    simp only
    split
    · exact o.define_census t p _
    · rfl
  | some q =>
    cases p with
    | element i =>
      simp only
      split <;> rfl
    | name k =>
      simp only
      split <;> rfl

theorem Step.kind_eq {o o' : Object} (hs : o.Step o') : o'.kind = o.kind := by
  cases hs with
  | defined t p d =>
    have hk := congrArg Object.kind (o.define_frame t p d)
    exact hk
  | assigned t p v strict inherited? =>
    have hk := congrArg Object.kind (o.assign_frame t p v strict inherited?)
    exact hk
  | linked | closed | sealed | frozen => rfl

end Object

namespace Heap

variable {h h' : Heap} {x y : Handle} {o o' : Object} {k : PropertyKey} {q : Property}

theorem find?_eq_some :
    h.find? x = some o ↔
      x ≠ .null ∧ h.slots[x.slot.toNat]? = some ⟨x.generation, some o⟩ := by
  simp only [find?]
  by_cases hn : x = .null
  · simp [hn]
  · rw [if_neg hn]
    cases hs : h.slots[x.slot.toNat]? with
    | none => simp
    | some s =>
      obtain ⟨g, o?⟩ := s
      by_cases hg : g = x.generation
      · simp [hg, hn]
      · simp [hg]

theorem storage?_eq_some :
    h.storage? x = some o ↔ h.find? x = some o ∧ o.kind ≠ .proxy := by
  simp [storage?, Option.filter_eq_some_iff]

theorem isLive_iff : h.isLive x ↔ ∃ o, h.find? x = some o := by
  simp [isLive, Option.isSome_iff_exists]

theorem not_isLive_iff : h.isLive x = false ↔ h.find? x = none := by
  simp [isLive]

theorem isProxy_of_storage? (hx : h.storage? x = some o) : h.isProxy x = false := by
  obtain ⟨hfind, hkind⟩ := storage?_eq_some.1 hx
  simp [isProxy, hfind, hkind]

theorem find?_leave (hx : h.find? x = some o) (w : Written) (y : Handle) :
    (h.leave x w).2.find? y = if y = x then some w.object else h.find? y :=
  find?_update hx w.object y

theorem defineAt_of_storage? (hx : h.storage? x = some o) (p : Place) (d : Property) :
    h.defineAt x p d = h.leave x (o.define h.tally p d) := by
  simp only [defineAt, hx]

theorem assignAt_of_storage? (hx : h.storage? x = some o) (p : Place) (v : Value)
    (strict : Bool) :
    h.assignAt x p v strict = h.leave x (o.assign h.tally p v strict (h.inherited? o p)) := by
  simp only [assignAt, hx]

@[simp]
theorem find?_tally (t : HeapTally) : ({ h with tally := t } : Heap).find? x = h.find? x := rfl

theorem find?_null : h.find? .null = none := by
  simp [find?]

theorem describeOwn_ok_iff :
    h.describeOwn x k = (.ok, q) ↔ ∃ o, h.find? x = some o ∧ o.own? k.place = some q := by
  simp only [describeOwn]
  cases h.find? x with
  | none => simp
  | some o =>
    simp only [Option.some.injEq, exists_eq_left']
    cases o.own? k.place <;> simp

theorem hasOwn_eq_false_iff (hx : h.find? x = some o) :
    h.hasOwn x k = false ↔ o.own? k.place = none := by
  simp only [hasOwn, hx, Option.any_some, Option.isSome_eq_false_iff, Option.isNone_iff_eq_none]

theorem describeOwn_congr {h' : Heap} {o' : Object} (hx : h.find? x = some o)
    (hx' : h'.find? x = some o') (hown : o'.own? k.place = o.own? k.place) :
    h'.describeOwn x k = h.describeOwn x k := by
  simp only [describeOwn, hx, hx', hown]

/-- A step that opens and closes no slot: counting, a change of one object that keeps its
link, or a new link that closes no cycle. -/
inductive Edit (h : Heap) : Heap → Prop
  | counted (t : HeapTally) (ht : t.census = h.tally.census) : Edit h { h with tally := t }
  | stored (x : Handle) (o o' : Object) (t : HeapTally) (hx : h.find? x = some o)
      (ho : o.Step o') (hp : o'.prototype = o.prototype) (ht : t.census = h.tally.census) :
      Edit h { h.update x o' with tally := t }
  | linked (x : Handle) (o : Object) (p : Handle) (hx : h.find? x = some o)
      (ho : o.extensible = true ∨ p = o.prototype) (hp : p = .null ∨ h.isLive p)
      (hr : h.reaches x (h.slots.size + 1) p = false) :
      Edit h (h.update x { o with prototype := p })

inductive Change (h : Heap) : Heap → Prop
  | edit {h' : Heap} (he : Edit h h') : Change h h'
  | opened (kind : ObjectKind) (label : Text) (prototype : Handle)
      (hp : prototype = .null ∨ h.isLive prototype) :
      Change h (h.occupy { kind, label, prototype }).2
  | closed (x : Handle) (o : Object) (hx : h.find? x = some o) : Change h (h.destroy x).2

theorem Edit.refl (h : Heap) : Edit h h := .counted h.tally rfl

theorem allocate_change (h : Heap) (kind : ObjectKind) (label : Text) (prototype : Handle) :
    Change h (h.allocate kind label prototype).2 := by
  simp only [allocate]
  split
  · next hp => exact .opened kind label prototype hp
  · exact .edit (.refl h)

theorem destroy_change (h : Heap) (x : Handle) : Change h (h.destroy x).2 := by
  cases hx : h.find? x with
  | none =>
    simp only [destroy, hx]
    exact .edit (.refl h)
  | some o => exact .closed x o hx

theorem readAt_edit (h : Heap) (x : Handle) (p : Place) : Edit h (h.readAt x p).2 := by
  simp only [readAt]
  cases h.storage? x with
  | none => exact .refl h
  | some o =>
    simp only
    cases o.own? p with
    | some q => exact .counted _ rfl
    | none =>
      simp only
      cases h.inherited? o p with
      | some q => exact .counted _ rfl
      | none => exact .counted _ rfl

theorem defineAt_edit (h : Heap) (x : Handle) {p : Place} (hp : p.Proper) (d : Property) :
    Edit h (h.defineAt x p d).2 := by
  simp only [defineAt]
  cases hx : h.storage? x with
  | none => exact .refl h
  | some o =>
    exact .stored x o _ _ (storage?_eq_some.1 hx).1 (.defined _ p d hp) (o.define_prototype _ p d)
      (o.define_census _ p d)

theorem assignAt_edit (h : Heap) (x : Handle) {p : Place} (hp : p.Proper) (v : Value)
    (strict : Bool) : Edit h (h.assignAt x p v strict).2 := by
  simp only [assignAt]
  cases hx : h.storage? x with
  | none => exact .refl h
  | some o =>
    exact .stored x o _ _ (storage?_eq_some.1 hx).1 (.assigned _ p v strict _ hp)
      (o.assign_prototype _ p v strict _) (o.assign_census _ p v strict _)

theorem setPrototype_edit (h : Heap) (x p : Handle) : Edit h (h.setPrototype x p).2 := by
  simp only [setPrototype]
  cases hx : h.find? x with
  | none => exact .refl h
  | some o =>
    simp only
    split
    · exact .refl h
    · next hp =>
      split
      · exact .refl h
      · next ho =>
        split
        · exact .refl h
        · next hr =>
          refine .linked x o p hx ?_ ?_ (eq_false_of_ne_true hr)
          · by_cases hext : o.extensible = true
            · exact .inl hext
            · exact .inr (by simpa [hext] using ho)
          · by_cases hn : p = .null
            · exact .inl hn
            · exact .inr (by simpa [hn] using hp)

theorem preventExtensions_edit (h : Heap) (x : Handle) : Edit h (h.preventExtensions x).2 := by
  simp only [preventExtensions]
  cases hx : h.find? x with
  | none => exact .refl h
  | some o => exact .stored x o _ h.tally hx .closed rfl rfl

theorem sealObject_edit (h : Heap) (x : Handle) : Edit h (h.sealObject x).2 := by
  simp only [sealObject]
  cases hx : h.find? x with
  | none => exact .refl h
  | some o =>
    simp only
    split
    · exact .refl h
    · exact .stored x o _ _ hx .sealed rfl rfl

theorem freezeObject_edit (h : Heap) (x : Handle) : Edit h (h.freezeObject x).2 := by
  simp only [freezeObject]
  cases hx : h.find? x with
  | none => exact .refl h
  | some o =>
    simp only
    split
    · exact .refl h
    · exact .stored x o _ _ hx .frozen rfl rfl

end Heap

def HeapOp.edits : HeapOp → Bool
  | .create .. | .createArray .. | .createShell .. | .destroy .. => false
  | _ => true

namespace Heap

theorem perform_edit (h : Heap) (op : HeapOp) (hop : op.edits = true) :
    Edit h (h.perform op).2 := by
  cases op with
  | create | createArray | createShell | destroy => cases hop
  | define x k d => exact h.defineAt_edit x k.place_proper d
  | defineElement x i d =>
    simp only [perform, defineElement, Prod.map, id]
    split
    · next hi => exact h.defineAt_edit x (p := .element i) hi d
    · exact .refl h
  | defineOwn x k v => exact h.defineAt_edit x k.place_proper _
  | setNamed x k v strict => exact h.assignAt_edit x k.place_proper v strict
  | setIndexed x i v strict =>
    simp only [perform, setIndexed, Prod.map, id]
    split
    · next hi => exact h.assignAt_edit x (p := .element i) hi v strict
    · exact .refl h
  | getNamed x k => exact h.readAt_edit x _
  | getIndexed x i => exact h.readAt_edit x _
  | setPrototype x p => exact h.setPrototype_edit x p
  | preventExtensions x => exact h.preventExtensions_edit x
  | sealObject x => exact h.sealObject_edit x
  | freezeObject x => exact h.freezeObject_edit x
  | _ => exact .refl h

theorem perform_cases (h : Heap) (op : HeapOp) :
    op.edits = true ∨
      (∃ kind label prototype, (∀ x, op ≠ .destroy x) ∧
        h.perform op =
          (h.allocate kind label prototype).map (fun a => .made a.1 a.2) id) ∨
      ∃ x, op = .destroy x := by
  cases op with
  | create label prototype => exact .inr (.inl ⟨.ordinary, label, prototype, nofun, rfl⟩)
  | createArray label prototype => exact .inr (.inl ⟨.array, label, prototype, nofun, rfl⟩)
  | createShell label => exact .inr (.inl ⟨.proxy, label, .null, nofun, rfl⟩)
  | destroy x => exact .inr (.inr ⟨x, rfl⟩)
  | _ => exact .inl rfl

theorem perform_change (h : Heap) (op : HeapOp) : Change h (h.perform op).2 := by
  rcases h.perform_cases op with hop | ⟨kind, label, prototype, -, hop⟩ | ⟨x, rfl⟩
  · exact .edit (h.perform_edit op hop)
  · rw [hop]
    exact h.allocate_change kind label prototype
  · exact h.destroy_change x

end Heap

end InlineCache
