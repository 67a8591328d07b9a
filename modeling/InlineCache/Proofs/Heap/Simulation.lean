import InlineCache.Proofs.Heap.Ancestry
import InlineCache.Proofs.Heap.Layout

/-! The storage of the heap goes unseen.
A heap and a plain heap that show the same objects under the same handles answer
every operation alike and show the same objects after it. -/

namespace InlineCache

def HeapAnswer.plain : HeapAnswer → HeapAnswer
  | .tally _ => .tally {}
  | a => a

namespace Heap

def recycled (h : Heap) (i : Nat) : Handle :=
  ⟨UInt32.ofNat i, (h.slots[i]?.elim 0 (·.generation)) + 1⟩

structure Shows (h : Heap) (p : PlainHeap) : Prop where
  objects : ∀ x, Option.Rel Object.Shows (h.find? x) (p.find? x)
  opened : p.opened = h.slots.size
  spare : p.spare = h.free.map h.recycled

def Agrees (r : HeapAnswer × Heap) (r' : HeapAnswer × PlainHeap) : Prop :=
  r'.1 = r.1.plain ∧ r.2.Shows r'.2

/-- A heap within the limits of the storage: fewer objects made than handles can name,
and no more names in an object than its buckets take. -/
def Bounded (h : Heap) : Prop :=
  h.tally.allocations < handleLimit ∧
    ∀ s ∈ h.slots.toList, ∀ o ∈ s.object?, o.names.entries.size ≤ NameTable.nameLimit

instance (h : Heap) : Decidable h.Bounded := inferInstanceAs (Decidable (_ ∧ _))

variable {h h' : Heap} {p : PlainHeap} {x y : Handle} {o o' : Object} {q q' : PlainObject}
  {n b : Nat}

theorem Bounded.names_le (hb : h.Bounded) (hx : h.find? x = some o) :
    o.names.entries.size ≤ NameTable.nameLimit := by
  have hslot := (find?_eq_some.1 hx).2
  rw [← Array.getElem?_toList] at hslot
  exact hb.2 _ (List.mem_of_getElem? hslot) o rfl

theorem shows_empty : ({} : Heap).Shows {} where
  objects x := by rw [find?_empty]; exact .none
  opened := rfl
  spare := rfl

namespace Shows

theorem find_cases (hs : h.Shows p) (x : Handle) :
    (h.find? x = none ∧ p.find? x = none) ∨
      ∃ o q, h.find? x = some o ∧ p.find? x = some q ∧ o.Shows q := by
  have hx := hs.objects x
  generalize h.find? x = a, p.find? x = a' at hx
  cases hx with
  | none => exact .inl ⟨rfl, rfl⟩
  | some hq => exact .inr ⟨_, _, rfl, rfl, hq⟩

theorem storage_cases (hs : h.Shows p) (x : Handle) :
    (h.storage? x = none ∧ p.storage? x = none) ∨
      ∃ o q, h.storage? x = some o ∧ p.storage? x = some q ∧
        h.find? x = some o ∧ p.find? x = some q ∧ o.Shows q := by
  simp only [storage?, PlainHeap.storage?]
  rcases hs.find_cases x with ⟨hx, hx'⟩ | ⟨o, q, hx, hx', hq⟩
  · exact .inl ⟨by rw [hx]; rfl, by rw [hx']; rfl⟩
  · by_cases hk : o.kind = .proxy
    · refine .inl ⟨?_, ?_⟩
      · simp [hx, hk]
      · simp [hx', hq.kind, hk]
    · refine .inr ⟨o, q, ?_, ?_, hx, hx', hq⟩
      · simp [hx, hk]
      · simp [hx', hq.kind, hk]

theorem isSome_eq (hs : h.Shows p) (x : Handle) : (p.find? x).isSome = h.isLive x := by
  simp only [isLive]
  rcases hs.find_cases x with ⟨hx, hx'⟩ | ⟨o, q, hx, hx', -⟩
  · rw [hx, hx']
    rfl
  · rw [hx, hx']
    rfl

theorem nearest?_eq (hs : h.Shows p) (hd : h.Depth x n) (pl : Place) (hb : n ≤ b) :
    p.nearest? pl x = Part.some (h.nearest? pl b x) := by
  rw [hd.nearest?_eq pl hb]
  clear hb
  induction hd with
  | @ended x hx =>
    rcases hs.storage_cases x with ⟨-, hst'⟩ | ⟨o, q, -, -, hx', -, -⟩
    · exact PlainHeap.nearest?_of_none hst'
    · rw [hx] at hx'
      cases hx'
  | @above x o n hx _ ih =>
    rw [Heap.nearest?]
    rcases hs.storage_cases x with ⟨hst, hst'⟩ | ⟨o', q, hst, hst', hfind, -, hq⟩
    · rw [PlainHeap.nearest?_of_none hst', hst]
    · obtain rfl : o = o' := Option.some.inj (hx.symm.trans hfind)
      have hown := hq.own?_eq pl
      rw [hst]
      cases ho : o.own? pl with
      | some r =>
        rw [ho] at hown
        simp only [PlainHeap.nearest?_of_own hst' hown, ho]
      | none =>
        rw [ho] at hown
        simp only [PlainHeap.nearest?_of_not_own hst' hown, hq.prototype, ho, ih]

theorem meets_eq (hs : h.Shows p) (hx : h.find? x = some o) (hd : h.Depth y n) (hb : n < b) :
    p.meets x y = Part.some (h.reaches x b y) := by
  induction hd generalizing b with
  | @ended y hy =>
    obtain ⟨c, rfl⟩ : ∃ c, b = c + 1 := ⟨b - 1, by omega⟩
    have hne : y ≠ x := by
      rintro rfl
      rw [hx] at hy
      cases hy
    rcases hs.find_cases y with ⟨-, hy'⟩ | ⟨o, q, hy', -⟩
    · rw [PlainHeap.meets_of_none hy']
      simp [reaches, hy, hne]
    · rw [hy] at hy'
      cases hy'
  | @above y r n hy hr ih =>
    obtain ⟨c, rfl⟩ : ∃ c, b = c + 1 := ⟨b - 1, by omega⟩
    have hself := Depth.prototype_ne_self hy hr
    rcases hs.find_cases y with ⟨hy', -⟩ | ⟨r', q, hy', hq', hq⟩
    · rw [hy] at hy'
      cases hy'
    · obtain rfl : r = r' := Option.some.inj (hy.symm.trans hy')
      simp only [reaches, hy, if_neg (ne_null_of_find? hy), if_neg hself]
      by_cases hyx : y = x
      · rw [if_pos hyx, ← hyx, PlainHeap.meets_self hq']
      · rw [if_neg hyx, PlainHeap.meets_of_ne hq' hyx, hq.prototype]
        exact ih (by omega)

theorem tally (hs : h.Shows p) (t : HeapTally) : ({ h with tally := t } : Heap).Shows p :=
  ⟨hs.objects, hs.opened, hs.spare⟩

theorem recycled_congr (hslot : ∀ i ∈ h.free, ∀ g, h.slots[i]? = some ⟨g, none⟩ →
    ∃ o?, h'.slots[i]? = some ⟨g, o?⟩) (hsound : h.Sound) :
    h.free.map h'.recycled = h.free.map h.recycled := by
  apply List.map_congr_left
  intro i hi
  obtain ⟨g, hg⟩ := (hsound.mem_free i).1 hi
  obtain ⟨o?, hg'⟩ := hslot i hi g hg
  simp [recycled, hg, hg']

theorem update (hs : h.Shows p) (hsound : h.Sound) (hx : h.find? x = some o) (hq : o'.Shows q') :
    (h.update x o').Shows (p.update x q') where
  objects y := by
    rw [find?_update hx]
    simp only [PlainHeap.update]
    by_cases hy : y = x
    · rw [if_pos hy, if_pos hy]
      exact .some hq
    · rw [if_neg hy, if_neg hy]
      exact hs.objects y
  opened := by
    simp only [PlainHeap.update, Heap.update, Array.size_modify]
    exact hs.opened
  spare := by
    refine hs.spare.trans (recycled_congr ?_ hsound).symm
    intro i _ g hg
    rw [update_slot]
    split
    · exact ⟨_, by rw [hg]; rfl⟩
    · exact ⟨_, hg⟩

theorem update_plain (hs : h.Shows p) (hx : h.find? x = some o) (hq : o.Shows q') :
    h.Shows (p.update x q') where
  objects y := by
    simp only [PlainHeap.update]
    by_cases hy : y = x
    · rw [if_pos hy, hy, hx]
      exact .some hq
    · rw [if_neg hy]
      exact hs.objects y
  opened := hs.opened
  spare := hs.spare

theorem occupy (hs : h.Shows p) (hsound : h.Sound)
    (hlimit : h.tally.allocations + 1 < handleLimit) (hq : o.Shows q) :
    (p.occupy q).1 = (h.occupy o).1 ∧ (h.occupy o).2.Shows (p.occupy q).2 := by
  have hfind := hsound.find?_occupy hlimit o
  have hslot := hsound.occupy_slot hlimit o
  have hspare := hs.spare
  have hhandle : (p.occupy q).1 = (h.occupy o).1 := by
    cases hf : h.free with
    | nil =>
      rw [hf, List.map_nil] at hspare
      rw [(occupy_behind hf (hsound.size_lt hlimit) o).1]
      simp only [PlainHeap.occupy, hspare, hs.opened]
    | cons i free =>
      rw [hf, List.map_cons] at hspare
      simp only [PlainHeap.occupy, Heap.occupy, hf, hspare]
      rfl
  refine ⟨hhandle, ?_, ?_, ?_⟩
  · intro y
    rw [hfind, p.find?_occupy, hhandle]
    by_cases hy : y = (h.occupy o).1
    · rw [if_pos hy, if_pos hy]
      exact .some hq
    · rw [if_neg hy, if_neg hy]
      exact hs.objects y
  · unfold PlainHeap.occupy Heap.occupy
    cases hf : h.free with
    | nil =>
      rw [hf, List.map_nil] at hspare
      rw [hspare]
      simp only [Array.size_modify, Array.size_push, hs.opened]
    | cons i free =>
      rw [hf, List.map_cons] at hspare
      rw [hspare]
      simp only [Array.size_setIfInBounds]
      exact hs.opened
  · have hrest : (p.occupy q).2.spare = h.free.tail.map h.recycled := by
      simp only [PlainHeap.occupy]
      cases hf : h.free with
      | nil =>
        rw [hf, List.map_nil] at hspare
        rw [hspare]
        exact hspare
      | cons i free =>
        rw [hf, List.map_cons] at hspare
        rw [hspare]
        rfl
    rw [hrest, h.occupy_free]
    apply List.map_congr_left
    intro i hi
    have hne : i ≠ (h.occupy o).1.slot.toNat := by
      rintro rfl
      exact hsound.occupy_not_mem_tail hlimit o hi
    simp only [recycled, hslot, if_neg hne]

theorem allocate (hs : h.Shows p) (hsound : h.Sound) (kind : ObjectKind) (label : Text)
    (prototype : Handle)
    (hlimit : (h.allocate kind label prototype).2.tally.allocations < handleLimit) :
    Agrees ((h.allocate kind label prototype).map (fun a => .made a.1 a.2) id)
      (p.allocate kind label prototype) := by
  simp only [PlainHeap.allocate]
  simp only [Heap.allocate] at hlimit ⊢
  rw [hs.isSome_eq]
  by_cases hp : prototype = .null ∨ h.isLive prototype = true
  · rw [if_pos hp] at hlimit ⊢
    rw [if_pos hp]
    have hnext : h.tally.allocations + 1 < handleLimit := by
      rw [← occupy_allocations h { kind, label, prototype }]
      exact hlimit
    obtain ⟨hx, hshow⟩ := hs.occupy hsound hnext (.fresh kind label prototype)
    exact ⟨congrArg (HeapAnswer.made .ok) hx, hshow⟩
  · rw [if_neg hp, if_neg hp]
    exact ⟨rfl, hs⟩

theorem destroy (hs : h.Shows p) (hsound : h.Sound) (x : Handle) :
    Agrees ((h.destroy x).map .status id) (p.destroy x) := by
  rcases hs.find_cases x with ⟨hx, hx'⟩ | ⟨o, q, hx, hx', -⟩
  · simp only [Heap.destroy, PlainHeap.destroy, hx, hx']
    exact ⟨rfl, hs⟩
  · have hfind := find?_destroy hx
    have hfree := hsound.slot_not_free hx
    have hslot := (find?_eq_some.1 hx).2
    simp only [Heap.destroy, hx] at hfind
    simp only [Heap.destroy, PlainHeap.destroy, hx, hx']
    refine ⟨rfl, ?_, ?_, ?_⟩
    · intro y
      simp only [Prod.map, id, hfind]
      by_cases hy : y = x
      · rw [if_pos hy, if_pos hy]
        exact .none
      · rw [if_neg hy, if_neg hy]
        exact hs.objects y
    · simp only [Prod.map, id, Array.size_modify]
      exact hs.opened
    · simp only [Prod.map, id, List.map_cons, hs.spare]
      congr 1
      · simp [recycled, Array.getElem?_modify, hslot]
      · refine (recycled_congr ?_ hsound).symm
        intro i hi g hg
        have hne : x.slot.toNat ≠ i := fun e => hfree (e ▸ hi)
        simp only [Array.getElem?_modify, if_neg hne]
        exact ⟨_, hg⟩

theorem readAt (hs : h.Shows p) (hsound : h.Sound) (hacyclic : h.Acyclic) (x : Handle)
    (pl : Place) :
    ∃ r, p.readAt x pl = Part.some r ∧
      Agrees ((h.readAt x pl).map (fun a => .value a.1 a.2) id) r := by
  simp only [Heap.readAt, PlainHeap.readAt]
  rcases hs.storage_cases x with ⟨hst, hst'⟩ | ⟨o, q, hst, hst', -, -, hq⟩
  · rw [hst, hst']
    exact ⟨_, rfl, rfl, hs⟩
  · have hown := hq.own?_eq pl
    rw [hst, hst']
    simp only
    cases ho : o.own? pl with
    | some r =>
      rw [ho] at hown
      simp only [PlainHeap.nearest?_of_own hst' hown, Part.bind_eq_bind, Part.bind_some]
      exact ⟨_, rfl, rfl, hs.tally _⟩
    | none =>
      rw [ho] at hown
      obtain ⟨n, hd⟩ := hacyclic o.prototype
      have hwalk := hs.nearest?_eq hd pl (hd.le_size hsound)
      simp only [PlainHeap.nearest?_of_not_own hst' hown, hq.prototype, hwalk, Part.bind_eq_bind,
        Part.bind_some, Heap.inherited?]
      cases h.nearest? pl h.slots.size o.prototype with
      | some r => exact ⟨_, rfl, rfl, hs.tally _⟩
      | none => exact ⟨_, rfl, rfl, hs.tally _⟩

theorem leave (hs : h.Shows p) (hsound : h.Sound) (hx : h.find? x = some o) {w : Written}
    {status : Status} (hw : w.status = status ∧ w.object.Shows q') :
    Agrees ((h.leave x w).map .status id) (.status status, p.update x q') := by
  obtain ⟨rfl, hq⟩ := hw
  exact ⟨rfl, (hs.update hsound hx hq).tally _⟩

theorem find?_leave (hx : h.find? x = some o) (w : Written) :
    (h.leave x w).2.find? x = some w.object := by
  simp only [Heap.leave, find?_tally, find?_update hx, if_pos]

theorem defineAt (hs : h.Shows p) (hsound : h.Sound) (x : Handle) {pl : Place}
    (hpl : pl.Proper) (d : Property) (hb : (h.defineAt x pl d).2.Bounded) :
    Agrees ((h.defineAt x pl d).map .status id) (p.defineAt x pl d) := by
  simp only [PlainHeap.defineAt]
  simp only [Heap.defineAt] at hb ⊢
  rcases hs.storage_cases x with ⟨hst, hst'⟩ | ⟨o, q, hst, hst', hx, -, hq⟩
  · rw [hst, hst']
    exact ⟨rfl, hs⟩
  · rw [hst] at hb
    rw [hst, hst']
    exact hs.leave hsound hx (hq.define _ hpl d (hb.names_le (find?_leave hx _)))

theorem assignAt (hs : h.Shows p) (hsound : h.Sound) (hacyclic : h.Acyclic) (x : Handle)
    {pl : Place} (hpl : pl.Proper) (v : Value) (strict : Bool)
    (hb : (h.assignAt x pl v strict).2.Bounded) :
    ∃ r, p.assignAt x pl v strict = Part.some r ∧
      Agrees ((h.assignAt x pl v strict).map .status id) r := by
  simp only [PlainHeap.assignAt]
  simp only [Heap.assignAt] at hb ⊢
  rcases hs.storage_cases x with ⟨hst, hst'⟩ | ⟨o, q, hst, hst', hx, -, hq⟩
  · rw [hst, hst']
    exact ⟨_, rfl, rfl, hs⟩
  · rw [hst] at hb
    obtain ⟨n, hd⟩ := hacyclic o.prototype
    have hwalk := hs.nearest?_eq hd pl (hd.le_size hsound)
    rw [hst, hst']
    simp only [hq.prototype, hwalk, Part.bind_eq_bind, Part.bind_some]
    exact ⟨_, rfl,
      hs.leave hsound hx (hq.assign _ hpl v strict _ (hb.names_le (find?_leave hx _)))⟩

theorem setPrototype (hs : h.Shows p) (hsound : h.Sound) (hacyclic : h.Acyclic)
    (x prototype : Handle) :
    ∃ r, p.setPrototype x prototype = Part.some r ∧
      Agrees ((h.setPrototype x prototype).map .status id) r := by
  simp only [Heap.setPrototype, PlainHeap.setPrototype]
  rcases hs.find_cases x with ⟨hx, hx'⟩ | ⟨o, q, hx, hx', hq⟩
  · rw [hx, hx']
    exact ⟨_, rfl, rfl, hs⟩
  · have hdead : (p.find? prototype).isNone = !h.isLive prototype := by
      rw [← hs.isSome_eq]
      cases p.find? prototype <;> rfl
    obtain ⟨n, hd⟩ := hacyclic prototype
    have hmeets := hs.meets_eq hx hd (Nat.lt_succ_of_le (hd.le_size hsound))
    rw [hx, hx']
    simp only [hdead, hq.extensible, hq.prototype, hmeets, Part.bind_eq_bind, Part.bind_some]
    split
    · exact ⟨_, rfl, rfl, hs⟩
    · split
      · exact ⟨_, rfl, rfl, hs⟩
      · cases h.reaches x (h.slots.size + 1) prototype with
        | true => exact ⟨_, rfl, rfl, hs⟩
        | false =>
          refine ⟨_, rfl, rfl, hs.update hsound hx ?_⟩
          exact { hq with prototype := rfl, extensible := rfl }

theorem preventExtensions (hs : h.Shows p) (hsound : h.Sound) (x : Handle) :
    Agrees ((h.preventExtensions x).map .status id)
      (p.modify x fun o => { o with extensible := false }) := by
  simp only [Heap.preventExtensions, PlainHeap.modify]
  rcases hs.find_cases x with ⟨hx, hx'⟩ | ⟨o, q, hx, hx', hq⟩
  · rw [hx, hx']
    exact ⟨rfl, hs⟩
  · rw [hx, hx']
    refine ⟨rfl, hs.update hsound hx ?_⟩
    exact { hq with extensible := rfl }

theorem sealObject (hs : h.Shows p) (hsound : h.Sound) (x : Handle) :
    Agrees ((h.sealObject x).map .status id)
      (p.modify x fun o => if o.sealed then o else o.toSealed) := by
  simp only [Heap.sealObject, PlainHeap.modify]
  rcases hs.find_cases x with ⟨hx, hx'⟩ | ⟨o, q, hx, hx', hq⟩
  · rw [hx, hx']
    exact ⟨rfl, hs⟩
  · rw [hx, hx']
    simp only [hq.sealed]
    cases o.sealed with
    | true => exact ⟨rfl, hs.update_plain hx hq⟩
    | false => exact ⟨rfl, (hs.update hsound hx hq.toSealed).tally _⟩

theorem freezeObject (hs : h.Shows p) (hsound : h.Sound) (x : Handle) :
    Agrees ((h.freezeObject x).map .status id)
      (p.modify x fun o => if o.frozen then o else o.toFrozen) := by
  simp only [Heap.freezeObject, PlainHeap.modify]
  rcases hs.find_cases x with ⟨hx, hx'⟩ | ⟨o, q, hx, hx', hq⟩
  · rw [hx, hx']
    exact ⟨rfl, hs⟩
  · rw [hx, hx']
    simp only [hq.frozen]
    cases o.frozen with
    | true => exact ⟨rfl, hs.update_plain hx hq⟩
    | false => exact ⟨rfl, (hs.update hsound hx hq.toFrozen).tally _⟩

theorem describeOwn_eq (hs : h.Shows p) (x : Handle) (k : PropertyKey) :
    p.describeOwn x k.place = .property (h.describeOwn x k).1 (h.describeOwn x k).2 := by
  simp only [PlainHeap.describeOwn, Heap.describeOwn]
  rcases hs.find_cases x with ⟨hx, hx'⟩ | ⟨o, q, hx, hx', hq⟩
  · rw [hx, hx']
  · rw [hx, hx']
    simp only [hq.own?_eq]
    cases o.own? k.place <;> rfl

theorem hasOwn_eq (hs : h.Shows p) (x : Handle) (k : PropertyKey) :
    ((p.find? x).any fun o => (o.own? k.place).isSome) = h.hasOwn x k := by
  simp only [Heap.hasOwn]
  rcases hs.find_cases x with ⟨hx, hx'⟩ | ⟨o, q, hx, hx', hq⟩
  · rw [hx, hx']
    rfl
  · rw [hx, hx', Option.any_some, Option.any_some, hq.own?_eq]

theorem ownKeys_eq (hs : h.Shows p) (x : Handle) :
    p.ownKeys x = .keys (h.ownKeys x).1 (h.ownKeys x).2 := by
  simp only [PlainHeap.ownKeys, Heap.ownKeys]
  rcases hs.find_cases x with ⟨hx, hx'⟩ | ⟨o, q, hx, hx', hq⟩
  · rw [hx, hx']
  · rw [hx, hx']
    simp only [hq.enumerableKeys_eq]

theorem arrayLength_eq (hs : h.Shows p) (x : Handle) :
    p.arrayLength x = .length (h.arrayLength x).1 (h.arrayLength x).2 := by
  simp only [PlainHeap.arrayLength, Heap.arrayLength]
  rcases hs.find_cases x with ⟨hx, hx'⟩ | ⟨o, q, hx, hx', hq⟩
  · rw [hx, hx']
  · rw [hx, hx']
    simp only [hq.kind]
    by_cases hk : o.kind = .array
    · rw [if_pos hk, if_pos hk, hq.length hk]
    · rw [if_neg hk, if_neg hk]

theorem inspect_eq (hs : h.Shows p) (x : Handle) : p.inspect x = h.inspect x := by
  simp only [PlainHeap.inspect, Heap.inspect]
  rcases hs.find_cases x with ⟨hx, hx'⟩ | ⟨o, q, hx, hx', hq⟩
  · simp [hx', label, isLive, kindOf, isProxy, prototype, isExtensible, isFrozen, hx]
  · simp [hx', label, isLive, kindOf, isProxy, prototype, isExtensible, isFrozen, hx, hq.kind,
      hq.label, hq.prototype, hq.extensible, hq.frozen]

theorem perform (hs : h.Shows p) (hsound : h.Sound) (hacyclic : h.Acyclic) (op : HeapOp)
    (hb : (h.perform op).2.Bounded) :
    ∃ r, p.perform op = Part.some r ∧ Agrees (h.perform op) r := by
  cases op with
  | create label prototype => exact ⟨_, rfl, hs.allocate hsound _ _ _ hb.1⟩
  | createArray label prototype => exact ⟨_, rfl, hs.allocate hsound _ _ _ hb.1⟩
  | createShell label => exact ⟨_, rfl, hs.allocate hsound .proxy label .null hb.1⟩
  | destroy x => exact ⟨_, rfl, hs.destroy hsound x⟩
  | define x k d => exact ⟨_, rfl, hs.defineAt hsound x k.place_proper d hb⟩
  | defineElement x i d =>
    simp only [Heap.perform, PlainHeap.perform, Heap.defineElement] at hb ⊢
    split
    · next hi =>
      have hproper : (Place.element i).Proper := hi
      rw [if_pos hi] at hb
      exact ⟨_, rfl, hs.defineAt hsound x hproper d hb⟩
    · exact ⟨_, rfl, rfl, hs⟩
  | defineOwn x k v => exact ⟨_, rfl, hs.defineAt hsound x k.place_proper _ hb⟩
  | setNamed x k v strict => exact hs.assignAt hsound hacyclic x k.place_proper v strict hb
  | setIndexed x i v strict =>
    simp only [Heap.perform, PlainHeap.perform, Heap.setIndexed] at hb ⊢
    split
    · next hi =>
      have hproper : (Place.element i).Proper := hi
      rw [if_pos hi] at hb
      exact hs.assignAt hsound hacyclic x hproper v strict hb
    · exact ⟨_, rfl, rfl, hs⟩
  | getNamed x k => exact hs.readAt hsound hacyclic x k.place
  | getIndexed x i => exact hs.readAt hsound hacyclic x (.element i)
  | setPrototype x prototype => exact hs.setPrototype hsound hacyclic x prototype
  | preventExtensions x => exact ⟨_, rfl, hs.preventExtensions hsound x⟩
  | sealObject x => exact ⟨_, rfl, hs.sealObject hsound x⟩
  | freezeObject x => exact ⟨_, rfl, hs.freezeObject hsound x⟩
  | describeOwn x k => exact ⟨_, rfl, hs.describeOwn_eq x k, hs⟩
  | hasOwn x k => exact ⟨_, rfl, congrArg HeapAnswer.flag (hs.hasOwn_eq x k), hs⟩
  | ownKeys x => exact ⟨_, rfl, hs.ownKeys_eq x, hs⟩
  | arrayLength x => exact ⟨_, rfl, hs.arrayLength_eq x, hs⟩
  | inspect x => exact ⟨_, rfl, congrArg HeapAnswer.object (hs.inspect_eq x), hs⟩
  | tally => exact ⟨_, rfl, rfl, hs⟩

end Shows

def answers (h : Heap) : List HeapOp → List HeapAnswer
  | [] => []
  | op :: rest => (h.perform op).1 :: answers (h.perform op).2 rest

def Within (h : Heap) : List HeapOp → Prop
  | [] => h.Bounded
  | op :: rest => h.Bounded ∧ Within (h.perform op).2 rest

instance decidableWithin : (h : Heap) → (ops : List HeapOp) → Decidable (h.Within ops)
  | h, [] => inferInstanceAs (Decidable h.Bounded)
  | h, op :: rest =>
    have := decidableWithin (h.perform op).2 rest
    inferInstanceAs (Decidable (_ ∧ _))

theorem Within.bounded {ops : List HeapOp} (hw : h.Within ops) : h.Bounded := by
  cases ops with
  | nil => exact hw
  | cons op rest => exact hw.1

theorem Shows.run (hs : h.Shows p) (hsound : h.Sound) (hacyclic : h.Acyclic) {ops : List HeapOp}
    (hw : h.Within ops) :
    ∃ p', p.run ops = Part.some ((h.answers ops).map HeapAnswer.plain, p') ∧
      (ops.foldl (fun h op => (h.perform op).2) h).Shows p' := by
  induction ops generalizing h p with
  | nil => exact ⟨p, rfl, hs⟩
  | cons op rest ih =>
    obtain ⟨-, hrest⟩ := hw
    have hb := hrest.bounded
    have hchange := h.perform_change op
    obtain ⟨⟨a, p'⟩, hop, ha, hshow⟩ := hs.perform hsound hacyclic op hb
    obtain ⟨p'', hrun, hfinal⟩ :=
      ih hshow (hsound.change hchange hb.1) (hacyclic.change hsound hchange hb.1) hrest
    refine ⟨p'', ?_, hfinal⟩
    simp only at ha
    simp only [PlainHeap.run, hop, Part.bind_eq_bind, Part.bind_some, hrun, answers,
      List.map_cons, ha, Part.pure_eq_some]

/-- A history within the limits has the answers of a plain heap, apart from counts.
The own keys of an object are its enumerable properties, each once. -/
theorem answers_eq_plain (ops : List HeapOp) (hw : ({} : Heap).Within ops) :
    (PlainHeap.run {} ops).map Prod.fst = Part.some ((answers {} ops).map HeapAnswer.plain) ∧
      ∀ x ks, (after ops).ownKeys x = (.ok, ks) →
        ks.Nodup ∧ ∀ k, k ∈ ks ↔
          ∃ r, (after ops).describeOwn x k = (.ok, r) ∧ r.enumerable = true := by
  obtain ⟨p, hrun, hshow⟩ := shows_empty.run sound_empty acyclic_empty hw
  refine ⟨by rw [hrun, Part.map_some], ?_⟩
  intro x ks hks
  rcases hshow.find_cases x with ⟨hx, -⟩ | ⟨o, q, hx, -, hq⟩
  · simp [ownKeys, after, hx] at hks
  · have hx' : (after ops).find? x = some o := hx
    simp only [ownKeys, hx', Prod.mk.injEq, true_and] at hks
    subst hks
    refine ⟨hq.nodup_enumerableKeys, ?_⟩
    intro k
    rw [hq.mem_enumerableKeys]
    simp only [describeOwn, hx']
    cases o.own? k.place <;> simp

end Heap

namespace Demonstration

def mixed : List HeapOp := [
  .createArray [97] .null,
  .setNamed ⟨0, 1⟩ (.name [97]) (.int32 1) true, .setNamed ⟨0, 1⟩ (.name [98]) (.int32 2) true,
  .setNamed ⟨0, 1⟩ (.name [99]) (.int32 3) true, .setNamed ⟨0, 1⟩ (.name [48]) (.int32 4) true,
  .setNamed ⟨0, 1⟩ (.symbol 1) (.int32 5) true, .setNamed ⟨0, 1⟩ (.symbol 2) (.int32 6) true,
  .setIndexed ⟨0, 1⟩ 100 (.int32 7) true, .setIndexed ⟨0, 1⟩ 60 (.int32 8) true,
  .freezeObject ⟨0, 1⟩, .setIndexed ⟨0, 1⟩ 100 (.int32 9) true,
  .ownKeys ⟨0, 1⟩, .arrayLength ⟨0, 1⟩, .destroy ⟨0, 1⟩, .create [98] .null,
  .hasOwn ⟨0, 2⟩ (.name [97])]

end Demonstration

open Demonstration in
theorem Heap.mixed_answers_eq_plain :
    ({} : Heap).Within mixed ∧
      (PlainHeap.run {} mixed).map Prod.fst =
        Part.some ((answers {} mixed).map HeapAnswer.plain) := by
  have hw : ({} : Heap).Within mixed := by decide +kernel
  exact ⟨hw, (answers_eq_plain mixed hw).1⟩

end InlineCache
