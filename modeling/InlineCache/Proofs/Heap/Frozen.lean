import InlineCache.Proofs.Heap.Failures

/-! Frozen objects.
A frozen object takes no assignment, no link but the one it has, and no definition that
would make a property configurable. Such writes may still make room for a name or move its
elements, which no reader sees. Only a definition that repeats what is there, attributes
included, and the end of the object reach it. -/

namespace InlineCache

namespace Object

variable {o : Object} {p : Place} {d q : Property}

theorem Formed.extensible_of_frozen (ho : o.Formed) (hf : o.frozen = true) :
    o.extensible = false :=
  (ho.sealed (ho.frozen hf).1).1

theorem Formed.fixed_of_frozen (ho : o.Formed) (hf : o.frozen = true) (hq : o.own? p = some q) :
    Fixed q :=
  (ho.frozen hf).2.own hq

theorem Formed.assigned?_of_frozen (ho : o.Formed) (hf : o.frozen = true) (p : Place) (v : Value)
    (inherited? : Option Property) : o.assigned? p v inherited? = none := by
  simp only [assigned?]
  cases hq : o.own? p with
  | none => simp [ho.extensible_of_frozen hf]
  | some q => simp [(ho.fixed_of_frozen hf hq).2]

theorem Formed.accepts_of_frozen (ho : o.Formed) (hf : o.frozen = true) (p : Place)
    (hd : d.configurable = true) : o.accepts (o.own? p) d = false := by
  cases hq : o.own? p with
  | none => exact ho.extensible_of_frozen hf
  | some q =>
    rw [accepts, Bool.eq_false_iff]
    intro hp
    have hc := fixed_of_permits q d (ho.fixed_of_frozen hf hq) hp
    rw [hc.1] at hd
    cases hd

end Object

def HeapOp.replaces (x : Handle) : HeapOp → Bool
  | .define y .. | .defineElement y .. | .destroy y => decide (y = x)
  | _ => false

namespace Heap

variable {h h' : Heap} {x y : Handle} {o q : Object} {k : PropertyKey} {d : Property}

def Presents (h : Heap) (x : Handle) (o : Object) : Prop :=
  ∃ o', h.find? x = some o' ∧ o.Resembles o'

theorem presents_self (hx : h.find? x = some o) : h.Presents x o := ⟨o, hx, .refl o⟩

theorem Unseen.presents (hu : h.Unseen h') (hx : h.find? x = some o) : h'.Presents x o := by
  have hobjects := hu.objects x
  rw [hx] at hobjects
  generalize hx' : h'.find? x = o?' at hobjects
  cases hobjects with
  | some ho => exact ⟨_, hx', ho⟩

theorem presents_update (hx : h.find? x = some o) (hy : h.find? y = some q) {q' : Object}
    (hq : y = x → q.Resembles q') : (h.update y q').Presents x o := by
  by_cases he : y = x
  · subst he
    cases hx.symm.trans hy
    exact ⟨q', by rw [find?_update hy, if_pos rfl], hq rfl⟩
  · refine presents_self ?_
    rw [find?_update hy, if_neg (Ne.symm he), hx]

theorem Reached.defineAt_frozen (hr : h.Reached) (hx : h.find? x = some o)
    (hf : o.frozen = true) (hd : y = x → d.configurable = true) (p : Place) :
    (h.defineAt y p d).2.Presents x o := by
  cases hy : h.storage? y with
  | none =>
    simp only [defineAt, hy]
    exact presents_self hx
  | some q =>
    have hfind := (storage?_eq_some.1 hy).1
    rw [defineAt_of_storage? hy]
    refine presents_update hx hfind fun he => ?_
    subst he
    cases hx.symm.trans hfind
    have hformed := hr.formed hx
    exact (Object.define_declines hformed.names (hformed.accepts_of_frozen hf p (hd rfl)) _).object

theorem Reached.assignAt_frozen (hr : h.Reached) (hx : h.find? x = some o)
    (hf : o.frozen = true) (p : Place) (v : Value) (strict : Bool) :
    (h.assignAt y p v strict).2.Presents x o := by
  cases hy : h.storage? y with
  | none =>
    simp only [assignAt, hy]
    exact presents_self hx
  | some q =>
    have hfind := (storage?_eq_some.1 hy).1
    rw [assignAt_of_storage? hy]
    refine presents_update hx hfind fun he => ?_
    subst he
    cases hx.symm.trans hfind
    have hformed := hr.formed hx
    have hnone := hformed.assigned?_of_frozen hf p v (h.inherited? o p)
    exact (Object.assign_declines hformed.elements hnone _ strict).object

theorem Reached.setPrototype_frozen (hr : h.Reached) (hx : h.find? x = some o)
    (hf : o.frozen = true) (p : Handle) : (h.setPrototype y p).2.Presents x o := by
  simp only [setPrototype]
  cases hy : h.find? y with
  | none => exact presents_self hx
  | some q =>
    simp only
    split
    · exact presents_self hx
    · split
      · exact presents_self hx
      · next hlink =>
        split
        · exact presents_self hx
        · refine presents_update hx hy fun he => ?_
          subst he
          cases hx.symm.trans hy
          have hext := (hr.formed hx).extensible_of_frozen hf
          have hp : p = o.prototype := by simpa [hext] using hlink
          exact hp ▸ .refl o

theorem Reached.preventExtensions_frozen (hr : h.Reached) (hx : h.find? x = some o)
    (hf : o.frozen = true) : (h.preventExtensions y).2.Presents x o := by
  simp only [preventExtensions]
  cases hy : h.find? y with
  | none => exact presents_self hx
  | some q =>
    refine presents_update hx hy fun he => ?_
    subst he
    cases hx.symm.trans hy
    have hext := (hr.formed hx).extensible_of_frozen hf
    exact hext ▸ .refl o

theorem presents_raised {level : Object → Bool} (hx : h.find? x = some o)
    (ho : level o = true) (hy : h.find? y = some q) (q' : Object) (t : HeapTally) :
    (if level q then (Status.ok, h)
      else (.ok, { h.update y q' with tally := t })).2.Presents x o := by
  split
  · exact presents_self hx
  · next hq =>
    refine presents_update hx hy fun he => ?_
    subst he
    cases hx.symm.trans hy
    exact absurd ho hq

theorem Reached.sealObject_frozen (hr : h.Reached) (hx : h.find? x = some o)
    (hf : o.frozen = true) : (h.sealObject y).2.Presents x o := by
  simp only [sealObject]
  cases hy : h.find? y with
  | none => exact presents_self hx
  | some q => exact presents_raised hx ((hr.formed hx).frozen hf).1 hy _ _

theorem freezeObject_frozen (hx : h.find? x = some o) (hf : o.frozen = true) :
    (h.freezeObject y).2.Presents x o := by
  simp only [freezeObject]
  cases hy : h.find? y with
  | none => exact presents_self hx
  | some q => exact presents_raised hx hf hy _ _

theorem destroy_presents (hx : h.find? x = some o) (hne : y ≠ x) :
    (h.destroy y).2.Presents x o := by
  cases hy : h.find? y with
  | none =>
    simp only [destroy, hy]
    exact presents_self hx
  | some q =>
    refine presents_self ?_
    rw [find?_destroy hy, if_neg (Ne.symm hne), hx]

theorem Reached.perform_frozen (hr : h.Reached) (hx : h.find? x = some o)
    (hf : o.frozen = true) {op : HeapOp} (hop : op.replaces x = false)
    (hslots : h.Numbered (h.perform op).2) : (h.perform op).2.Presents x o := by
  have hmake : ∀ kind label prototype,
      h.Numbered (h.allocate kind label prototype).2 →
      (h.allocate kind label prototype).2.Presents x o :=
    fun kind label prototype hslots =>
      presents_self (hr.vacant.allocate_follows hx kind label prototype hslots)
  have hread : ∀ y p, (h.readAt y p).2.Presents x o :=
    fun y p => (h.readAt_unseen y p).presents hx
  cases op with
  | create label prototype => exact hmake .ordinary label prototype hslots
  | createArray label prototype => exact hmake .array label prototype hslots
  | createShell label => exact hmake .proxy label .null hslots
  | destroy y => exact destroy_presents hx (of_decide_eq_false hop)
  | define y k d =>
    exact hr.defineAt_frozen hx hf (fun he => absurd he (of_decide_eq_false hop)) _
  | defineElement y i d =>
    simp only [perform, defineElement, Prod.map, id]
    split
    · exact hr.defineAt_frozen hx hf (fun he => absurd he (of_decide_eq_false hop)) _
    · exact presents_self hx
  | defineOwn y k v => exact hr.defineAt_frozen hx hf (fun _ => rfl) _
  | setNamed y k v strict => exact hr.assignAt_frozen hx hf _ v strict
  | setIndexed y i v strict =>
    simp only [perform, setIndexed, Prod.map, id]
    split
    · exact hr.assignAt_frozen hx hf _ v strict
    · exact presents_self hx
  | getNamed y k => exact hread y _
  | getIndexed y i => exact hread y _
  | setPrototype y p => exact hr.setPrototype_frozen hx hf p
  | preventExtensions y => exact hr.preventExtensions_frozen hx hf
  | sealObject y => exact hr.sealObject_frozen hx hf
  | freezeObject y => exact freezeObject_frozen hx hf
  | _ => exact presents_self hx

theorem Presents.perform (hp : h.Presents x o) (hr : h.Reached) (hf : o.frozen = true)
    {op : HeapOp} (hop : op.replaces x = false)
    (hslots : h.Numbered (h.perform op).2) : (h.perform op).2.Presents x o := by
  obtain ⟨o', ho', hsame⟩ := hp
  have hfrozen : o'.frozen = o.frozen :=
    (congrArg Object.frozen hsame.frame :)
  obtain ⟨o'', ho'', hsame'⟩ := hr.perform_frozen ho' (hfrozen.trans hf) hop hslots
  exact ⟨o'', ho'', hsame.trans hsame'⟩

theorem Presents.answers (hp : h'.Presents x o) (hx : h.find? x = some o) :
    (∀ k, h'.describeOwn x k = h.describeOwn x k) ∧ h'.ownKeys x = h.ownKeys x ∧
      h'.prototype x = h.prototype x ∧ h'.arrayLength x = h.arrayLength x := by
  obtain ⟨o', hx', hsame⟩ := hp
  have hprototype : o'.prototype = o.prototype :=
    (congrArg Object.prototype hsame.frame :)
  have hkind : o'.kind = o.kind :=
    (congrArg Object.kind hsame.frame :)
  refine ⟨fun k => describeOwn_congr hx hx' (hsame.own k.place), ?_, ?_, ?_⟩
  · simp only [ownKeys, hx, hx', hsame.keys]
  · rw [prototype_of_find? hx, prototype_of_find? hx', hprototype]
  · simp only [arrayLength, hx, hx', hkind, hsame.length]

end Heap

end InlineCache
