import InlineCache.Execute
import InlineCache.Proofs.CanonicalIndex

/-! Guarded entries and uncached dispatch. Every raw key without coercion reaches
an object by the name it spells, since the index route and the name route meet in
the place of the property. An entry whose guard accepts an access therefore does
what dispatch derives for that access from scratch. -/

namespace InlineCache

variable {τ ω α γ : Type}

namespace Effect

@[simp] theorem bind_apply (a : Effect τ ω α) (f : α → Effect τ ω γ) (w : World τ ω) :
    (a >>= f) w = (a w).bind fun r => f r.1 r.2 := rfl

@[simp] theorem pure_apply (x : α) (w : World τ ω) : (pure x : Effect τ ω α) w = some (x, w) := rfl

@[simp] theorem map_apply (a : Effect τ ω α) (f : α → γ) (w : World τ ω) :
    (f <$> a) w = (a w).map fun r => (f r.1, r.2) := by
  change (a w).bind _ = _
  cases a w <;> rfl

@[simp] theorem readStore_apply (f : Store τ → α) (w : World τ ω) :
    readStore f w = some (f w.store, w) := rfl

end Effect

theorem indexOfInt?_eq_some {n : Int} {i : Nat} (h : indexOfInt? n = some i) :
    n = i ∧ i ≤ maxIndex := by
  simp only [indexOfInt?] at h
  split at h
  · next hn =>
    have hi := Option.some.inj h
    have hle := hn.2
    simp only [maxIndex] at hle ⊢
    omega
  · cases h

namespace Value

theorem index?_cases {v : Value} {i : Nat} (h : v.classify.index? = some i) :
    v.toInt? = some (i : Int) ∧ i ≤ maxIndex ∨
      (∃ x, v = .number x ∧ x.index? = some i) ∨ ∃ s, v = .string s ∧ s.index? = some i := by
  cases v with
  | int32 n =>
    obtain ⟨hn, hi⟩ := indexOfInt?_eq_some h
    exact .inl ⟨congrArg some hn, hi⟩
  | int64 n =>
    obtain ⟨hn, hi⟩ := indexOfInt?_eq_some h
    exact .inl ⟨congrArg some hn, hi⟩
  | number x => exact .inr (.inl ⟨x, rfl, h⟩)
  | string s => exact .inr (.inr ⟨s, rfl, h⟩)
  | _ => cases h

theorem index?_le {v : Value} {i : Nat} (h : v.classify.index? = some i) : i ≤ maxIndex := by
  rcases index?_cases h with ⟨-, hi⟩ | ⟨x, -, hx⟩ | ⟨s, -, hs⟩
  · exact hi
  · unfold Binary64.index? at hx
    split at hx
    · exact (indexOfInt?_eq_some hx).2
    · cases hx
  · exact Text.le_maxIndex hs

theorem propertyKey_of_index? {v : Value} {i : Nat} (h : v.classify.index? = some i) :
    v.propertyKey = .name (Text.decimal i) := by
  rcases index?_cases h with ⟨hv, -⟩ | ⟨x, rfl, hx⟩ | ⟨s, rfl, hs⟩
  · cases v with
    | int32 n =>
      have hn : n.toInt = (i : Int) := Option.some.inj hv
      simp only [propertyKey, text, hn]
      rfl
    | int64 n =>
      have hn : n.toInt = (i : Int) := Option.some.inj hv
      simp only [propertyKey, text, hn]
      rfl
    | _ => cases hv
  · simp only [propertyKey, hx]
  · rw [Text.decimal_of_index? hs]
    rfl

theorem needsCoercion_of_index? {v : Value} {i : Nat} (h : v.classify.index? = some i) :
    v.classify.needsCoercion = false := by
  cases v <;> simp_all [classify]

theorem propertyKey_toValue (k : PropertyKey) : k.toValue.propertyKey = k := by
  cases k <;> rfl

theorem needsCoercion_toValue (k : PropertyKey) : k.toValue.classify.needsCoercion = false := by
  cases k <;> rfl

end Value

theorem Handle.orElse_orElse (x y z : Handle) :
    (x.orElse y).orElse z = x.orElse (y.orElse z) := by
  by_cases h : x = .null <;> simp [orElse, h]

@[simp] theorem Handle.orElse_self (x : Handle) : x.orElse x = x := ite_self x

namespace Dispatch

open Effect

theorem setIndex_eq_setName (flags : Flags) (target : Handle) (v : Value) {i : Nat}
    (h : i ≤ maxIndex) :
    (setIndex flags target i v : Effect τ ω Status) =
      setName flags target (.name (Text.decimal i)) v := by
  simp only [setName, setIndex]
  split
  · rfl
  · simp only [Heap.setNamed, Heap.setIndexed, PropertyKey.place_decimal h, if_pos h]

theorem getIndex_eq_getName (target : Handle) {i : Nat} (h : i ≤ maxIndex) :
    (getIndex target i : Effect τ ω (Status × Value)) =
      getName target (.name (Text.decimal i)) := by
  simp only [getName, getIndex, Heap.getNamed, Heap.getIndexed, PropertyKey.place_decimal h]

theorem set_of_object (run : Handler τ ω) (flags : Flags) {target : Handle} {key : Value}
    (v : Value) (receiver : Handle) {w : World τ ω} (hc : key.classify.needsCoercion = false)
    (hp : w.store.heap.isProxy target = false) :
    set run flags target key v receiver w = setName flags target key.propertyKey v w := by
  cases hi : key.classify.index? with
  | none => simp [set, hc, hp, hi]
  | some i =>
    rw [Value.propertyKey_of_index? hi, ← setIndex_eq_setName flags target v (Value.index?_le hi)]
    simp [set, hc, hp, hi]

theorem get_of_object (run : Handler τ ω) {target : Handle} {key : Value} (receiver : Handle)
    {w : World τ ω} (hc : key.classify.needsCoercion = false)
    (hp : w.store.heap.isProxy target = false) :
    get run target key receiver w = getName target key.propertyKey w := by
  cases hi : key.classify.index? with
  | none => simp [get, hc, hp, hi]
  | some i =>
    rw [Value.propertyKey_of_index? hi, ← getIndex_eq_getName target (Value.index?_le hi)]
    simp [get, hc, hp, hi]

theorem set_of_proxy (run : Handler τ ω) (flags : Flags) {target : Handle} (key v : Value)
    (receiver : Handle) {w : World τ ω} (hp : w.store.heap.isProxy target = true) :
    set run flags target key v receiver w = setOnProxy run flags target key v receiver w := by
  by_cases hc : key.classify.needsCoercion = true
  · simp [set, setOnProxy, hc]
  · simp [set, hc, hp]

theorem get_of_proxy (run : Handler τ ω) {target : Handle} (key : Value) (receiver : Handle)
    {w : World τ ω} (hp : w.store.heap.isProxy target = true) :
    get run target key receiver w = getOnProxy run target key receiver .undefined w := by
  by_cases hc : key.classify.needsCoercion = true
  · simp [get, getOnProxy, hc]
  · simp [get, hc, hp]

theorem set_orElse (run : Handler τ ω) (flags : Flags) (target : Handle) (key v : Value)
    (receiver : Handle) :
    set run flags target key v (receiver.orElse target) = set run flags target key v receiver := by
  simp only [set, setOnProxy, Handle.orElse_orElse, Handle.orElse_self]

theorem get_orElse (run : Handler τ ω) (target : Handle) (key : Value) (receiver : Handle) :
    get run target key (receiver.orElse target) = get run target key receiver := by
  simp only [get, getOnProxy, Handle.orElse_orElse, Handle.orElse_self]

end Dispatch

namespace Entry

theorem guard_cases {e : Entry} {h : Heap} {target : Handle} {key : Value}
    (hg : e.guard (h.probe target key) = true) :
    e = .generic ∨ (e = .proxyTarget ∧ h.isProxy target = true) ∨
      (∃ k, e = .cachedName k ∧ h.isProxy target = false ∧ key = k.toValue) ∨
      ((e = .indexFast ∨ e = .indexGeneral) ∧ h.isProxy target = false ∧
        ∃ i, key.classify.index? = some i) := by
  cases e with
  | generic => exact .inl rfl
  | proxyTarget => exact .inr (.inl ⟨rfl, hg⟩)
  | cachedName k =>
    simp only [guard, Heap.probe, Bool.and_eq_true, Bool.not_eq_true', PropertyKey.accepts] at hg
    exact .inr (.inr (.inl ⟨k, rfl, hg.1, of_decide_eq_true hg.2⟩))
  | indexFast =>
    simp only [guard, Heap.probe, Bool.and_eq_true, Bool.not_eq_true'] at hg
    exact .inr (.inr (.inr ⟨.inl rfl, hg.1.1, Option.isSome_iff_exists.1 hg.2⟩))
  | indexGeneral =>
    simp only [guard, Heap.probe, Bool.and_eq_true, Bool.not_eq_true'] at hg
    exact .inr (.inr (.inr ⟨.inr rfl, hg.1, Option.isSome_iff_exists.1 hg.2⟩))

theorem set_eq_dispatch (run : Handler τ ω) (flags : Flags) {e : Entry} {target : Handle}
    {key : Value} (v : Value) (receiver : Handle) {w : World τ ω}
    (hg : e.guard (w.store.heap.probe target key) = true) :
    e.set run flags target key v receiver w =
      Dispatch.set run flags target key v receiver w := by
  rcases guard_cases hg with rfl | ⟨rfl, hp⟩ | ⟨k, rfl, hp, rfl⟩ | ⟨he, hp, i, hi⟩
  · rfl
  · rw [Dispatch.set_of_proxy run flags key v receiver hp]
    rfl
  · rw [Dispatch.set_of_object run flags v receiver (Value.needsCoercion_toValue k) hp,
      Value.propertyKey_toValue]
    rfl
  · have hset : e.set run flags target key v receiver = Dispatch.setIndex flags target i v := by
      rcases he with rfl | rfl <;> simp only [Entry.set, hi, Option.getD_some]
    rw [hset, Dispatch.setIndex_eq_setName flags target v (Value.index?_le hi),
      Dispatch.set_of_object run flags v receiver (Value.needsCoercion_of_index? hi) hp,
      Value.propertyKey_of_index? hi]

theorem get_eq_dispatch (run : Handler τ ω) {e : Entry} {target : Handle} {key : Value}
    (receiver : Handle) {w : World τ ω} (hg : e.guard (w.store.heap.probe target key) = true) :
    e.get run target key receiver .undefined w = Dispatch.get run target key receiver w := by
  rcases guard_cases hg with rfl | ⟨rfl, hp⟩ | ⟨k, rfl, hp, rfl⟩ | ⟨he, hp, i, hi⟩
  · rfl
  · rw [Dispatch.get_of_proxy run key receiver hp]
    rfl
  · rw [Dispatch.get_of_object run receiver (Value.needsCoercion_toValue k) hp,
      Value.propertyKey_toValue]
    rfl
  · have hget : e.get run target key receiver .undefined = Dispatch.getIndex target i := by
      rcases he with rfl | rfl <;> simp only [Entry.get, hi, Option.getD_some]
    rw [hget, Dispatch.getIndex_eq_getName target (Value.index?_le hi),
      Dispatch.get_of_object run receiver (Value.needsCoercion_of_index? hi) hp,
      Value.propertyKey_of_index? hi]

theorem get_held (run : Handler τ ω) (e : Entry) (target : Handle) {key : Value}
    (hc : key.classify.needsCoercion = false) (receiver : Handle) (held : Value) :
    e.get run target key receiver held = e.get run target key receiver .undefined := by
  cases e with
  | proxyTarget => simp only [Entry.get, Dispatch.getOnProxy, hc, Bool.false_eq_true, if_false]
  | _ => rfl

/-- Every entry is sound, also one that no site learns: where its guard accepts an access,
what it does is what dispatch does. For reads this takes a key without coercion, and then
it does not depend on what the caller held. -/
theorem guarded_access_eq_dispatch (run : Handler τ ω) {e : Entry} {w : World τ ω}
    {target : Handle} {key : Value} (hg : e.guard (w.store.heap.probe target key) = true)
    (receiver : Handle) :
    (∀ flags v, e.set run flags target key v receiver w =
      Dispatch.set run flags target key v receiver w) ∧
    (key.classify.needsCoercion = false → ∀ held, e.get run target key receiver held w =
      Dispatch.get run target key receiver w) := by
  refine ⟨fun flags v => set_eq_dispatch run flags v receiver hg, fun hc held => ?_⟩
  rw [get_held run e target hc receiver held]
  exact get_eq_dispatch run receiver hg

end Entry

namespace Demonstration

def arrayWorld : World Unit Unit where
  store := { heap := (({} : Heap).createArray [97] .null).2 }
  outer := ()

end Demonstration

open Demonstration

theorem Entry.spelled_index_access :
    let e : Entry := .cachedName (.name [55])
    let run : Handler Unit Unit := fun _ _ => none
    e.guard (arrayWorld.store.heap.probe ⟨0, 1⟩ (.string [55])) = true ∧
      e.set run {} ⟨0, 1⟩ (.string [55]) (.int32 5) .null arrayWorld =
        Dispatch.set run {} ⟨0, 1⟩ (.string [55]) (.int32 5) .null arrayWorld ∧
      (e.set run {} ⟨0, 1⟩ (.string [55]) (.int32 5) .null arrayWorld).map
        (fun r => r.2.store.heap.arrayLength ⟨0, 1⟩) = some (.ok, 8) ∧
      e.get run ⟨0, 1⟩ (.string [55]) .null (.int32 1) arrayWorld =
        Dispatch.get run ⟨0, 1⟩ (.string [55]) .null arrayWorld := by
  intro e run
  have hg : e.guard (arrayWorld.store.heap.probe ⟨0, 1⟩ (.string [55])) = true := by decide
  obtain ⟨hset, hget⟩ := guarded_access_eq_dispatch run hg .null
  exact ⟨hg, hset {} (.int32 5), by decide, hget rfl (.int32 1)⟩

theorem ChainState.guard_of_find? {s : ChainState} {probe : Probe} {e : Entry}
    (h : s.find? probe = some e) : e.guard probe = true := by
  have he := List.find?_some h
  exact he

namespace Site

/-- The entry that a site resolves accepts the access, whatever the chain holds. -/
theorem guard_adapt (probe : Probe) (access attempts : Nat) (s : Site) :
    (adapt probe access attempts s).1.guard probe = true := by
  induction attempts generalizing s with
  | zero => rfl
  | succ attempts ih =>
    simp only [adapt]
    split
    · next e he => exact ChainState.guard_of_find? he
    · exact ih _

theorem guard_resolve (s : Site) (probe : Probe) : (s.resolve probe).1.guard probe = true := by
  simp only [resolve]
  split
  · next e he => exact ChainState.guard_of_find? he
  · exact guard_adapt probe _ _ _

end Site

end InlineCache
