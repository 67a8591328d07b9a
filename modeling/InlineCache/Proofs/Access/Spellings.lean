import InlineCache.Proofs.Access.Transparency

/-! Spellings of one property.
An integer, a double and a decimal string may name the same property and still be served
by different entries. What is seen of an access depends on the name alone: on a proxy the
chain does not look at the key, and on any other target no entry does anything else than
dispatch on the name. -/

namespace InlineCache

open Effect

variable {τ ω β γ : Type}

/-- Raw keys that name the same property, neither of which would have to be coerced. -/
structure Value.SameName (k k' : Value) : Prop where
  left : k.classify.needsCoercion = false
  right : k'.classify.needsCoercion = false
  name : k.propertyKey = k'.propertyKey

namespace Entry

theorem guard_onProxy {p p' : Probe} (hp : p.onProxy = true) (hp' : p'.onProxy = true) (e : Entry) :
    e.guard p = e.guard p' := by
  cases e <;> simp [guard, hp, hp']

theorem select_onProxy {p : Probe} (hp : p.onProxy = true)
    (hc : p.key.classify.needsCoercion = false) (preferNative : Bool) :
    select p preferNative = .proxyTarget := by
  simp [select, hp, hc]

end Entry

namespace Site

variable {p p' : Probe}

theorem find?_onProxy (hp : p.onProxy = true) (hp' : p'.onProxy = true) (s : ChainState) :
    s.find? p = s.find? p' :=
  congrArg (s.entries.find? ·) (funext (Entry.guard_onProxy hp hp'))

theorem adapt_onProxy (hp : p.onProxy = true) (hp' : p'.onProxy = true)
    (hc : p.key.classify.needsCoercion = false) (hc' : p'.key.classify.needsCoercion = false)
    (access attempts : Nat) (s : Site) :
    adapt p access attempts s = adapt p' access attempts s := by
  induction attempts generalizing s with
  | zero => rfl
  | succ attempts ih =>
    simp only [adapt, Entry.select_onProxy hp hc, Entry.select_onProxy hp' hc',
      find?_onProxy hp hp', ih]

theorem resolve_onProxy (hp : p.onProxy = true) (hp' : p'.onProxy = true)
    (hc : p.key.classify.needsCoercion = false) (hc' : p'.key.classify.needsCoercion = false)
    (s : Site) : s.resolve p = s.resolve p' := by
  simp only [resolve, find?_onProxy hp hp', adapt_onProxy hp hp' hc hc']

end Site

variable {w w' : World τ (Surroundings β)} {target : Handle} {k k' : Value}

theorem World.learned_onProxy (hproxy : w.store.heap.isProxy target = true) (hk : k.SameName k')
    (name : Text) (s : Site) :
    w.learned name s target k = w.learned name s target k' := by
  have hresolve :
      s.resolve (w.store.heap.probe target k) = s.resolve (w.store.heap.probe target k') :=
    Site.resolve_onProxy hproxy hproxy hk.left hk.right s
  simp only [learned, hresolve]

namespace Dispatch

variable {w w' : World τ ω}

theorem set_onProxy (run : Handler τ ω) (hproxy : w.store.heap.isProxy target = true)
    (hk : k.SameName k') (flags : Flags) (v : Value) (receiver : Handle) :
    set run flags target k v receiver w = set run flags target k' v receiver w := by
  rw [set_of_proxy run flags k v receiver hproxy, set_of_proxy run flags k' v receiver hproxy]
  simp only [setOnProxy, hk.left, hk.right, hk.name]

theorem get_onProxy (run : Handler τ ω) (hproxy : w.store.heap.isProxy target = true)
    (hk : k.SameName k') (receiver : Handle) :
    get run target k receiver w = get run target k' receiver w := by
  rw [get_of_proxy run k receiver hproxy, get_of_proxy run k' receiver hproxy]
  simp only [getOnProxy, hk.left, hk.right, hk.name]

theorem seen_set_onObject (run : Handler τ ω) (hw : w.SameStore w')
    (hproxy : w.store.heap.isProxy target = false) (hk : k.SameName k') (flags : Flags) (v : Value)
    (receiver : Handle) :
    seen (set run flags target k v receiver) w = seen (set run flags target k' v receiver) w' := by
  have hproxy' : w'.store.heap.isProxy target = false := hw.store ▸ hproxy
  simp only [seen, set_of_object run flags v receiver hk.left hproxy,
    set_of_object run flags v receiver hk.right hproxy', ← hk.name]
  exact agree_sameStore_iff.1 (agree_setName World.sameStore_visible flags target _ v) w w' hw

theorem seen_get_onObject (run : Handler τ ω) (hw : w.SameStore w')
    (hproxy : w.store.heap.isProxy target = false) (hk : k.SameName k') (receiver : Handle) :
    seen (get run target k receiver) w = seen (get run target k' receiver) w' := by
  have hproxy' : w'.store.heap.isProxy target = false := hw.store ▸ hproxy
  simp only [seen, get_of_object run receiver hk.left hproxy,
    get_of_object run receiver hk.right hproxy', ← hk.name]
  exact agree_sameStore_iff.1 (agree_getName World.sameStore_visible target _) w w' hw

end Dispatch

namespace Site

variable {run : Handler τ (Surroundings β)} {name : Text} {s : Site}

theorem seen_set (hs : w.outer.table.typed? .write name = .ok s)
    (hc : k.classify.needsCoercion = false) (v : Value) (receiver : Handle) :
    seen (set run name target k v receiver) w =
      (seen (Dispatch.set run s.flags target k v receiver) (w.learned name s target k)).map
        fun r => (.ok r.1, r.2) := by
  simp only [seen, set_apply hs hc, Option.map_map]
  rfl

theorem seen_get (hs : w.outer.table.typed? .read name = .ok s)
    (hc : k.classify.needsCoercion = false) (receiver : Handle) :
    seen (get run name target k receiver) w =
      (seen (Dispatch.get run target k receiver) (w.learned name s target k)).map
        fun r => (.ok r.1, r.2) := by
  simp only [seen, get_apply hs hc, Option.map_map]
  rfl

/-- What is seen of an access is the same for all spellings of a property name, at any
site and whatever entries serve the spellings. -/
theorem seen_of_spelling (run : Handler τ (Surroundings β)) (w : World τ (Surroundings β))
    (name : Text) (target : Handle) (v : Value) (receiver : Handle) (hk : k.SameName k') :
    seen (set run name target k v receiver) w = seen (set run name target k' v receiver) w ∧
      seen (get run name target k receiver) w = seen (get run name target k' receiver) w := by
  have hstore : ∀ s, (w.learned name s target k).SameStore (w.learned name s target k') :=
    fun _ => ⟨rfl, rfl⟩
  constructor
  · cases hs : w.outer.table.typed? .write name with
    | error status => simp only [seen, set_missing hs]
    | ok s =>
      rw [seen_set hs hk.left, seen_set hs hk.right]
      congr 1
      cases hproxy : w.store.heap.isProxy target with
      | true =>
        rw [World.learned_onProxy hproxy hk, seen, seen, Dispatch.set_onProxy run _ hk]
        exact hproxy
      | false => exact Dispatch.seen_set_onObject run (hstore s) hproxy hk s.flags v receiver
  · cases hs : w.outer.table.typed? .read name with
    | error status => simp only [seen, get_missing hs]
    | ok s =>
      rw [seen_get hs hk.left, seen_get hs hk.right]
      congr 1
      cases hproxy : w.store.heap.isProxy target with
      | true =>
        rw [World.learned_onProxy hproxy hk, seen, seen, Dispatch.get_onProxy run _ hk]
        exact hproxy
      | false => exact Dispatch.seen_get_onObject run (hstore s) hproxy hk receiver

end Site

open Demonstration in
theorem Site.seen_seven_spelled :
    (Value.int32 7).SameName (.string [55]) ∧
      (seen (set (Reaction.react 2) [119] ⟨0, 1⟩ (.int32 7) .null .null) reentrant).isSome ∧
      seen (set (Reaction.react 2) [119] ⟨0, 1⟩ (.int32 7) .null .null) reentrant =
        seen (set (Reaction.react 2) [119] ⟨0, 1⟩ (.string [55]) .null .null) reentrant ∧
      seen (get (Reaction.react 2) [114] ⟨1, 1⟩ (.int32 7) .null) reentrant =
        seen (get (Reaction.react 2) [114] ⟨1, 1⟩ (.string [55]) .null) reentrant := by
  have hk : (Value.int32 7).SameName (.string [55]) := ⟨rfl, rfl, rfl⟩
  have hset := (seen_of_spelling (Reaction.react 2) reentrant [119] ⟨0, 1⟩ .null .null hk).1
  have hget := (seen_of_spelling (Reaction.react 2) reentrant [114] ⟨1, 1⟩ .null .null hk).2
  exact ⟨hk, rfl, hset, hget⟩

end InlineCache
