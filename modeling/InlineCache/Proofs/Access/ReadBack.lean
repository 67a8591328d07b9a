import InlineCache.Proofs.Access.Sites
import InlineCache.Proofs.Heap.Integrity
import InlineCache.Proofs.Session.Histories

/-! Reading back what was written.
A write that is not rejected leaves its value at its place and changes no link, so a
search sees it only where it looks for that place in that object. -/

namespace InlineCache

namespace Heap

variable {h h' : Heap} {x y : Handle} {p : Place} {o : Object} {k : PropertyKey} {v : Value}

inductive Visits (h : Heap) : Handle → Handle → Prop
  | here (x : Handle) : Visits h x x
  | next {x y : Handle} {o : Object} (hx : h.storage? x = some o) (hy : Visits h o.prototype y) :
      Visits h x y

theorem Visits.on_walk (hv : h.Visits x y) : ∃ n, h.prototype^[n] x = y := by
  induction hv with
  | here x => exact ⟨0, rfl⟩
  | next hx _ ih =>
    obtain ⟨n, hn⟩ := ih
    refine ⟨n + 1, ?_⟩
    rw [Function.iterate_succ_apply, prototype, (storage?_eq_some.1 hx).1, Option.elim_some, hn]

def look (h : Heap) (p : Place) (x : Handle) : Option (Option Property × Handle) :=
  (h.storage? x).map fun o => (o.own? p, o.prototype)

theorem nearest?_succ (h : Heap) (p : Place) (bound : Nat) (x : Handle) :
    h.nearest? p (bound + 1) x =
      (h.look p x).bind fun l => l.1.or (h.nearest? p bound l.2) := by
  simp only [nearest?, look]
  cases h.storage? x with
  | none => rfl
  | some o =>
    simp only [Option.map_some, Option.bind_some]
    cases o.own? p <;> rfl

theorem nearest?_congr (hlook : ∀ y, h.Visits x y → h'.look p y = h.look p y) (bound : Nat) :
    h'.nearest? p bound x = h.nearest? p bound x := by
  induction bound generalizing x with
  | zero => rfl
  | succ bound ih =>
    rw [nearest?_succ, nearest?_succ, hlook x (.here x)]
    cases hx : h.storage? x with
    | none => simp only [look, hx, Option.map_none, Option.bind_none]
    | some o =>
      simp only [look, hx, Option.map_some, Option.bind_some]
      rw [ih fun y hy => hlook y (.next hx hy)]

theorem readAt_eq_nearest? (h : Heap) (x : Handle) (p : Place) :
    (h.readAt x p).1 = (h.look p x).elim (.invalidArgument, .undefined) fun _ =>
      (h.nearest? p (h.slots.size + 1) x).elim (.notFound, .undefined) fun q => (.ok, q.value) := by
  rw [nearest?_succ]
  simp only [readAt, look, inherited?]
  cases h.storage? x with
  | none => rfl
  | some o =>
    simp only [Option.map_some, Option.elim_some, Option.bind_some]
    cases o.own? p with
    | some q => rfl
    | none =>
      simp only [Option.none_or]
      cases h.nearest? p h.slots.size o.prototype <;> rfl

theorem readAt_congr (hsize : h'.slots.size = h.slots.size)
    (hlook : ∀ y, h.Visits x y → h'.look p y = h.look p y) :
    (h'.readAt x p).1 = (h.readAt x p).1 := by
  rw [readAt_eq_nearest?, readAt_eq_nearest?, hsize, hlook x (.here x), nearest?_congr hlook]

def write (h : Heap) (flags : Flags) (x : Handle) (k : PropertyKey) (v : Value) : Status × Heap :=
  if flags.definitionOnly then h.defineOwn x k v else h.setNamed x k v flags.strict

structure Wrote (h : Heap) (x : Handle) (k : PropertyKey) (v : Value) (h' : Heap) : Prop where
  size : h'.slots.size = h.slots.size
  proxies : ∀ y, h'.isProxy y = h.isProxy y
  others : ∀ y, y ≠ x → ∀ p, h'.look p y = h.look p y
  written : ∃ q l, h'.look k.place x = some (some q, l) ∧ q.value = v
  kept : h.Fits x k h' → ∀ p ≠ k.place, h'.look p x = h.look p x

theorem wrote_leave (hx : h.storage? x = some o) {t : HeapTally} {d : Property} {r : Written}
    (ht : o.Takes t k.place d r) : h.Wrote x k d.value (h.leave x r).2 := by
  obtain ⟨hfind, hkind⟩ := storage?_eq_some.1 hx
  have hk : r.object.kind = o.kind := by
    have hk := congrArg Object.kind ht.frame
    exact hk
  have hproto : r.object.prototype = o.prototype := by
    have hp := congrArg Object.prototype ht.frame
    exact hp
  have hfind' : ∀ y, (h.leave x r).2.find? y = if y = x then some r.object else h.find? y :=
    find?_update hfind r.object
  have hself' : (h.leave x r).2.storage? x = some r.object :=
    storage?_eq_some.2 ⟨by rw [hfind', if_pos rfl], hk ▸ hkind⟩
  constructor
  · exact Array.size_modify
  · intro y
    simp only [isProxy, hfind']
    split
    · next he => simp only [he, hfind, Option.any_some, hk]
    · rfl
  · intro y hy p
    simp only [look, storage?, hfind', if_neg hy]
  · exact ⟨d, r.object.prototype, by simp only [look, hself', Option.map_some, ht.own], rfl⟩
  · intro hfits p hp
    have hroom := hfits.room hfind (storage?_eq_some.1 hself').1
    simp only [look, hself', hx, Option.map_some, ht.others hroom p hp, hproto]

theorem Reached.wrote (hr : h.Reached) {flags : Flags} (hok : (h.write flags x k v).1 = .ok)
    (hcount : (h.write flags x k v).2.tally.rejectedWrites = h.tally.rejectedWrites) :
    h.Wrote x k v (h.write flags x k v).2 := by
  simp only [write] at hok hcount ⊢
  cases hx : h.storage? x with
  | none =>
    split at hok <;> simp [defineOwn, define, defineAt, setNamed, assignAt, hx] at hok
  | some o =>
    have hformed := hr.formed (storage?_eq_some.1 hx).1
    split
    · next hd =>
      have hwrite : h.defineOwn x k v = h.leave x (o.define h.tally k.place (.plain v)) :=
        defineAt_of_storage? hx _ _
      rw [if_pos hd] at hcount
      rw [hwrite] at hcount ⊢
      cases hyes : o.accepts (o.own? k.place) (.plain v) with
      | true => exact wrote_leave hx (Object.define_takes hformed.names hyes h.tally)
      | false =>
        have hdeclined := Object.define_declines hformed.names hyes h.tally
        exact absurd (hdeclined.count.symm.trans hcount) (Nat.succ_ne_self _)
    · next hd =>
      have hwrite : h.setNamed x k v flags.strict =
          h.leave x (o.assign h.tally k.place v flags.strict (h.inherited? o k.place)) :=
        assignAt_of_storage? hx _ _ _
      rw [if_neg hd] at hcount
      rw [hwrite] at hcount ⊢
      cases hd' : o.assigned? k.place v (h.inherited? o k.place) with
      | some d =>
        have hwrote := wrote_leave hx
          (Object.assign_takes hformed.names hd' h.tally flags.strict)
        rwa [Object.value_of_assigned? hd'] at hwrote
      | none =>
        have hdeclined := Object.assign_declines hformed.elements hd' h.tally flags.strict
        exact absurd (hdeclined.count.symm.trans hcount) (Nat.succ_ne_self _)

def reading (h : Heap) (x : Handle) (k : PropertyKey) : Status × Value :=
  missingAsUndefined (h.getNamed x k).1

theorem Wrote.reading_self (hw : h.Wrote x k v h') : h'.reading x k = (.ok, v) := by
  obtain ⟨q, l, hlook, rfl⟩ := hw.written
  simp only [reading, getNamed, readAt_eq_nearest?, nearest?_succ, hlook, Option.elim_some,
    Option.bind_some, Option.some_or]
  rfl

theorem Wrote.reading_other {k' : PropertyKey} (hw : h.Wrote x k v h')
    (hother : k' ≠ k ∧ h.Fits x k h' ∨ ¬ h.Visits y x) :
    h'.reading y k' = h.reading y k' := by
  have hlook : ∀ z, h.Visits y z → h'.look k'.place z = h.look k'.place z := by
    intro z hz
    by_cases hzx : z = x
    · subst hzx
      rcases hother with ⟨hk, hfits⟩ | hno
      · exact hw.kept hfits _ fun he => hk (PropertyKey.place_injective he)
      · exact absurd hz hno
    · exact hw.others z hzx _
  simp only [reading, getNamed, readAt_congr hw.size hlook]

theorem reading_own (hx : h.storage? x = some o) {q : Property} (hq : o.own? k.place = some q) :
    h.reading x k = (.ok, q.value) := by
  simp only [reading, getNamed, readAt, hx, hq]
  rfl

theorem reading_none (hx : h.storage? x = some o) (hp : o.prototype = .null)
    (hn : o.own? k.place = none) : h.reading x k = (.ok, .undefined) := by
  simp only [reading, getNamed, readAt, inherited?, hx, hp, hn, nearest?_null]
  rfl

theorem write_crowded (hx : h.storage? x = some o) (ho : Crowded NameTable.maxBuckets o)
    {flags : Flags} (hflags : flags.definitionOnly = false) (v : Value) :
    (h.write flags x (crowdName NameTable.maxBuckets) v).1 = .ok ∧
      (h.write flags x (crowdName NameTable.maxBuckets) v).2.tally.rejectedWrites =
        h.tally.rejectedWrites ∧
      (h.write flags x (crowdName NameTable.maxBuckets) v).2.isProxy x = false ∧
      ∃ i < NameTable.maxBuckets, h.reading x (crowdName i) = (.ok, .null) ∧
        (h.write flags x (crowdName NameTable.maxBuckets) v).2.reading x (crowdName i) =
          (.ok, .undefined) := by
  have hn := maxBuckets_lt
  obtain ⟨hfind, hkind⟩ := storage?_eq_some.1 hx
  have hwrite : h.write flags x (crowdName NameTable.maxBuckets) v =
      h.leave x (o.define h.tally (.name (crowdName NameTable.maxBuckets)) (.plain v)) := by
    rw [write, hflags]
    exact ho.setNamed_eq hn hx v flags.strict
  have htakes := Object.define_takes ho.names (ho.accepts hn (.plain v)) h.tally
  obtain ⟨i, hi, hown, hlost⟩ := ho.overfull h.tally (.plain v)
  have hkind' := congrArg Object.kind htakes.frame
  have hprototype' := congrArg Object.prototype htakes.frame
  have hx' := storage?_eq_some.2 ⟨(find?_leave hfind
    (o.define h.tally (.name (crowdName NameTable.maxBuckets)) (.plain v)) x).trans (if_pos rfl),
    fun hproxy => hkind (hkind'.symm.trans hproxy)⟩
  rw [hwrite]
  exact ⟨htakes.status, htakes.count, isProxy_of_storage? hx', i, hi,
    reading_own (k := crowdName i) hx hown,
    reading_none (k := crowdName i) hx' (hprototype'.trans ho.prototype) hlost⟩

end Heap

section Sites

open Effect

variable {τ ω β : Type}

theorem Dispatch.set_heap (run : Handler τ ω) (flags : Flags) {target : Handle} {key : Value}
    (v : Value) (receiver : Handle) {w : World τ ω} (hc : key.classify.needsCoercion = false)
    (hp : w.store.heap.isProxy target = false) :
    (Dispatch.set run flags target key v receiver w).map (fun r => (r.1, r.2.store.heap)) =
      some (w.store.heap.write flags target key.propertyKey v) := by
  rw [Dispatch.set_of_object run flags v receiver hc hp]
  simp only [Dispatch.setName, Heap.write]
  split <;> rfl

theorem Dispatch.get_answer (run : Handler τ ω) {target : Handle} {key : Value}
    (receiver : Handle) {w : World τ ω} (hc : key.classify.needsCoercion = false)
    (hp : w.store.heap.isProxy target = false) :
    (Dispatch.get run target key receiver w).map (·.1) =
      some (w.store.heap.reading target key.propertyKey) := by
  rw [Dispatch.get_of_object run receiver hc hp]
  rfl

theorem Site.set_heap (run : Handler τ (Surroundings β)) {w : World τ (Surroundings β)}
    {name : Text} {s : Site} {target : Handle} {key : Value} (v : Value) (receiver : Handle)
    (hs : w.outer.table.typed? .write name = .ok s) (hc : key.classify.needsCoercion = false)
    (hp : w.store.heap.isProxy target = false) :
    (Site.set run name target key v receiver w).map (fun r => (r.1, r.2.store.heap)) =
      some (.ok (w.store.heap.write s.flags target key.propertyKey v).1,
        (w.store.heap.write s.flags target key.propertyKey v).2) := by
  have hd := Dispatch.set_heap run s.flags v receiver (w := w.learned name s target key) hc hp
  rw [Site.set_apply hs hc, Option.map_map]
  obtain ⟨r, hr, hr'⟩ := Option.map_eq_some_iff.1 hd
  have hwrite : w.store.heap.write s.flags target key.propertyKey v = (r.1, r.2.store.heap) :=
    hr'.symm
  rw [hr, hwrite]
  rfl

/-- What read sites answer in a heap, whatever their chains hold and whatever else there
is in the world. -/
def Heap.ReadsAs (τ β : Type) (h : Heap) (target : Handle) (key : Value)
    (answer : Status × Value) : Prop :=
  ∀ (run : Handler τ (Surroundings β)) (w : World τ (Surroundings β)) (name : Text) (s : Site)
    (receiver : Handle), w.store.heap = h → w.outer.table.typed? .read name = .ok s →
    ∃ w', Site.get run name target key receiver w = some (.ok answer, w')

theorem Heap.readsAs_reading {h : Heap} {target : Handle} {key : Value}
    (hc : key.classify.needsCoercion = false) (hp : h.isProxy target = false) :
    h.ReadsAs τ β target key (h.reading target key.propertyKey) := by
  rintro run w name s receiver rfl hs
  have hd := Dispatch.get_answer run receiver (w := w.learned name s target key) hc hp
  obtain ⟨r, hr, hr'⟩ := Option.map_eq_some_iff.1 hd
  rw [Site.get_apply hs hc, hr, Option.map_some, hr']
  exact ⟨_, rfl⟩

/-- A write that returns ok and is not rejected is read back under every spelling of its
key, at every site. Nothing else reads otherwise than before, as long as a new name of the
target fits. -/
theorem write_reads_back {run : Handler τ (Surroundings β)} {w w' : World τ (Surroundings β)}
    {name : Text} {target : Handle} {key v : Value} {receiver : Handle}
    (hr : w.store.heap.Reached) (hp : w.store.heap.isProxy target = false)
    (hc : key.classify.needsCoercion = false)
    (hset : Site.set run name target key v receiver w = some (.ok .ok, w'))
    (hcount : w'.store.heap.tally.rejectedWrites = w.store.heap.tally.rejectedWrites) :
    (∀ key', key'.classify.needsCoercion = false → key'.propertyKey = key.propertyKey →
      w'.store.heap.ReadsAs τ β target key' (.ok, v)) ∧
    ∀ target' key', key'.classify.needsCoercion = false → w.store.heap.isProxy target' = false →
      (key'.propertyKey ≠ key.propertyKey ∧
          w.store.heap.Fits target key.propertyKey w'.store.heap ∨
        ¬ w.store.heap.Visits target' target) →
      ∃ answer, w.store.heap.ReadsAs τ β target' key' answer ∧
        w'.store.heap.ReadsAs τ β target' key' answer := by
  have hwrote : w.store.heap.Wrote target key.propertyKey v w'.store.heap := by
    cases hs : w.outer.table.typed? .write name with
    | error status =>
      rw [Site.set_missing hs] at hset
      cases hset
    | ok s =>
      have heap := Site.set_heap run v receiver hs hc hp
      rw [hset, Option.map_some, Option.some.injEq, Prod.mk.injEq, Except.ok.injEq] at heap
      obtain ⟨hok, hheap⟩ := heap
      rw [hheap] at hcount ⊢
      exact hr.wrote hok.symm hcount
  constructor
  · intro key' hc' hkey
    have hreads := Heap.readsAs_reading (τ := τ) (β := β) hc' ((hwrote.proxies target).trans hp)
    rwa [hkey, hwrote.reading_self] at hreads
  · intro target' key' hc' hp' hother
    have hreads := Heap.readsAs_reading (τ := τ) (β := β) hc' ((hwrote.proxies target').trans hp')
    rw [hwrote.reading_other hother] at hreads
    exact ⟨_, Heap.readsAs_reading hc' hp', hreads⟩

end Sites

namespace Demonstration

def beside (h : Heap) : World Unit (Surroundings Unit) where
  store := { heap := h }
  outer := {
    table := { sites :=
      [([114], .new .read [114] {} .unknown {}), ([119], .new .write [119] {} .unknown {})] }
    other := () }

end Demonstration

open Demonstration in
/-- A write of one name too many returns ok and is not rejected, but another key of its
target reads otherwise than before. -/
theorem write_outgrown :
    ∃ (w w' : World Unit (Surroundings Unit)) (run : Handler Unit (Surroundings Unit))
      (name name' : Text) (target : Handle) (key key' v : Value),
      w.store.heap.Reached ∧ w.store.heap.isLive target = true ∧
        w.store.heap.isProxy target = false ∧ key.classify.needsCoercion = false ∧
        key'.classify.needsCoercion = false ∧ key'.propertyKey ≠ key.propertyKey ∧
        Site.set run name target key v .null w = some (.ok .ok, w') ∧
        w'.store.heap.tally.rejectedWrites = w.store.heap.tally.rejectedWrites ∧
        (Site.get run name' target key' .null w).map (·.1) = some (.ok (.ok, .null)) ∧
        (Site.get run name' target key' .null { w with store := w'.store }).map (·.1) =
          some (.ok (.ok, .undefined)) := by
  obtain ⟨h, hr, o, hx, ho⟩ := Heap.exists_crowded
  have hlive := Heap.isLive_iff.2 ⟨o, (Heap.storage?_eq_some.1 hx).1⟩
  have hp := Heap.isProxy_of_storage? hx
  have hflags : ({} : Flags).definitionOnly = false := rfl
  obtain ⟨hok, hcount, hp', i, hi, hbefore, hafter⟩ := Heap.write_crowded hx ho hflags .null
  have hc : ∀ n, (Value.symbol (.ofNat n)).classify.needsCoercion = false := fun _ => rfl
  have hs : (beside h).outer.table.typed? .write [119] = .ok (.new .write [119] {} .unknown {}) :=
    rfl
  have hs' : (beside h).outer.table.typed? .read [114] = .ok (.new .read [114] {} .unknown {}) :=
    rfl
  obtain ⟨⟨answer, w'⟩, hset, he⟩ := Option.map_eq_some_iff.1
    (Site.set_heap (fun _ _ => none) .null .null hs (hc NameTable.maxBuckets) hp)
  obtain ⟨rfl, hheap⟩ := Prod.mk.inj he
  obtain ⟨w₁, hw₁⟩ := Heap.readsAs_reading (hc i) hp (fun _ _ => none) (beside h) [114] _ .null
    rfl hs'
  obtain ⟨w₂, hw₂⟩ := Heap.readsAs_reading (hc i) hp' (fun _ _ => none)
    { beside h with store := w'.store } [114] _ .null hheap hs'
  refine ⟨beside h, w', fun _ _ => none, [119], [114], ⟨0, 1⟩,
    .symbol (.ofNat NameTable.maxBuckets), .symbol (.ofNat i), .null, hr, hlive, hp, hc _, hc _,
    fun he => ?_, ?_, ?_, ?_, ?_⟩
  · exact hi.ne (Heap.crowdName_inj (hi.trans Heap.maxBuckets_lt) Heap.maxBuckets_lt he)
  · rw [hset]
    exact congrArg (fun status => some (Except.ok status, w')) hok
  · rw [hheap]
    exact hcount
  · rw [hw₁]
    exact congrArg (fun answer => some (Except.ok answer)) hbefore
  · rw [hw₂]
    exact congrArg (fun answer => some (Except.ok answer)) hafter

namespace Demonstration

def inherited : Session :=
  ((Session.start { maxDepth := 2 }).run [
    (none, .heap (.create [97] .null)),
    (none, .heap (.create [98] ⟨0, 1⟩)),
    (none, .createSite .write [119] { strict := true } .unknown),
    (none, .createSite .read [114] {} .indexLike),
    (none, .siteSet [119] ⟨0, 1⟩ (.string [107]) (.boolean true) .null)]).2

def written : World TrapOwner Scene :=
  ((Site.set inherited.handler [119] ⟨1, 1⟩ (.int32 7) (.int32 5) .null inherited.world).map
    (·.2)).getD inherited.world

end Demonstration

open Demonstration in
theorem written_index_reads_back :
    inherited.world.store.heap.Reached ∧
      Site.set inherited.handler [119] ⟨1, 1⟩ (.int32 7) (.int32 5) .null inherited.world =
        some (.ok .ok, written) ∧
      written.store.heap.tally.rejectedWrites =
        inherited.world.store.heap.tally.rejectedWrites ∧
      written.store.heap.ReadsAs TrapOwner Ledger ⟨1, 1⟩ (.string [55]) (.ok, .int32 5) ∧
      (∃ answer, inherited.world.store.heap.ReadsAs TrapOwner Ledger ⟨1, 1⟩ (.string [107]) answer ∧
        written.store.heap.ReadsAs TrapOwner Ledger ⟨1, 1⟩ (.string [107]) answer) ∧
      ∃ answer, inherited.world.store.heap.ReadsAs TrapOwner Ledger ⟨0, 1⟩ (.int64 7) answer ∧
        written.store.heap.ReadsAs TrapOwner Ledger ⟨0, 1⟩ (.int64 7) answer := by
  have hr : inherited.world.store.heap.Reached := Session.reached_run _ _
  have hset : Site.set inherited.handler [119] ⟨1, 1⟩ (.int32 7) (.int32 5) .null inherited.world =
      some (.ok .ok, written) := rfl
  have hcount : written.store.heap.tally.rejectedWrites =
      inherited.world.store.heap.tally.rejectedWrites := rfl
  obtain ⟨hself, hothers⟩ := write_reads_back hr rfl rfl hset hcount
  refine ⟨hr, hset, hcount, hself _ rfl (by decide), ?_, ?_⟩
  · exact hothers ⟨1, 1⟩ (.string [107]) rfl rfl (.inl ⟨by decide, fun _ _ => by decide +kernel⟩)
  · refine hothers ⟨0, 1⟩ (.int64 7) rfl rfl (.inr fun hv => ?_)
    obtain ⟨n, hn⟩ := hv.on_walk
    have hroot : inherited.world.store.heap.prototype ⟨0, 1⟩ = .null := rfl
    have hend : inherited.world.store.heap.prototype .null = .null := rfl
    cases n with
    | zero => exact absurd hn (by decide)
    | succ n =>
      rw [Function.iterate_succ_apply, hroot, Function.iterate_fixed hend] at hn
      cases hn

end InlineCache
