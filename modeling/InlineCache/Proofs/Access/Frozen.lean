import InlineCache.Proofs.Heap.Frozen
import InlineCache.Proofs.Session.Histories

/-! Frozen objects behind call sites.
An access at a call site reaches an object by assignments and by definitions that would
make a property configurable, at whichever entry and through however many traps. A frozen
object takes neither, so nothing of it changes, not even a value for another that is the
same. -/

namespace InlineCache

variable {τ ω β : Type}

theorem StoreOp.replaces_of_serves {op : HeapOp} (h : (StoreOp.heap op : StoreOp τ).serves = true)
    (x : Handle) : op.replaces x = false ∧ op.edits = true := by
  cases op with
  | define | defineElement | destroy | create | createArray | createShell => cases h
  | _ => exact ⟨rfl, rfl⟩

structure Store.Keeping (x : Handle) (o : Object) (s : Store τ) : Prop where
  reached : s.heap.Reached
  shown : s.heap.Presents x o

namespace Store.Keeping

variable {s s' : Store τ} {x : Handle} {o : Object}

theorem perform (hs : s.Keeping x o) (ho : o.frozen = true) {op : HeapOp}
    (hop : op.replaces x = false) (hslots : s.heap.Numbered (s.heap.perform op).2) :
    ({ s with heap := (s.heap.perform op).2 } : Store τ).Keeping x o where
  reached := hs.reached.run [op]
  shown := hs.shown.perform hs.reached ho hop hslots

theorem served (ho : o.frozen = true) : Store.Served (Keeping (τ := τ) x o) := by
  intro s op hop hs
  cases op with
  | heap op =>
    obtain ⟨hkept, hedit⟩ := StoreOp.replaces_of_serves hop x
    exact hs.perform ho hkept (s.heap.perform_edit op hedit).numbered
  | createProxy | destroyProxy | revoke => cases hop
  | countForwards | countTrap | countRejection => exact ⟨hs.reached, hs.shown⟩

end Store.Keeping

namespace World

/-- What comes about while no object under this handle is redefined, destroyed or taken
over: by other operations on the heap, beside the heap, and by accesses at call sites, whose
traps do no more than that. -/
inductive Used (x : Handle) : World τ (Surroundings β) → World τ (Surroundings β) → Prop
  | refl {w} : Used x w w
  | trans {w w' w''} (h : Used x w w') (h' : Used x w' w'') : Used x w w''
  | heap {w} (op : HeapOp) (hop : op.replaces x = false)
      (hslots : w.store.heap.Numbered (w.store.heap.perform op).2) :
      Used x w { w with store := { w.store with heap := (w.store.heap.perform op).2 } }
  | beside {w w'} (h : w'.store.heap = w.store.heap) : Used x w w'
  | set {w run name target key v receiver r}
      (hrun : ∀ call w r, run call w = some r → Used x w r.2)
      (h : Site.set run name target key v receiver w = some r) : Used x w r.2
  | get {w run name target key receiver r}
      (hrun : ∀ call w r, run call w = some r → Used x w r.2)
      (h : Site.get run name target key receiver w = some r) : Used x w r.2

variable {w w' : World τ (Surroundings β)} {x : Handle} {o : Object}

theorem Used.keeping (h : Used x w w') (ho : o.frozen = true) (hw : w.store.Keeping x o) :
    w'.store.Keeping x o := by
  have hI := Store.Keeping.served (τ := τ) (x := x) ho
  induction h with
  | refl => exact hw
  | trans _ _ ih ih' => exact ih' (ih hw)
  | heap op hop hslots => exact hw.perform ho hop hslots
  | beside h => exact ⟨h ▸ hw.reached, h ▸ hw.shown⟩
  | set _ h ih =>
    exact Site.keeps_set hI (fun call w r hw hr => ih call w r hr hw) _ _ _ _ _ _ _ hw h
  | get _ h ih =>
    exact Site.keeps_get hI (fun call w r hw hr => ih call w r hr hw) _ _ _ _ _ _ hw h

def freezing (w : World τ ω) (x : Handle) : World τ ω :=
  { w with store := { w.store with heap := (w.store.heap.freezeObject x).2 } }

/-- Nothing that is asked of a frozen object changes its answer while it is not redefined
or destroyed, whatever accesses are made to it, to proxies of it and to anything else. -/
theorem frozen_object_unaltered (hr : w.store.heap.Reached)
    (hf : (w.store.heap.freezeObject x).1 = .ok) (hused : Used x (w.freezing x) w') :
    (∀ k, w'.store.heap.describeOwn x k = (w.freezing x).store.heap.describeOwn x k) ∧
      w'.store.heap.ownKeys x = (w.freezing x).store.heap.ownKeys x ∧
      w'.store.heap.prototype x = (w.freezing x).store.heap.prototype x ∧
      w'.store.heap.arrayLength x = (w.freezing x).store.heap.arrayLength x := by
  obtain ⟨hr', o, ho, hfrozen⟩ := hr.frozen_object hf
  have hkeeping := hused.keeping hfrozen ⟨hr', Heap.presents_self ho⟩
  exact hkeeping.shown.answers ho

end World

namespace Demonstration

def icebound : World Unit (Surroundings Unit) where
  store := .after [.heap (.create [111] .null),
    .heap (.defineElement ⟨0, 1⟩ 90 (.plain .null)),
    .heap (.defineElement ⟨0, 1⟩ 40 (.plain .null)), .createProxy ⟨0, 1⟩ none (some ()) none]
  outer := {
    table := { sites :=
      [([97], .new .write [97] {} .unknown {}), ([98], .new .write [98] {} .unknown {})] }
    other := () }

def handingOn : Handler Unit (Surroundings Unit) := fun call =>
  match call with
  | .set _ target _ k v => do
    let answer ← Site.set (fun _ _ => none) [98] target k.toValue v .null
    return { status := match answer with
      | .ok status | .error status => status }
  | _ => fun _ => none

def icebound.assigned : World Unit (Surroundings Unit) :=
  ((Site.set handingOn [97] ⟨1, 1⟩ (.int32 90) (.int32 7) .null (icebound.freezing ⟨0, 1⟩)).map
    (·.2)).getD icebound

end Demonstration

open Demonstration

theorem World.used_handingOn (x : Handle) (call : TrapCall Unit)
    (w : World Unit (Surroundings Unit)) (r : TrapReply × World Unit (Surroundings Unit))
    (h : handingOn call w = some r) : Used x w r.2 := by
  cases call with
  | set _ target _ k v =>
    obtain ⟨r', hset, hr⟩ := Option.bind_eq_some_iff.1 h
    cases hr
    exact .set (fun _ _ _ h => by cases h) hset
  | get | define => cases h

theorem World.frozen_object_behind_proxy_unaltered :
    icebound.store.heap.Reached ∧ (icebound.store.heap.freezeObject ⟨0, 1⟩).1 = .ok ∧
      Used ⟨0, 1⟩ (icebound.freezing ⟨0, 1⟩) icebound.assigned ∧
      icebound.assigned.calls.length = 1 ∧
      icebound.assigned.store.heap.find? ⟨0, 1⟩ ≠
        (icebound.freezing ⟨0, 1⟩).store.heap.find? ⟨0, 1⟩ ∧
      ∀ k, icebound.assigned.store.heap.describeOwn ⟨0, 1⟩ k =
        (icebound.freezing ⟨0, 1⟩).store.heap.describeOwn ⟨0, 1⟩ k := by
  have hr : icebound.store.heap.Reached := Store.Reached.heap ⟨_, rfl⟩
  have hf : (icebound.store.heap.freezeObject ⟨0, 1⟩).1 = .ok := by decide +kernel
  have hset : (Site.set handingOn [97] ⟨1, 1⟩ (.int32 90) (.int32 7) .null
      (icebound.freezing ⟨0, 1⟩)).isSome = true := by decide +kernel
  obtain ⟨r, hset⟩ := Option.isSome_iff_exists.1 hset
  have hused : Used ⟨0, 1⟩ (icebound.freezing ⟨0, 1⟩) icebound.assigned := by
    rw [icebound.assigned, hset]
    exact .set (used_handingOn _) hset
  exact ⟨hr, hf, hused, by decide +kernel, by decide +kernel,
    (frozen_object_unaltered hr hf hused).1⟩

end InlineCache
