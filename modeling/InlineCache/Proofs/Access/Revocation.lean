import InlineCache.Proofs.Proxy.Revocation
import InlineCache.Proofs.Session.Histories
import InlineCache.Proofs.Access.Sites

/-! Revocation is final.
Whatever happens to heap, registry and call sites after a proxy was revoked, accesses and
traps that come back included, the proxy refuses every access until the registry destroys
it, at every call site and without any other effect. -/

namespace InlineCache

variable {τ ω β : Type}

/-- Traps that do to heap and registry what they like, but do not destroy a proxy. -/
def Handler.Spares (x : Handle) (run : Handler τ ω) : Prop :=
  ∀ call w r, run call w = some r → w.store.Sparing x r.2.store

theorem Store.lasting_sparing (x : Handle) (s : Store τ) : Lasting (s.Sparing x) := by
  intro t op hop ht
  refine ht.trans (sparing_perform ?_ t)
  rintro rfl
  cases hop

theorem Handler.Spares.keeps {x : Handle} {run : Handler τ ω} (h : run.Spares x) (s : Store τ) :
    run.Keeps (s.Sparing x) :=
  fun call w r hw hr => hw.trans (h call w r hr)

namespace World

/-- What can happen in a world while the registry does not destroy a proxy: an operation on
heap or registry, a change of call sites, and accesses, whose traps do the like. -/
inductive Happens (x : Handle) :
    World τ (Surroundings β) → World τ (Surroundings β) → Prop
  | store {w} (op : StoreOp τ) (hop : op ≠ .destroyProxy x) :
      Happens x w { w with store := w.store.perform op }
  | outer {w} (o : Surroundings β) : Happens x w { w with outer := o }
  | invokeSet {w run y receiver k v strict r} (hrun : run.Spares x)
      (h : Proxy.invokeSet run y receiver k v strict w = some r) : Happens x w r.2
  | invokeGet {w run y receiver k r} (hrun : run.Spares x)
      (h : Proxy.invokeGet run y receiver k w = some r) : Happens x w r.2
  | invokeDefine {w run y k v r} (hrun : run.Spares x)
      (h : Proxy.invokeDefine run y k v w = some r) : Happens x w r.2
  | set {w run name target key v receiver r} (hrun : run.Spares x)
      (h : Site.set run name target key v receiver w = some r) : Happens x w r.2
  | get {w run name target key receiver r} (hrun : run.Spares x)
      (h : Site.get run name target key receiver w = some r) : Happens x w r.2

variable {w w' : World τ (Surroundings β)} {x : Handle}

theorem Happens.sparing (h : Happens x w w') : w.store.Sparing x w'.store := by
  have hI := (Store.lasting_sparing x w.store).served
  have hw := Store.Sparing.refl x w.store
  cases h with
  | store op hop => exact Store.sparing_perform hop w.store
  | outer o => exact hw
  | invokeSet hrun h => exact Proxy.keeps_invokeSet hI (hrun.keeps _) _ _ _ _ _ w _ hw h
  | invokeGet hrun h => exact Proxy.keeps_invokeGet hI (hrun.keeps _) _ _ _ w _ hw h
  | invokeDefine hrun h => exact Proxy.keeps_invokeDefine hI (hrun.keeps _) _ _ _ w _ hw h
  | set hrun h => exact Site.keeps_set hI (hrun.keeps _) _ _ _ _ _ w _ hw h
  | get hrun h => exact Site.keeps_get hI (hrun.keeps _) _ _ _ _ w _ hw h

theorem sparing_of_happens (h : Relation.ReflTransGen (Happens x) w w') :
    w.store.Sparing x w'.store := by
  induction h with
  | refl => exact .refl x w.store
  | tail _ hstep ih => exact ih.trans hstep.sparing

end World

/-- A session whose script does not destroy a proxy spares it, whatever its traps do. -/
theorem Session.sparing_run {s : Session} {x : Handle} {script : List (Option Text × Step)}
    (h : ∀ e ∈ script, e.2 ≠ .destroyProxy x) : s.store.Sparing x (s.run script).2.store := by
  refine keeps_run (Store.lasting_sparing x s.store) (.refl x s.store) fun e he y hy t ht => ?_
  have hop : (.destroyProxy y : StoreOp TrapOwner) ≠ .destroyProxy x := by
    rintro ⟨⟩
    exact h e he hy
  exact ht.trans (Store.sparing_perform hop t)

namespace Site

variable {w : World τ (Surroundings β)} {x : Handle} {key : Value} {name : Text} {s : Site}
  (hx : w.store.registry.isRevoked x = true) (hp : w.store.heap.isProxy x = true)
  (hc : key.classify.needsCoercion = false) (run : Handler τ (Surroundings β))

include hx hp hc

theorem set_revoked (hs : w.outer.table.typed? .write name = .ok s) (v : Value)
    (receiver : Handle) :
    set run name x key v receiver w =
      some (.ok .typeError, (w.learned name s x key).withSite name (·.complete .typeError)) := by
  rw [set_apply hs hc, Dispatch.set_revoked (w := w.learned name s x key) hx run hp hc]
  rfl

theorem get_revoked (hs : w.outer.table.typed? .read name = .ok s) (receiver : Handle) :
    get run name x key receiver w = some (.ok (.typeError, .undefined),
      (w.learned name s x key).withSite name (·.complete .typeError)) := by
  rw [get_apply hs hc, Dispatch.get_revoked (w := w.learned name s x key) hx run hp hc]
  rfl

end Site

/-- A proxy once revoked is revoked in every later world in which the registry has not
destroyed it. It answers every access with a type error and without any effect, also at
call sites, which learn from it as from any access. -/
theorem World.revocation_is_final {w w' : World τ (Surroundings β)} {x : Handle}
    (hr : w.store.Reached) (hrevoke : (w.store.revoke x).1 = .ok)
    (hlater : Relation.ReflTransGen (Happens x) { w with store := (w.store.revoke x).2 } w')
    (hlimit : w'.store.heap.tally.allocations < Heap.handleLimit)
    (run : Handler τ (Surroundings β)) :
    w'.store.registry.isRevoked x = true ∧
      (∀ receiver k v strict,
        Proxy.invokeSet run x receiver k v strict w' = some (.typeError, w')) ∧
      (∀ receiver k, Proxy.invokeGet run x receiver k w' = some ((.typeError, .undefined), w')) ∧
      (∀ k v, Proxy.invokeDefine run x k v w' = some (.typeError, w')) ∧
      (w'.store.heap.isLive x = true →
        ∀ name key receiver, key.classify.needsCoercion = false →
          (∀ s v, w'.outer.table.typed? .write name = .ok s →
            ∃ table, Site.set run name x key v receiver w' =
              some (.ok .typeError, { w' with outer := { w'.outer with table } })) ∧
          ∀ s, w'.outer.table.typed? .read name = .ok s →
            ∃ table, Site.get run name x key receiver w' = some (.ok (.typeError, .undefined),
              { w' with outer := { w'.outer with table } })) := by
  have hsparing := sparing_of_happens hlater
  have hr' : (w.store.revoke x).2.Reached := hr.perform (.revoke x)
  have hrevoked : (w.store.revoke x).2.registry.isRevoked x = true :=
    Registry.isRevoked_revoke.2 (.inr ⟨rfl, Registry.mem_keys_of_revoke hrevoke⟩)
  have hx := hr'.revoked_stays hrevoked hsparing hlimit
  refine ⟨hx, Proxy.invokeSet_revoked hx run, Proxy.invokeGet_revoked hx run,
    Proxy.invokeDefine_revoked hx run, fun hlive name key receiver hc => ?_⟩
  have hs := (hsparing.reached hr').sound hlimit
  obtain ⟨o, ho⟩ := Option.isSome_iff_exists.1 hlive
  have hp : w'.store.heap.isProxy x = true := by
    rw [Heap.isProxy, ho]
    exact decide_eq_true (hs.kind_eq x (Registry.mem_keys_of_isRevoked hx) o ho)
  exact ⟨fun s v hsite => ⟨_, Site.set_revoked hx hp hc run hsite v receiver⟩,
    fun s hsite => ⟨_, Site.get_revoked hx hp hc run hsite receiver⟩⟩

namespace Demonstration

def shielded : World Unit (Surroundings Unit) where
  store := .after [.heap (.create [111] .null), .createProxy ⟨0, 1⟩ (some ()) (some ()) none,
    .heap (.create [98] .null), .heap (.destroy ⟨2, 1⟩)]
  outer := {
    table := { sites :=
      [([114], .new .read [114] {} .unknown {}), ([119], .new .write [119] {} .indexLike {})] }
    other := () }

def disowning : Handler Unit (Surroundings Unit) := fun _ => do
  let status ← Effect.onStore (·.revoke ⟨2, 2⟩)
  return { status }

def shielded.revoked : World Unit (Surroundings Unit) :=
  { shielded with store := (shielded.store.revoke ⟨1, 1⟩).2 }

def shielded.layered : World Unit (Surroundings Unit) :=
  { shielded.revoked with
    store := shielded.revoked.store.perform (.createProxy ⟨0, 1⟩ (some ()) none none) }

def shielded.read : World Unit (Surroundings Unit) :=
  ((Site.get disowning [114] ⟨2, 2⟩ (.string [97]) .null shielded.layered).map (·.2)).getD
    shielded.layered

end Demonstration

open Demonstration

theorem World.revoked_beside_recycled :
    shielded.store.Reached ∧ (shielded.store.revoke ⟨1, 1⟩).1 = .ok ∧
      Relation.ReflTransGen (Happens ⟨1, 1⟩) shielded.revoked shielded.read ∧
      shielded.read.store.registry.isRevoked ⟨2, 2⟩ = true ∧
      shielded.read.store.registry.isRevoked ⟨1, 1⟩ = true ∧
      Proxy.invokeGet disowning ⟨1, 1⟩ .null (.name [97]) shielded.read =
        some ((.typeError, .undefined), shielded.read) ∧
      ∃ table, Site.set disowning [119] ⟨1, 1⟩ (.int32 7) (.boolean true) .null shielded.read =
        some (.ok .typeError,
          { shielded.read with outer := { shielded.read.outer with table } }) := by
  have hr : shielded.store.Reached := ⟨_, rfl⟩
  have hrevoke : (shielded.store.revoke ⟨1, 1⟩).1 = .ok := by decide
  have hspares : disowning.Spares ⟨1, 1⟩ := by
    have hop : (.revoke ⟨2, 2⟩ : StoreOp Unit) ≠ .destroyProxy ⟨1, 1⟩ := nofun
    rintro call w r ⟨⟩
    exact Store.sparing_perform hop w.store
  have hread : Site.get disowning [114] ⟨2, 2⟩ (.string [97]) .null shielded.layered =
      some (.ok (.ok, .undefined), shielded.read) := rfl
  have hcreate : Happens ⟨1, 1⟩ shielded.revoked shielded.layered :=
    .store (.createProxy ⟨0, 1⟩ (some ()) none none) nofun
  have hlater : Relation.ReflTransGen (Happens ⟨1, 1⟩) shielded.revoked shielded.read :=
    .tail (.single hcreate) (.get hspares hread)
  obtain ⟨hx, -, hget, -, hsites⟩ :=
    World.revocation_is_final hr hrevoke hlater (by decide) disowning
  obtain ⟨hset, -⟩ := hsites (by decide) [119] (.int32 7) .null rfl
  exact ⟨hr, hrevoke, hlater, by decide, hx, hget .null (.name [97]), hset _ (.boolean true) rfl⟩

end InlineCache
