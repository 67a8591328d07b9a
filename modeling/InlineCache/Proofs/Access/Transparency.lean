import InlineCache.Proofs.Session.Reactions

/-! The cache cannot be observed. What a call site answers, what it leaves in heap
and registry, and which traps it calls are what dispatch without a cache gives,
for any state of the chain. -/

namespace InlineCache

open Effect

variable {τ ω β α γ : Type}

/-- What a caller sees of an effect: the answer, the store that is left, and the
trap calls up to then. -/
def Effect.seen (a : Effect τ ω α) (w : World τ ω) : Option (α × Store τ × List (TrapCall τ)) :=
  (a w).map fun r => (r.1, r.2.store, r.2.calls)

/-- Traps that do not look at what call sites have learned: on heap and registry
they act alike in worlds that differ in nothing else. -/
def Handler.SiteBlind (run : Handler τ (Surroundings β)) : Prop :=
  ∀ call w w', w.Alike w' → seen (run call) w = seen (run call) w'

theorem Handler.siteBlind_onStore (f : TrapCall τ → Store τ → TrapReply × Store τ) :
    Handler.SiteBlind (β := β) fun call => onStore (f call) := by
  intro call w w' hw
  simp only [seen, onStore_apply, hw.store, hw.calls, Option.map_some]

namespace World

structure SameStore (w w' : World τ ω) : Prop where
  store : w.store = w'.store
  calls : w.calls = w'.calls

theorem sameStore_visible : Visible (SameStore (τ := τ) (ω := ω)) where
  store h := h.store
  calls h := h.calls
  putStore h _ := ⟨rfl, h.calls⟩
  putCalls h _ := ⟨h.store, rfl⟩

end World

theorem Effect.agree_sameStore_iff {P : World τ ω → World τ ω → Prop} {a a' : Effect τ ω α} :
    Agree P World.SameStore a a' ↔ ∀ w w', P w w' → seen a w = seen a' w' := by
  constructor
  · intro h w w' hw
    have hr := h w w' hw
    simp only [seen]
    generalize a w = r, a' w' = r' at hr
    cases hr with
    | none => rfl
    | some hr => simp only [Option.map_some, hr.1, hr.2.store, hr.2.calls]
  · intro h w w' hw
    have hs := h w w' hw
    simp only [seen] at hs
    generalize a w = r, a' w' = r' at hs
    cases r with
    | none =>
      cases r' with
      | none => exact .none
      | some r' => cases hs
    | some r =>
      cases r' with
      | none => cases hs
      | some r' =>
        simp only [Option.map_some, Option.some.injEq, Prod.mk.injEq] at hs
        exact .some ⟨hs.1, hs.2.1, hs.2.2⟩

theorem Handler.SiteBlind.steady {run : Handler τ (Surroundings β)} (h : run.SiteBlind) :
    run.Steady World.Alike World.SameStore where
  before := World.alike_visible
  after := World.sameStore_visible
  weaken _ _ hw := ⟨hw.store, hw.calls⟩
  trap call := agree_sameStore_iff.2 (h call)

theorem Effect.seen_map (a : Effect τ ω α) (f : α → γ) (w : World τ ω) :
    seen (f <$> a) w = (seen a w).map fun r => (f r.1, r.2) := by
  simp only [seen, map_apply, Option.map_map]
  rfl

theorem Handler.Steady.siteBlind {run : Handler τ (Surroundings β)}
    (h : run.Steady World.Alike World.Alike) : run.SiteBlind := by
  intro call
  apply agree_sameStore_iff.1
  exact (h.trap call).weaken fun _ _ hw => ⟨hw.store, hw.calls⟩

/-- An access at a site shows what dispatch shows: for any site, whatever its chain
has come to hold, any store, key, value and receiver. -/
theorem seen_access_eq_dispatch {run : Handler τ (Surroundings β)} (hrun : run.SiteBlind)
    (w : World τ (Surroundings β)) (name : Text) (target : Handle) (key v : Value)
    (receiver : Handle) :
    (∀ s, w.outer.table.typed? .write name = .ok s →
      seen (Site.set run name target key v receiver) w =
        seen (Except.ok <$> Dispatch.set run s.flags target key v receiver) w) ∧
    (∀ s, w.outer.table.typed? .read name = .ok s →
      seen (Site.get run name target key receiver) w =
        seen (Except.ok <$> Dispatch.get run target key receiver) w) := by
  have hsteady := hrun.steady
  constructor
  · intro s hs
    rw [seen_map]
    by_cases hc : key.classify.needsCoercion = true
    · simp [seen, Site.set_coercion hs hc, Dispatch.set, hc, World.withSite]
    · have hc' : key.classify.needsCoercion = false := eq_false_of_ne_true hc
      have halike := World.alike_learned (SiteTable.find?_of_typed? hs) target key
      rw [← agree_sameStore_iff.1 (Dispatch.agree_set hsteady _ _ _ _ _) _ _ halike]
      simp only [seen, Site.set_apply hs hc' v receiver, Option.map_map]
      rfl
  · intro s hs
    rw [seen_map]
    by_cases hc : key.classify.needsCoercion = true
    · simp [seen, Site.get_coercion hs hc, Dispatch.get, hc, World.withSite]
    · have hc' : key.classify.needsCoercion = false := eq_false_of_ne_true hc
      have halike := World.alike_learned (SiteTable.find?_of_typed? hs) target key
      rw [← agree_sameStore_iff.1 (Dispatch.agree_get hsteady _ _ _) _ _ halike]
      simp only [seen, Site.get_apply hs hc' receiver, Option.map_map]
      rfl

namespace Demonstration

def owner : TrapOwner := ⟨[112], 0⟩

def writer : Site := .new .write [119] { strict := true } .indexLike { maxDepth := 2 }

def reader : Site := .new .read [114] {} .unknown {}

def reentrant : World TrapOwner Scene where
  store := (Store.createProxy { heap := (({} : Heap).create [111] .null).2 }
    { target := ⟨0, 1⟩, get? := some owner, set? := some owner }).2
  outer := {
    table := { sites := [([114], reader), ([119], writer)] }
    other := [(owner, {
      proxy := ⟨1, 1⟩, get := { mode := .site [114] }, set := { mode := .site [119] } })] }

end Demonstration

open Demonstration in
theorem seen_reentrant_access :
    Handler.SiteBlind (Reaction.react 2) ∧
      reentrant.outer.table.typed? .write [119] = .ok writer ∧
      reentrant.outer.table.typed? .read [114] = .ok reader ∧
      (seen (Site.set (Reaction.react 2) [119] ⟨1, 1⟩ (.int32 7) .null .null) reentrant).isSome ∧
      seen (Site.set (Reaction.react 2) [119] ⟨1, 1⟩ (.int32 7) .null .null) reentrant =
        seen (Except.ok <$>
          Dispatch.set (Reaction.react 2) writer.flags ⟨1, 1⟩ (.int32 7) .null .null) reentrant ∧
      seen (Site.get (Reaction.react 2) [114] ⟨1, 1⟩ (.int32 7) .null) reentrant =
        seen (Except.ok <$>
          Dispatch.get (Reaction.react 2) ⟨1, 1⟩ (.int32 7) .null) reentrant := by
  have hblind : Handler.SiteBlind (Reaction.react 2) := (Reaction.steady_react 2).siteBlind
  have hset := (seen_access_eq_dispatch hblind reentrant [119] ⟨1, 1⟩ (.int32 7) .null .null).1
  have hget := (seen_access_eq_dispatch hblind reentrant [114] ⟨1, 1⟩ (.int32 7) .null .null).2
  exact ⟨hblind, rfl, rfl, rfl, hset writer rfl, hget reader rfl⟩

end InlineCache
