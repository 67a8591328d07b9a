import InlineCache.Proofs.Access.Agreement
import InlineCache.Proofs.Proxy.Records
import InlineCache.Proxy.Forwarding

/-! Accesses through proxies without traps.
Targets never lead back, so a walk ends before it has passed all records. Where it ends
an access does what it does when it starts there, but for the proxies counted on the way. -/

namespace InlineCache

variable {τ ω α γ : Type}

namespace Registry

theorem countForwards_add (r : Registry τ) (m n : Nat) :
    (r.countForwards m).countForwards n = r.countForwards (n + m) := by
  simp only [countForwards, Nat.add_assoc, Nat.add_comm m n]

end Registry

namespace Store

variable {s : Store τ} {select : Proxy τ → Option τ} {x y t : Handle} {xs : List Handle} {n : Nat}

def visit (s : Store τ) (select : Proxy τ → Option τ) (x : Handle) : (Nat × Landing τ) ⊕ Handle :=
  match s.registry.open? x with
  | .error status => .inl (0, .refused status)
  | .ok p =>
    match select p with
    | some trap => .inl (0, .trapped trap p.target)
    | none => if s.heap.isProxy p.target then .inr p.target else .inl (1, .object p.target)

theorem landFrom_succ (s : Store τ) (select : Proxy τ → Option τ) (n : Nat) (x : Handle) :
    s.landFrom select (n + 1) x =
      (s.visit select x).elim some fun y =>
        (s.landFrom select n y).map fun l => (l.1 + 1, l.2) := by
  simp only [landFrom, visit]
  cases s.registry.open? x with
  | error status => rfl
  | ok p =>
    simp only
    cases select p with
    | some trap => rfl
    | none =>
      simp only
      split <;> rfl

theorem visit_eq_inr (h : s.visit select x = .inr y) : s.registry.Leads x y := by
  simp only [visit] at h
  split at h
  · cases h
  · next p hp =>
    split at h
    · cases h
    · split at h
      · cases h
        exact ⟨p, hp, rfl⟩
      · cases h

theorem landFrom_mono {l : Nat × Landing τ} (h : s.landFrom select n x = some l) :
    s.landFrom select (n + 1) x = some l := by
  induction n generalizing x l with
  | zero => cases h
  | succ n ih =>
    rw [landFrom_succ] at h ⊢
    cases hv : s.visit select x with
    | inl l' => simpa only [hv, Sum.elim_inl] using h
    | inr y =>
      simp only [hv, Sum.elim_inr, Option.map_eq_some_iff] at h ⊢
      obtain ⟨l', hl', rfl⟩ := h
      exact ⟨l', ih hl', rfl⟩

/-- A walk that has not ended has passed that many records. -/
theorem exists_chain_of_landFrom (h : s.landFrom select n x = none) :
    ∃ xs : List Handle, xs.length = n ∧ xs.IsChain s.registry.Leads ∧
      (∀ y ∈ xs, y ∈ s.registry.keys) ∧ ∀ y ∈ xs.head?, y = x := by
  induction n generalizing x with
  | zero => exact ⟨[], rfl, .nil, nofun, nofun⟩
  | succ n ih =>
    rw [landFrom_succ] at h
    cases hv : s.visit select x with
    | inl l => simp [hv] at h
    | inr y =>
      rw [hv, Sum.elim_inr, Option.map_eq_none_iff] at h
      obtain ⟨ys, hlength, hchain, hkeys, hhead⟩ := ih h
      have hxy := visit_eq_inr hv
      refine ⟨x :: ys, congrArg (· + 1) hlength, ?_, ?_, ?_⟩
      · refine List.isChain_cons.2 ⟨fun z hz => ?_, hchain⟩
        rw [hhead z hz]
        exact hxy
      · exact List.forall_mem_cons.2 ⟨hxy.mem_keys, hkeys⟩
      · rintro z ⟨⟩
        rfl

theorem land_ends (hf : s.registry.Forward) (select : Proxy τ → Option τ) (x : Handle) :
    ∃ l, s.land select x = some l := by
  refine Option.ne_none_iff_exists'.1 fun hnone => ?_
  -- otherwise it has passed one record more than there are, and none of them twice
  obtain ⟨xs, hlength, hchain, hkeys, -⟩ := exists_chain_of_landFrom hnone
  have hle := ((hf xs hchain).subperm hkeys).length_le
  rw [Registry.length_keys] at hle
  omega

theorem land_next (hf : s.registry.Forward) (hv : s.visit select x = .inr y) :
    s.land select x = (s.land select y).map fun l => (l.1 + 1, l.2) := by
  obtain ⟨l, hl⟩ := land_ends hf select x
  have hx := hl
  rw [land, landFrom_succ, hv, Sum.elim_inr, Option.map_eq_some_iff] at hx
  obtain ⟨l', hl', rfl⟩ := hx
  rw [hl, land, landFrom_mono hl']
  rfl

theorem land_last {l : Nat × Landing τ} (hv : s.visit select x = .inl l) :
    s.land select x = some l := by
  rw [land, landFrom_succ, hv, Sum.elim_inl]

inductive Passes (s : Store τ) (select : Proxy τ → Option τ) : List Handle → Handle → Prop
  | last {x t : Handle} {p : Proxy τ} (hx : s.registry.open? x = .ok p) (hp : select p = none)
      (ht : p.target = t) : Passes s select [x] t
  | next {x y t : Handle} {xs : List Handle} {p : Proxy τ} (hx : s.registry.open? x = .ok p)
      (hp : select p = none) (hy : p.target = y) (hproxy : s.heap.isProxy y = true)
      (hrest : Passes s select (y :: xs) t) : Passes s select (x :: y :: xs) t

theorem visit_of_open {p : Proxy τ} (hx : s.registry.open? x = .ok p) (hp : select p = none) :
    s.visit select x =
      if s.heap.isProxy p.target then .inr p.target else .inl (1, .object p.target) := by
  simp only [visit, hx, hp]

theorem Passes.land_eq (hf : s.registry.Forward) (h : s.Passes select (x :: xs) t) :
    s.land select x =
      if s.heap.isProxy t then (s.land select t).map fun l => (l.1 + (xs.length + 1), l.2)
      else some (xs.length + 1, .object t) := by
  induction xs generalizing x with
  | nil =>
    cases h with
    | last hx hp ht =>
      have hv := visit_of_open hx hp
      rw [ht] at hv
      split at hv
      · next hproxy =>
        rw [if_pos hproxy]
        exact land_next hf hv
      · next hproxy =>
        rw [if_neg hproxy]
        exact land_last hv
  | cons y xs ih =>
    cases h with
    | next hx hp hy hproxy hrest =>
      have hv := visit_of_open hx hp
      rw [hy, if_pos hproxy] at hv
      rw [land_next hf hv, ih hrest]
      split
      · rw [Option.map_map]
        rfl
      · rfl

end Store

def Store.forwarded (s : Store τ) (n : Nat) : Store τ :=
  { s with registry := s.registry.countForwards n }

def World.forwarded (w : World τ ω) (n : Nat) : World τ ω :=
  { w with store := w.store.forwarded n }

theorem Store.forwarded_forwarded (s : Store τ) (m n : Nat) :
    (s.forwarded m).forwarded n = s.forwarded (n + m) := by
  simp only [forwarded, Registry.countForwards_add]

theorem Store.landFrom_forwarded (s : Store τ) (n : Nat) (select : Proxy τ → Option τ)
    (bound : Nat) (x : Handle) :
    (s.forwarded n).landFrom select bound x = s.landFrom select bound x := by
  induction bound generalizing x with
  | zero => rfl
  | succ bound ih =>
    rw [landFrom_succ, landFrom_succ]
    simp only [ih]
    rfl

theorem Store.land_forwarded (s : Store τ) (n : Nat) (select : Proxy τ → Option τ) (x : Handle) :
    (s.forwarded n).land select x = s.land select x :=
  s.landFrom_forwarded n select _ x

namespace Effect

variable {a : Effect τ ω α} {f : α → Effect τ ω γ}

def Unaware (a : Effect τ ω α) : Prop :=
  ∀ w n, a (w.forwarded n) = (a w).map fun r => (r.1, r.2.forwarded n)

theorem Unaware.pure (x : α) : Unaware (pure x : Effect τ ω α) := fun _ _ => rfl

theorem Unaware.bind (ha : Unaware a) (hf : ∀ x, Unaware (f x)) : Unaware (a >>= f) := by
  intro w n
  rw [bind_apply, bind_apply, ha w n, Option.map_bind, Option.bind_map]
  exact Option.bind_congr fun r _ => hf r.1 r.2 n

theorem unaware_onStore {f : Store τ → α × Store τ}
    (hf : ∀ s n, f (s.forwarded n) = ((f s).1, (f s).2.forwarded n)) :
    Unaware (onStore f : Effect τ ω α) := by
  intro w n
  have hstore := hf w.store n
  change some ((f (w.store.forwarded n)).1, _) = _
  simp only [World.forwarded, hstore]
  rfl

theorem unaware_onHeap (f : Heap → α × Heap) : Unaware (onHeap f : Effect τ ω α) :=
  unaware_onStore fun _ _ => rfl

theorem unaware_log (call : TrapCall τ) : Unaware (log call : Effect τ ω Unit) := fun _ _ => rfl

def Quiet (a : Effect τ ω α) : Prop := ∀ w, ∃ r, a w = some r ∧ r.2.calls = w.calls

theorem Quiet.pure (x : α) : Quiet (pure x : Effect τ ω α) := fun w => ⟨(x, w), rfl, rfl⟩

theorem quiet_onStore (f : Store τ → α × Store τ) : Quiet (onStore f : Effect τ ω α) :=
  fun _ => ⟨_, rfl, rfl⟩

theorem Quiet.bind (ha : Quiet a) (hf : ∀ x, Quiet (f x)) : Quiet (a >>= f) := by
  intro w
  obtain ⟨r, hr, hcalls⟩ := ha w
  obtain ⟨r', hr', hcalls'⟩ := hf r.1 r.2
  refine ⟨r', ?_, hcalls'.trans hcalls⟩
  rw [bind_apply, hr, Option.bind_some, hr']

end Effect

def Handler.Unaware (run : Handler τ ω) : Prop := ∀ call, (run call).Unaware

def AsksOnce (op : Handler τ ω → Effect τ ω α) (w : World τ ω) : Prop :=
  (∃ r, r.2.calls = w.calls ∧ ∀ run, op run w = some r) ∨
    ∃ call v finish, v.calls = w.calls ++ [call] ∧ (∀ r, (finish r).2.calls = r.2.calls) ∧
      ∀ run, op run w = (run call v).map finish

theorem Effect.Quiet.asksOnce {a : Effect τ ω α} (ha : a.Quiet) (w : World τ ω) :
    AsksOnce (fun _ => a) w := by
  obtain ⟨r, hr, hcalls⟩ := ha w
  exact .inl ⟨r, hcalls, fun _ => hr⟩

/-- How an operation on proxies passes those that have no trap for it. -/
structure Forwards (select : Proxy τ → Option τ) (onProxy : Handler τ ω → Handle → Effect τ ω α)
    (onObject : Handle → Effect τ ω α) (w : World τ ω) : Prop where
  asks_once : ∀ x, AsksOnce (fun run => onProxy run x) w
  passes : ∀ (run : Handler τ ω) (x : Handle) (xs : List Handle) (t : Handle),
    w.store.Passes select (x :: xs) t →
      onProxy run x w =
        (if w.store.heap.isProxy t then onProxy run t else onObject t) (w.forwarded (xs.length + 1))
  apart : ∀ (run : Handler τ ω) (x : Handle) (xs : List Handle) (t : Handle), run.Unaware →
    w.store.Passes select (x :: xs) t →
      onProxy run x w =
        ((if w.store.heap.isProxy t then onProxy run t else onObject t) w).map fun r =>
          (r.1, r.2.forwarded (xs.length + 1))

namespace Proxy

open Effect

variable {w : World τ ω} {select : Proxy τ → Option τ} {x t : Handle} {xs : List Handle}

theorem forward_apply (select : Proxy τ → Option τ) (x : Handle) (w : World τ ω) :
    forward select x w = (w.store.land select x).map fun l => (l.2, w.forwarded l.1) := rfl

theorem forward_passes (hf : w.store.registry.Forward) (h : w.store.Passes select (x :: xs) t) :
    forward select x w =
      if w.store.heap.isProxy t then forward select t (w.forwarded (xs.length + 1))
      else some (.object t, w.forwarded (xs.length + 1)) := by
  rw [forward_apply, h.land_eq hf]
  split
  · rw [forward_apply, Option.map_map]
    have hland := w.store.land_forwarded (xs.length + 1) select t
    change _ = ((w.store.forwarded (xs.length + 1)).land select t).map _
    rw [hland]
    refine Option.map_congr fun l _ => ?_
    simp only [Function.comp_apply, World.forwarded, Store.forwarded_forwarded]
  · rfl

theorem unaware_forward (select : Proxy τ → Option τ) (x : Handle) :
    (forward select x : Effect τ ω (Landing τ)).Unaware := by
  intro w n
  have hland := w.store.land_forwarded n select x
  change ((w.store.forwarded n).land select x).map _ = _
  rw [hland, forward_apply, Option.map_map]
  refine Option.map_congr fun l _ => ?_
  change (l.2, (w.forwarded n).forwarded l.1) = (l.2, (w.forwarded l.1).forwarded n)
  simp only [World.forwarded, Store.forwarded_forwarded, Nat.add_comm]

theorem forwards_of_walk {follow : Handler τ ω → Landing τ → Effect τ ω α}
    {onObject : Handle → Effect τ ω α} (hf : w.store.registry.Forward)
    (hobject : ∀ run t, follow run (.object t) = onObject t)
    (hasks : ∀ landing v, AsksOnce (fun run => follow run landing) v)
    (hunaware : ∀ run : Handler τ ω, run.Unaware → ∀ landing, (follow run landing).Unaware) :
    Forwards select (fun run x => forward select x >>= follow run) onObject w := by
  have hpasses : ∀ (run : Handler τ ω) (x : Handle) (xs : List Handle) (t : Handle),
      w.store.Passes select (x :: xs) t →
        (forward select x >>= follow run) w =
          (if w.store.heap.isProxy t then forward select t >>= follow run else onObject t)
            (w.forwarded (xs.length + 1)) := by
    intro run x xs t h
    rw [bind_apply, forward_passes hf h]
    split
    · rfl
    · exact congrFun (hobject run t) _
  refine ⟨fun x => ?_, hpasses, fun run x xs t hrun h => ?_⟩
  · obtain ⟨l, hl⟩ := Store.land_ends hf select x
    have hop : ∀ run, (forward select x >>= follow run) w = follow run l.2 (w.forwarded l.1) := by
      intro run
      rw [bind_apply, forward_apply, hl]
      rfl
    rcases hasks l.2 (w.forwarded l.1) with ⟨r, hcalls, hr⟩ | ⟨call, v, finish, hv, hfinish, hr⟩
    · exact .inl ⟨r, hcalls, fun run => (hop run).trans (hr run)⟩
    · exact .inr ⟨call, v, finish, hv, hfinish, fun run => (hop run).trans (hr run)⟩
  · rw [hpasses run x xs t h]
    split
    · exact ((unaware_forward select t).bind fun landing => hunaware run hrun landing) w _
    · rw [← hobject run t]
      exact hunaware run hrun (.object t) w _

theorem asksOnce_callTrap {f : TrapReply → Effect τ ω α} (hf : ∀ reply, (f reply).Quiet)
    (call : TrapCall τ) (w : World τ ω) : AsksOnce (fun run => callTrap run call >>= f) w := by
  have hreply : ∀ r : TrapReply × World τ ω, ∃ r' : α × World τ ω,
      (do onRegistry (·.countTrap r.1.status); f r.1) r.2 = some r' ∧ r'.2.calls = r.2.calls :=
    fun r => (quiet_onStore _).bind (fun _ => hf r.1) r.2
  -- what is done with the reply asks nothing more, so it is a function of the reply
  choose finish hfinish hcalls using hreply
  refine .inr ⟨call, { w with calls := w.calls ++ [call] }, finish, rfl, hcalls, fun run => ?_⟩
  simp only [callTrap, bind_apply, log_apply, Option.bind_some, Option.bind_assoc]
  rw [Option.map_eq_bind]
  exact Option.bind_congr fun r _ => hfinish r

theorem quiet_settle (reply : TrapReply) (strict : Bool) :
    (settle reply strict : Effect τ ω Status).Quiet := by
  simp only [settle]
  split
  · exact .pure _
  · split
    · exact .pure _
    · exact (quiet_onStore _).bind fun _ => .pure _

theorem unaware_settle (reply : TrapReply) (strict : Bool) :
    (settle reply strict : Effect τ ω Status).Unaware := by
  simp only [settle]
  split
  · exact .pure _
  · split
    · exact .pure _
    · exact (unaware_onStore fun _ _ => rfl).bind fun _ => .pure _

theorem unaware_callTrap {run : Handler τ ω} (hrun : run.Unaware) (call : TrapCall τ) :
    (callTrap run call).Unaware := by
  refine (unaware_log call).bind fun _ => ?_
  refine (hrun call).bind fun reply => ?_
  refine (unaware_onStore fun s n => ?_).bind fun _ => .pure reply
  simp only [Store.forwarded, Registry.countForwards, Registry.countTrap]
  split <;> rfl

theorem forwards_set (hf : w.store.registry.Forward) (receiver : Handle) (k : PropertyKey)
    (v : Value) (strict : Bool) :
    Forwards Proxy.set? (fun run x => invokeSet run x receiver k v strict)
      (fun t => onHeap (·.setNamed t k v strict)) w := by
  refine forwards_of_walk hf (fun _ _ => rfl) (fun landing v => ?_) fun run hrun landing => ?_
  · cases landing with
    | refused status => exact (Quiet.pure status).asksOnce v
    | trapped trap target => exact asksOnce_callTrap (fun reply => quiet_settle reply strict) _ v
    | object target => exact (quiet_onStore _).asksOnce v
  · cases landing with
    | refused status => exact .pure status
    | trapped trap target =>
      exact (unaware_callTrap hrun _).bind fun reply => unaware_settle reply strict
    | object target => exact unaware_onHeap _

theorem forwards_get (hf : w.store.registry.Forward) (receiver : Handle) (k : PropertyKey) :
    Forwards Proxy.get? (fun run x => invokeGet run x receiver k)
      (fun t => onHeap (·.getNamed t k)) w := by
  refine forwards_of_walk hf (fun _ _ => rfl) (fun landing v => ?_) fun run hrun landing => ?_
  · cases landing with
    | refused status => exact (Quiet.pure _).asksOnce v
    | trapped trap target => exact asksOnce_callTrap (fun reply => .pure _) _ v
    | object target => exact (quiet_onStore _).asksOnce v
  · cases landing with
    | refused status => exact .pure _
    | trapped trap target => exact (unaware_callTrap hrun _).bind fun reply => .pure _
    | object target => exact unaware_onHeap _

theorem forwards_define (hf : w.store.registry.Forward) (k : PropertyKey) (v : Value) :
    Forwards Proxy.define? (fun run x => invokeDefine run x k v)
      (fun t => onHeap (·.defineOwn t k v)) w := by
  refine forwards_of_walk hf (fun _ _ => rfl) (fun landing v => ?_) fun run hrun landing => ?_
  · cases landing with
    | refused status => exact (Quiet.pure status).asksOnce v
    | trapped trap target => exact asksOnce_callTrap (fun reply => quiet_settle reply true) _ v
    | object target => exact (quiet_onStore _).asksOnce v
  · cases landing with
    | refused status => exact .pure status
    | trapped trap target =>
      exact (unaware_callTrap hrun _).bind fun reply => unaware_settle reply true
    | object target => exact unaware_onHeap _

end Proxy

/-- After any history that makes fewer objects than handles can name, targets never lead
back, and what passes proxies without traps is the access to the last target. -/
theorem Store.ReachedBelowLimit.forwarding {w : World τ ω} (hr : w.store.ReachedBelowLimit) :
    (∀ xs : List Handle, xs.IsChain w.store.registry.Leads → xs.Nodup) ∧
      (∀ select x, ∃ l, w.store.land select x = some l) ∧
      (∀ receiver k v strict,
        Forwards Proxy.set? (fun run x => Proxy.invokeSet run x receiver k v strict)
          (fun t => Effect.onHeap (·.setNamed t k v strict)) w) ∧
      (∀ receiver k,
        Forwards Proxy.get? (fun run x => Proxy.invokeGet run x receiver k)
          (fun t => Effect.onHeap (·.getNamed t k)) w) ∧
      ∀ k v,
        Forwards Proxy.define? (fun run x => Proxy.invokeDefine run x k v)
          (fun t => Effect.onHeap (·.defineOwn t k v)) w := by
  have hf : w.store.registry.Forward := hr.sound.forward
  exact ⟨hf, Store.land_ends hf, Proxy.forwards_set hf, Proxy.forwards_get hf,
    Proxy.forwards_define hf⟩

namespace Demonstration

def layering : List (StoreOp Unit) :=
  [.heap (.create [97] .null), .heap (.create [111] .null), .heap (.destroy ⟨0, 1⟩),
    .createProxy ⟨1, 1⟩ (some ()) none none, .createProxy ⟨0, 2⟩ none none none,
    .createProxy ⟨2, 1⟩ none none none]

def layered : World Unit Unit := { store := .after layering, outer := () }

def counting : Handler Unit Unit := fun _ => do
  Effect.onHeap fun h => ((), { h with tally := { h.tally with misses := h.tally.misses + 1 } })
  return { status := .notFound }

end Demonstration

open Demonstration

theorem Proxy.layered_get :
    layered.store.ReachedBelowLimit ∧ layered.store.Passes Proxy.get? [⟨3, 1⟩, ⟨2, 1⟩] ⟨0, 2⟩ ∧
      counting.Unaware ∧
      ∀ receiver k, invokeGet counting ⟨3, 1⟩ receiver k layered =
        (invokeGet counting ⟨0, 2⟩ receiver k layered).map fun r => (r.1, r.2.forwarded 2) := by
  have hr : layered.store.ReachedBelowLimit := ⟨layering, rfl, by decide⟩
  have hpasses : layered.store.Passes Proxy.get? [⟨3, 1⟩, ⟨2, 1⟩] ⟨0, 2⟩ :=
    .next rfl rfl rfl (by decide) (.last rfl rfl rfl)
  have hunaware : counting.Unaware := fun _ => (Effect.unaware_onHeap _).bind fun _ => .pure _
  refine ⟨hr, hpasses, hunaware, fun receiver k => ?_⟩
  obtain ⟨-, -, -, hget, -⟩ := Store.ReachedBelowLimit.forwarding hr
  have hproxy : layered.store.heap.isProxy ⟨0, 2⟩ = true := by decide
  have happart := (hget receiver k).apart counting ⟨3, 1⟩ [⟨2, 1⟩] ⟨0, 2⟩ hunaware hpasses
  rwa [if_pos hproxy] at happart

end InlineCache
