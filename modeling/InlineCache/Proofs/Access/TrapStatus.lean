import InlineCache.Proofs.Access.Sites
import InlineCache.Proofs.Proxy.Forwarding

/-! What a trap replies and what the caller gets.
An access on a proxy calls the trap that its walk ends in. The caller gets the status of
the reply, whatever the call site has learned, but where a read takes what is not found
for undefined. -/

namespace InlineCache

variable {τ ω β : Type}

def World.entered (w : World τ ω) (n : Nat) (call : TrapCall τ) : World τ ω :=
  { w.forwarded n with calls := w.calls ++ [call] }

namespace Flags

def trap? (flags : Flags) (p : Proxy τ) : Option τ :=
  if flags.definitionOnly then p.define? else p.set?

def call (flags : Flags) (trap : τ) (target receiver : Handle) (k : PropertyKey) (v : Value) :
    TrapCall τ :=
  if flags.definitionOnly then .define trap target k v else .set trap target receiver k v

end Flags

open Effect

namespace Proxy

variable {run : Handler τ ω} {w v : World τ ω} {call : TrapCall τ} {reply : TrapReply}

theorem callTrap_of_reply {n : Nat} (hreply : run call (w.entered n call) = some (reply, v)) :
    ∃ v', callTrap run call (w.forwarded n) = some (reply, v') := by
  refine ⟨{ v with store := {
    v.store with registry := v.store.registry.countTrap reply.status } }, ?_⟩
  have hlogged : run call { w.forwarded n with calls := (w.forwarded n).calls ++ [call] } =
      some (reply, v) := hreply
  rw [callTrap, bind_apply, log_apply, Option.bind_some, bind_apply, hlogged]
  rfl

theorem settle_failure (hs : reply.status ≠ .ok) (strict : Bool) (w : World τ ω) :
    settle reply strict w = some (reply.status, w) := by
  simp [settle, hs]

end Proxy

namespace Dispatch

variable {run : Handler τ ω} {w v : World τ ω} {proxy target : Handle} {key : Value} {trap : τ}
  {n : Nat} {reply : TrapReply}

/-- A definition on a proxy and an assignment differ in the trap they ask for and in what
they ask it. -/
theorem setOnProxy_eq (run : Handler τ ω) (flags : Flags) (proxy : Handle) (v : Value)
    (receiver : Handle) (hc : key.classify.needsCoercion = false) :
    setOnProxy run flags proxy key v receiver =
      Proxy.forward flags.trap? proxy >>= fun
        | .refused status => pure status
        | .trapped trap target => do
          let reply ← Proxy.callTrap run
            (flags.call trap target (receiver.orElse proxy) key.propertyKey v)
          Proxy.settle reply (flags.definitionOnly || flags.strict)
        | .object target => setName flags target key.propertyKey v := by
  obtain ⟨strict, definitionOnly⟩ := flags
  simp only [setOnProxy, hc]
  cases definitionOnly with
  | true =>
    refine congrArg (Proxy.forward Proxy.define? proxy >>= ·) (funext fun landing => ?_)
    cases landing <;> rfl
  | false =>
    refine congrArg (Proxy.forward Proxy.set? proxy >>= ·) (funext fun landing => ?_)
    cases landing <;> rfl

theorem setOnProxy_failure (flags : Flags) (value : Value) (receiver : Handle)
    (hc : key.classify.needsCoercion = false)
    (hland : w.store.land flags.trap? proxy = some (n, .trapped trap target))
    (hreply :
      let call := flags.call trap target (receiver.orElse proxy) key.propertyKey value
      run call (w.entered n call) = some (reply, v))
    (hs : reply.status ≠ .ok) :
    ∃ v', setOnProxy run flags proxy key value receiver w = some (reply.status, v') := by
  obtain ⟨v', hcall⟩ := Proxy.callTrap_of_reply hreply
  refine ⟨v', ?_⟩
  simp only [setOnProxy_eq run flags proxy value receiver hc, bind_apply, Proxy.forward_apply,
    hland, Option.map_some, Option.bind_some, hcall, Proxy.settle_failure hs]

theorem getOnProxy_reply (receiver : Handle) (held : Value)
    (hc : key.classify.needsCoercion = false)
    (hland : w.store.land Proxy.get? proxy = some (n, .trapped trap target))
    (hreply :
      let call := .get trap target (receiver.orElse proxy) key.propertyKey
      run call (w.entered n call) = some (reply, v)) :
    ∃ v', getOnProxy run proxy key receiver held w =
      some (missingAsUndefined (reply.status, reply.value), v') := by
  obtain ⟨v', hcall⟩ := Proxy.callTrap_of_reply hreply
  refine ⟨v', ?_⟩
  simp only [getOnProxy, hc, Bool.false_eq_true, if_false, Proxy.invokeGet, bind_apply,
    Proxy.forward_apply, hland, Option.map_some, Option.bind_some, hcall, pure_apply]

end Dispatch

/-- The caller of an access on a proxy gets the status of the trap that the access calls,
on the proxy itself or past proxies without that trap. A read that finds nothing gets
undefined for it. -/
theorem Site.trap_status_returned {run : Handler τ (Surroundings β)} {w : World τ (Surroundings β)}
    {name : Text} {target : Handle} {key : Value} (hc : key.classify.needsCoercion = false)
    (hproxy : w.store.heap.isProxy target = true) (v : Value) (receiver : Handle) :
    (∀ s n trap t, w.outer.table.typed? .write name = .ok s →
      w.store.land s.flags.trap? target = some (n, .trapped trap t) →
      let call := s.flags.call trap t (receiver.orElse target) key.propertyKey v
      ∀ reply w', run call ((w.learned name s target key).entered n call) = some (reply, w') →
        reply.status ≠ .ok →
        ∃ w'', Site.set run name target key v receiver w = some (.ok reply.status, w'')) ∧
    (∀ s n trap t, w.outer.table.typed? .read name = .ok s →
      w.store.land Proxy.get? target = some (n, .trapped trap t) →
      let call := .get trap t (receiver.orElse target) key.propertyKey
      ∀ reply w', run call ((w.learned name s target key).entered n call) = some (reply, w') →
        ∃ w'', Site.get run name target key receiver w =
          some (.ok (if reply.status = .notFound then (.ok, .undefined)
            else (reply.status, reply.value)), w'')) := by
  constructor
  · intro s n trap t hs hland call reply w' hreply hstatus
    obtain ⟨v', hset⟩ := Dispatch.setOnProxy_failure s.flags v receiver hc
      (w := w.learned name s target key) hland hreply hstatus
    refine ⟨v'.withSite name (·.complete reply.status), ?_⟩
    have hlearned : (w.learned name s target key).store.heap.isProxy target = true := hproxy
    rw [Site.set_apply hs hc, Dispatch.set_of_proxy run s.flags key v receiver hlearned, hset]
    rfl
  · intro s n trap t hs hland call reply w' hreply
    obtain ⟨v', hget⟩ := Dispatch.getOnProxy_reply receiver .undefined hc
      (w := w.learned name s target key) hland hreply
    refine ⟨v'.withSite name (·.complete (missingAsUndefined (reply.status, reply.value)).1), ?_⟩
    have hlearned : (w.learned name s target key).store.heap.isProxy target = true := hproxy
    rw [Site.get_apply hs hc, Dispatch.get_of_proxy run key receiver hlearned, hget]
    rfl

namespace Demonstration

def lookups : Site := .new .read [114] {} .unknown {}

def updates : Site := .new .write [119] {} .unknown {}

def absent : Handler Unit (Surroundings Unit) := fun _ => return ⟨.notFound, .int32 1, true⟩

def guarded : World Unit (Surroundings Unit) where
  store := .after [.heap (.create [111] .null), .createProxy ⟨0, 1⟩ (some ()) (some ()) none,
    .createProxy ⟨1, 1⟩ none none none]
  outer := { table := { sites := [([114], lookups), ([119], updates)] }, other := () }

end Demonstration

open Demonstration

theorem Site.absent_reply_returned :
    guarded.outer.table.typed? .write [119] = .ok updates ∧
      guarded.store.land updates.flags.trap? ⟨2, 1⟩ = some (1, .trapped () ⟨0, 1⟩) ∧
      ∃ w, Site.set absent [119] ⟨2, 1⟩ (.string [120]) (.int32 1) .null guarded =
        some (.ok .notFound, w) := by
  have hsite : guarded.outer.table.typed? .write [119] = .ok updates := rfl
  have hland : guarded.store.land updates.flags.trap? ⟨2, 1⟩ = some (1, .trapped () ⟨0, 1⟩) := rfl
  have hproxy : guarded.store.heap.isProxy ⟨2, 1⟩ = true := by decide
  have hc : (Value.string [120]).classify.needsCoercion = false := rfl
  obtain ⟨hwrite, -⟩ :=
    @Site.trap_status_returned _ _ absent guarded [119] _ _ hc hproxy (.int32 1) .null
  exact ⟨hsite, hland, hwrite updates 1 () ⟨0, 1⟩ hsite hland _ _ rfl nofun⟩

/-- A read does not give back that its trap found nothing. -/
theorem Site.absent_reply_read_as_undefined :
    guarded.store.land Proxy.get? ⟨1, 1⟩ = some (0, .trapped () ⟨0, 1⟩) ∧
      (∀ call w, ∃ reply, absent call w = some (reply, w) ∧ reply.status = .notFound) ∧
      (Site.get absent [114] ⟨1, 1⟩ (.string [120]) .null guarded).map Prod.fst =
        some (.ok (.ok, .undefined)) :=
  ⟨rfl, fun _ _ => ⟨_, rfl, rfl⟩, rfl⟩

end InlineCache
