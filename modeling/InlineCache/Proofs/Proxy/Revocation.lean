import InlineCache.Proofs.Proxy.Forwarding

/-! Revoked proxies.
A proxy that was revoked is revoked until the registry destroys it: nothing gives its record
a target or a trap again, and no other proxy comes under its handle. An access to it is
refused before anything is called or counted. -/

namespace InlineCache

variable {τ ω : Type}

namespace Registry

variable {r : Registry τ} {x y : Handle} {p : Proxy τ}

theorem isRevoked_iff : r.isRevoked x = true ↔ ∃ p, r.record? x = some p ∧ p.revoked = true :=
  Option.any_eq_true ..

theorem mem_keys_of_isRevoked (hx : r.isRevoked x = true) : x ∈ r.keys := by
  obtain ⟨p, hp, -⟩ := isRevoked_iff.1 hx
  exact mem_keys.2 ⟨p, hp⟩

theorem open?_of_isRevoked (hx : r.isRevoked x = true) : r.open? x = .error .typeError := by
  obtain ⟨p, hp, hrevoked⟩ := isRevoked_iff.1 hx
  simp only [open?, hp, hrevoked, if_true]

theorem mem_keys_of_revoke (h : (r.revoke x).1 = .ok) : x ∈ r.keys := by
  simp only [revoke] at h
  cases hx : r.record? x with
  | none => simp [hx] at h
  | some p => exact mem_keys.2 ⟨p, hx⟩

theorem isRevoked_insert (hne : x ≠ y) (p : Proxy τ) :
    (r.insert y p).isRevoked x = r.isRevoked x := by
  rw [isRevoked, record?_insert, if_neg hne]
  rfl

theorem isRevoked_erase (hne : x ≠ y) : (r.erase y).isRevoked x = r.isRevoked x := by
  rw [isRevoked, record?_erase, if_neg hne]
  rfl

theorem isRevoked_revoke :
    (r.revoke y).2.isRevoked x = true ↔ r.isRevoked x = true ∨ x = y ∧ x ∈ r.keys := by
  cases hy : r.record? y with
  | none =>
    have hnone : ¬ (x = y ∧ x ∈ r.keys) := by
      rintro ⟨rfl, hx⟩
      obtain ⟨p, hp⟩ := mem_keys.1 hx
      cases hy.symm.trans hp
    simp only [revoke, hy, hnone, or_false]
  | some p =>
    have hkeys : x = y ∧ x ∈ r.keys ↔ x = y :=
      and_iff_left_of_imp fun hxy => mem_keys.2 ⟨p, hxy ▸ hy⟩
    rw [hkeys]
    cases hp : p.revoked with
    | true =>
      have hrevoked : x = y → r.isRevoked x = true := by
        rintro rfl
        exact isRevoked_iff.2 ⟨p, hy, hp⟩
      simp only [revoke, hy, hp, if_true, or_iff_left_of_imp hrevoked]
    | false =>
      rw [isRevoked, record?, revoke_records hy hp, lookup_map_at r.records y x fun _ => _]
      split
      · next hxy =>
        subst hxy
        have hx : r.records.lookup x = some p := hy
        simp [hx]
      · next hxy => exact (or_iff_left hxy).symm

end Registry

namespace Store

variable {s s' s'' : Store τ} {x : Handle} {op : StoreOp τ}

def Sparing (x : Handle) (s s' : Store τ) : Prop :=
  ∃ ops, (∀ op ∈ ops, op ≠ .destroyProxy x) ∧ s.run ops = s'

theorem Sparing.refl (x : Handle) (s : Store τ) : s.Sparing x s := ⟨[], nofun, rfl⟩

theorem Sparing.trans (h : s.Sparing x s') (h' : s'.Sparing x s'') : s.Sparing x s'' := by
  obtain ⟨ops, hops, rfl⟩ := h
  obtain ⟨more, hmore, rfl⟩ := h'
  exact ⟨ops ++ more, List.forall_mem_append.2 ⟨hops, hmore⟩, s.run_append ops more⟩

theorem sparing_perform (hop : op ≠ .destroyProxy x) (s : Store τ) :
    s.Sparing x (s.perform op) :=
  ⟨[op], List.forall_mem_singleton.2 hop, rfl⟩

/-- A new record comes under a handle that was never given out, so under no handle of a
revoked proxy. -/
theorem Sound.revoked_perform (hs : s.Sound) (hop : op ≠ .destroyProxy x)
    (hlimit : (s.perform op).heap.tally.allocations < Heap.handleLimit)
    (hx : s.registry.isRevoked x = true) : (s.perform op).registry.isRevoked x = true := by
  cases op with
  | heap op => exact hx
  | createProxy target get? set? define? =>
    let p : Proxy τ := { target, get?, set?, define? }
    have hperform : s.perform (.createProxy target get? set? define?) = (s.createProxy p).2 := rfl
    rw [hperform] at hlimit ⊢
    cases hp : s.heap.isLive target with
    | false => rwa [createProxy_of_dead hp]
    | true =>
      rw [createProxy_eq hp] at hlimit ⊢
      rw [Heap.occupy_allocations] at hlimit
      have hne : x ≠ (s.heap.occupy shell).1 := by
        rintro rfl
        exact hs.heap.occupy_fresh hlimit _ (hs.key_issued _ (Registry.mem_keys_of_isRevoked hx))
      exact (Registry.isRevoked_insert hne p).trans hx
  | destroyProxy y =>
    simp only [perform, destroyProxy]
    cases s.registry.record? y with
    | none => exact hx
    | some p =>
      have hne : x ≠ y := fun hxy => hop (congrArg StoreOp.destroyProxy hxy.symm)
      exact (Registry.isRevoked_erase hne).trans hx
  | revoke y => exact Registry.isRevoked_revoke.2 (.inl hx)
  | countForwards | countTrap | countRejection => exact hx

theorem Reached.run (hr : s.Reached) (more : List (StoreOp τ)) : (s.run more).Reached := by
  obtain ⟨ops, rfl⟩ := hr
  exact ⟨ops ++ more, run_append _ ops more⟩

theorem Reached.sound (hr : s.Reached) (hlimit : s.heap.tally.allocations < Heap.handleLimit) :
    s.Sound := by
  obtain ⟨ops, rfl⟩ := hr
  exact ReachedBelowLimit.sound ⟨ops, rfl, hlimit⟩

theorem Sparing.reached (h : s.Sparing x s') (hr : s.Reached) : s'.Reached := by
  obtain ⟨ops, -, rfl⟩ := h
  exact hr.run ops

theorem Reached.revoked_stays (hr : s.Reached) (hx : s.registry.isRevoked x = true)
    (h : s.Sparing x s') (hlimit : s'.heap.tally.allocations < Heap.handleLimit) :
    s'.registry.isRevoked x = true := by
  obtain ⟨ops, hops, rfl⟩ := h
  induction ops using List.reverseRecOn with
  | nil => exact hx
  | append_singleton ops op ih =>
    obtain ⟨hops, hop⟩ := List.forall_mem_append.1 hops
    have hrun : s.run (ops ++ [op]) = (s.run ops).perform op := s.run_append ops [op]
    rw [hrun] at hlimit ⊢
    have hlimit' := ((s.run ops).perform_step op).change.allocations_le.trans_lt hlimit
    exact ((hr.run ops).sound hlimit').revoked_perform (hop op (List.mem_singleton_self op)) hlimit
      (ih hops hlimit')

end Store

section Refusal

variable {w : World τ ω} {x : Handle} (hx : w.store.registry.isRevoked x = true)
  (run : Handler τ ω)

include hx

namespace Proxy

theorem forward_revoked (select : Proxy τ → Option τ) :
    forward select x w = some (.refused .typeError, w) := by
  have hvisit : w.store.visit select x = .inl (0, .refused .typeError) := by
    rw [Store.visit, Registry.open?_of_isRevoked hx]
  rw [forward_apply, Store.land_last hvisit]
  rfl

theorem invokeSet_revoked (receiver : Handle) (k : PropertyKey) (v : Value) (strict : Bool) :
    invokeSet run x receiver k v strict w = some (.typeError, w) := by
  rw [invokeSet, Effect.bind_apply, forward_revoked hx]
  rfl

theorem invokeGet_revoked (receiver : Handle) (k : PropertyKey) :
    invokeGet run x receiver k w = some ((.typeError, .undefined), w) := by
  rw [invokeGet, Effect.bind_apply, forward_revoked hx]
  rfl

theorem invokeDefine_revoked (k : PropertyKey) (v : Value) :
    invokeDefine run x k v w = some (.typeError, w) := by
  rw [invokeDefine, Effect.bind_apply, forward_revoked hx]
  rfl

end Proxy

namespace Dispatch

variable {key : Value} (hp : w.store.heap.isProxy x = true)
  (hc : key.classify.needsCoercion = false)

include hp hc

theorem set_revoked (flags : Flags) (v : Value) (receiver : Handle) :
    set run flags x key v receiver w = some (.typeError, w) := by
  rw [set_of_proxy run flags key v receiver hp, setOnProxy, if_neg (ne_true_of_eq_false hc)]
  split
  · exact Proxy.invokeDefine_revoked hx run _ v
  · exact Proxy.invokeSet_revoked hx run _ _ v _

theorem get_revoked (receiver : Handle) :
    get run x key receiver w = some ((.typeError, .undefined), w) := by
  rw [get_of_proxy run key receiver hp, getOnProxy, if_neg (ne_true_of_eq_false hc),
    Effect.bind_apply, Proxy.invokeGet_revoked hx]
  rfl

end Dispatch

end Refusal

end InlineCache
