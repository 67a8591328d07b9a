import InlineCache.Proofs.Heap.Handles
import InlineCache.Proofs.Proxy.Registry

/-! Histories of heap and registry.
A proxy is a record under the handle of a shell in the heap. The registry makes and
destroys the two together, but the heap can destroy a shell by itself: only then does a
record stay behind. -/

namespace InlineCache

/-- An operation on heap or registry. An access through proxies is a list of them,
with those of its traps in between. -/
inductive StoreOp (τ : Type) where
  | heap (op : HeapOp)
  | createProxy (target : Handle) (get? set? define? : Option τ)
  | destroyProxy (x : Handle)
  | revoke (x : Handle)
  | countForwards (n : Nat)
  | countTrap (s : Status)
  | countRejection

variable {τ : Type}

def StoreOp.closes? : StoreOp τ → Option Handle
  | .destroyProxy x => some x
  | _ => none

namespace Store

def perform (s : Store τ) : StoreOp τ → Store τ
  | .heap op => { s with heap := (s.heap.perform op).2 }
  | .createProxy target get? set? define? => (s.createProxy { target, get?, set?, define? }).2
  | .destroyProxy x => (s.destroyProxy x).2
  | .revoke x => (s.revoke x).2
  | .countForwards n => { s with registry := s.registry.countForwards n }
  | .countTrap status => { s with registry := s.registry.countTrap status }
  | .countRejection => { s with registry := s.registry.countRejection }

def run (s : Store τ) (ops : List (StoreOp τ)) : Store τ := ops.foldl perform s

def after (ops : List (StoreOp τ)) : Store τ := ({} : Store τ).run ops

def Reached (s : Store τ) : Prop := ∃ ops, after ops = s

/-- Stores with a history that made fewer objects than handles can name. -/
def ReachedBelowLimit (s : Store τ) : Prop :=
  ∃ ops, after ops = s ∧ s.heap.tally.allocations < Heap.handleLimit

variable {s s' : Store τ} {x y : Handle} {p : Proxy τ} {op : StoreOp τ} {ops : List (StoreOp τ)}

theorem run_append (s : Store τ) (ops more : List (StoreOp τ)) :
    s.run (ops ++ more) = (s.run ops).run more := List.foldl_append ..

theorem after_snoc (ops : List (StoreOp τ)) (op : StoreOp τ) :
    after (ops ++ [op]) = (after ops).perform op := run_append _ ops [op]

theorem Reached.perform (hr : s.Reached) (op : StoreOp τ) : (s.perform op).Reached := by
  obtain ⟨ops, rfl⟩ := hr
  exact ⟨ops ++ [op], after_snoc ops op⟩

def shell : Object := { kind := .proxy, label := "proxy", prototype := .null }

inductive Step (s : Store τ) : Store τ → Prop
  | heap {h : Heap} (hc : Heap.Change s.heap h) : Step s { s with heap := h }
  | counted (t : ProxyTally) (ht : t.census = s.registry.tally.census) :
      Step s { s with registry := { s.registry with tally := t } }
  | opened (p : Proxy τ) (hp : s.heap.isLive p.target = true) :
      Step s ⟨(s.heap.occupy shell).2, s.registry.insert (s.heap.occupy shell).1 p⟩
  | closed (x : Handle) (hx : x ∈ s.registry.keys) :
      Step s ⟨(s.heap.destroy x).2, s.registry.erase x⟩
  | revoked (x : Handle) : Step s { s with registry := (s.registry.revoke x).2 }

theorem Step.refl (s : Store τ) : Step s s := .heap (.edit (.refl s.heap))

theorem createProxy_eq (hp : s.heap.isLive p.target = true) :
    (s.createProxy p).2 =
      ⟨(s.heap.occupy shell).2, s.registry.insert (s.heap.occupy shell).1 p⟩ := by
  rw [createProxy, if_pos hp]
  rfl

theorem createProxy_of_dead (hp : s.heap.isLive p.target = false) : (s.createProxy p).2 = s := by
  rw [createProxy, if_neg (ne_true_of_eq_false hp)]

theorem createProxy_step (s : Store τ) (p : Proxy τ) : Step s (s.createProxy p).2 := by
  cases hp : s.heap.isLive p.target with
  | true =>
    rw [createProxy_eq hp]
    exact .opened p hp
  | false =>
    rw [createProxy_of_dead hp]
    exact .refl s

theorem destroyProxy_step (s : Store τ) (x : Handle) : Step s (s.destroyProxy x).2 := by
  simp only [destroyProxy]
  cases hx : s.registry.record? x with
  | none => exact .refl s
  | some p => exact .closed x (Registry.mem_keys.2 ⟨p, hx⟩)

theorem countTrap_census (r : Registry τ) (status : Status) :
    (r.countTrap status).tally.census = r.tally.census := by
  simp only [Registry.countTrap]
  split <;> rfl

theorem perform_step (s : Store τ) (op : StoreOp τ) : Step s (s.perform op) := by
  cases op with
  | heap op => exact .heap (s.heap.perform_change op)
  | createProxy target get? set? define? => exact s.createProxy_step _
  | destroyProxy x => exact s.destroyProxy_step x
  | revoke x => exact .revoked x
  | countForwards n => exact .counted _ rfl
  | countTrap status => exact .counted _ (countTrap_census s.registry status)
  | countRejection => exact .counted _ rfl

theorem Step.change (hs : Step s s') : Heap.Change s.heap s'.heap := by
  cases hs with
  | heap hc => exact hc
  | counted t ht => exact .edit (.refl s.heap)
  | opened p hp => exact .opened .proxy "proxy" .null (.inl rfl)
  | closed x hx => exact s.heap.destroy_change x
  | revoked x => exact .edit (.refl s.heap)

theorem perform_heap (s : Store τ) (op : StoreOp τ) :
    (s.perform op).heap = s.heap ∨ ∃ hop, (s.perform op).heap = (s.heap.perform hop).2 := by
  cases op with
  | heap op => exact .inr ⟨op, rfl⟩
  | createProxy target get? set? define? =>
    cases hp : s.heap.isLive target with
    | true => exact .inr ⟨.createShell "proxy", congrArg Store.heap (createProxy_eq hp)⟩
    | false => exact .inl (congrArg Store.heap (createProxy_of_dead hp))
  | destroyProxy x =>
    simp only [perform, Store.destroyProxy]
    cases s.registry.record? x with
    | none => exact .inl rfl
    | some p => exact .inr ⟨.destroy x, rfl⟩
  | revoke | countForwards | countTrap | countRejection => exact .inl rfl

theorem Reached.heap (hr : s.Reached) : s.heap.Reached := by
  obtain ⟨ops, rfl⟩ := hr
  induction ops using List.reverseRecOn with
  | nil => exact ⟨[], rfl⟩
  | append_singleton ops op ih =>
    rw [after_snoc]
    rcases (after ops).perform_heap op with hsame | ⟨hop, hheap⟩
    · rw [hsame]
      exact ih
    · rw [hheap]
      exact ih.run [hop]

theorem Step.tallied (hs : Step s s') (hr : s.registry.Tallied) : s'.registry.Tallied := by
  cases hs with
  | heap hc => exact hr
  | counted t ht => exact hr.of_same rfl ht
  | opened p hp => exact hr.insert _ p
  | closed x hx => exact hr.erase hx
  | revoked x => exact hr.of_same (s.registry.keys_revoke x) (s.registry.revoke_census x)

theorem tallied_after (ops : List (StoreOp τ)) : (after ops).registry.Tallied := by
  induction ops using List.reverseRecOn with
  | nil => exact ⟨List.nodup_nil, le_refl _, rfl⟩
  | append_singleton ops op ih =>
    rw [after_snoc]
    exact ((after ops).perform_step op).tallied ih

structure Sound (s : Store τ) : Prop extends Registry.Tallied s.registry where
  heap : s.heap.Sound
  key_issued : ∀ x ∈ s.registry.keys, s.heap.Issued x
  kind_eq : ∀ x ∈ s.registry.keys, ∀ o, s.heap.find? x = some o → o.kind = .proxy
  length_eq : s.registry.tally.liveProxies = s.registry.records.length
  target_issued : ∀ x y, s.registry.Leads x y → s.heap.Issued y
  forward : s.registry.Forward

theorem sound_empty : ({} : Store τ).Sound where
  toTallied := tallied_after []
  heap := Heap.sound_empty
  key_issued x hx := absurd hx List.not_mem_nil
  kind_eq x hx := absurd hx List.not_mem_nil
  length_eq := rfl
  target_issued x y hxy := absurd hxy.mem_keys List.not_mem_nil
  forward xs hxs := by
    match xs, hxs with
    | [], _ => exact List.nodup_nil
    | [x], _ => exact List.nodup_singleton x
    | x :: y :: xs, hxs => exact absurd (List.isChain_cons_cons.1 hxs).1.mem_keys List.not_mem_nil

/-- A heap step keeps the kind of what it does not make, so a handle that was given out
for a shell denotes no other object later. -/
theorem kind_change {h h' : Heap} {kind : ObjectKind} (hs : h.Sound) (hc : Heap.Change h h')
    (hlimit : h'.tally.allocations < Heap.handleLimit) (hx : h.Issued x)
    (hk : ∀ o, h.find? x = some o → o.kind = kind) : ∀ o, h'.find? x = some o → o.kind = kind := by
  intro o ho
  cases hc with
  | edit he =>
    rcases he.find?_cases ho with hsame | ⟨o', ho', hstep⟩
    · exact hk o hsame
    · exact hstep.kind_eq.trans (hk o' ho')
  | opened kind label prototype hp =>
    rw [Heap.occupy_allocations] at hlimit
    have hne : x ≠ (h.occupy { kind, label, prototype }).1 := by
      rintro rfl
      exact hs.occupy_fresh hlimit _ hx
    rw [hs.find?_occupy hlimit, if_neg hne] at ho
    exact hk o ho
  | closed y q hy =>
    rw [Heap.find?_destroy hy] at ho
    split at ho
    · cases ho
    · exact hk o ho

/-- Every target was given out before the record was made, so none is its handle. -/
theorem Sound.target_issued_insert (hs : s.Sound) (hp : s.heap.isLive p.target = true) :
    ∀ y z, (s.registry.insert x p).Leads y z → s.heap.Issued z := by
  intro y z hyz
  rcases Registry.leads_insert hyz with ⟨-, rfl⟩ | hyz
  · exact Heap.issued_of_isLive hp
  · exact hs.target_issued y z hyz

theorem Sound.step (hs : s.Sound) (hstep : Step s s')
    (hlimit : s'.heap.tally.allocations < Heap.handleLimit) : s'.Sound := by
  have hc := hstep.change
  have htallied := hstep.tallied hs.toTallied
  have hheap := hs.heap.change hc hlimit
  have hissued := fun y => hs.heap.issued_change (y := y) hc hlimit
  have hkey := fun x hx => hissued x (hs.key_issued x hx)
  have hkind := fun x hx => kind_change hs.heap hc hlimit (hs.key_issued x hx) (hs.kind_eq x hx)
  -- what the heap keeps for old records is settled; the cases say what becomes of the records
  cases hstep with
  | heap hh =>
    exact ⟨htallied, hheap, hkey, hkind, hs.length_eq,
      fun x y hxy => hissued y (hs.target_issued x y hxy), hs.forward⟩
  | counted t ht =>
    exact ⟨htallied, hheap, hkey, hkind, (congrArg (·.1) ht).trans hs.length_eq,
      hs.target_issued, hs.forward⟩
  | opened p hp =>
    have hlimit' := hlimit
    rw [Heap.occupy_allocations] at hlimit'
    have hfresh := hs.heap.occupy_fresh hlimit' shell
    have hshell := (hs.heap.find?_occupy hlimit' shell _).trans (if_pos rfl)
    have htarget := hs.target_issued_insert (x := (s.heap.occupy shell).1) hp
    refine ⟨htallied, hheap, fun x hx => ?_, fun x hx o ho => ?_, ?_,
      fun x y hxy => hissued y (htarget x y hxy), ?_⟩
    · rcases Registry.mem_keys_insert.1 hx with rfl | hx
      · exact Heap.issued_of_find? hshell
      · exact hkey x hx
    · rcases Registry.mem_keys_insert.1 hx with rfl | hx
      · cases ho.symm.trans hshell
        rfl
      · exact hkind x hx o ho
    · have hnot : (s.heap.occupy shell).1 ∉ s.registry.keys :=
        fun hx => hfresh (hs.key_issued _ hx)
      exact (congrArg (· + 1) hs.length_eq).trans (Registry.length_insert hnot p).symm
    · -- the new handle was never given out before, so it is no target
      exact hs.forward.insert fun y hy => hfresh (htarget y _ hy)
  | closed x hx =>
    refine ⟨htallied, hheap, fun y hy => hkey y (Registry.mem_keys_erase.1 hy).1,
      fun y hy => hkind y (Registry.mem_keys_erase.1 hy).1, ?_,
      fun y z hyz => hissued z (hs.target_issued y z (Registry.leads_erase hyz)),
      hs.forward.mono fun _ _ => Registry.leads_erase⟩
    have hlength := hs.length_erase hx
    rw [← hs.length_eq] at hlength
    exact Nat.sub_eq_of_eq_add hlength.symm
  | revoked x =>
    have hkeys := s.registry.keys_revoke x
    refine ⟨htallied, hheap, fun y hy => hkey y (hkeys ▸ hy), fun y hy => hkind y (hkeys ▸ hy), ?_,
      fun y z hyz => hs.target_issued y z (Registry.leads_revoke hyz),
      hs.forward.mono fun _ _ => Registry.leads_revoke⟩
    rw [← Registry.length_keys, hkeys, Registry.length_keys, ← hs.length_eq]
    exact congrArg (·.1) (s.registry.revoke_census x)

theorem ReachedBelowLimit.sound (hr : s.ReachedBelowLimit) : s.Sound := by
  obtain ⟨ops, rfl, hlimit⟩ := hr
  induction ops using List.reverseRecOn with
  | nil => exact sound_empty
  | append_singleton ops op ih =>
    rw [after_snoc] at hlimit ⊢
    have hstep := (after ops).perform_step op
    exact (ih (hstep.change.allocations_le.trans_lt hlimit)).step hstep hlimit

/-- A shell is taken from its record by the heap's own operation only. -/
theorem Sound.lost_before (hs : s.Sound)
    (hlimit : (s.perform op).heap.tally.allocations < Heap.handleLimit)
    (hx : x ∈ (s.perform op).registry.keys) (hdead : (s.perform op).heap.isLive x = false)
    (hop : op ≠ .heap (.destroy x)) :
    x ∈ s.registry.keys ∧ s.heap.isLive x = false := by
  cases op with
  | heap op =>
    refine ⟨hx, eq_false_of_ne_true fun hlive => ?_⟩
    have hkept := (hs.heap.isLive_perform hlimit (y := x)).2 (.inr ⟨hlive, ?_⟩)
    · exact ne_true_of_eq_false hdead hkept
    · rintro rfl
      exact hop rfl
  | createProxy target get? set? define? =>
    let p : Proxy τ := { target, get?, set?, define? }
    have hperform : s.perform (.createProxy target get? set? define?) = (s.createProxy p).2 := rfl
    cases hp : s.heap.isLive target with
    | false =>
      rw [hperform, createProxy_of_dead hp] at hx hdead
      exact ⟨hx, hdead⟩
    | true =>
      rw [hperform, createProxy_eq hp] at hx hdead hlimit
      rw [Heap.occupy_allocations] at hlimit
      rw [Heap.isLive, hs.heap.find?_occupy hlimit] at hdead
      split at hdead
      · cases hdead
      · next hne => exact ⟨(Registry.mem_keys_insert.1 hx).resolve_left hne, hdead⟩
  | destroyProxy y =>
    simp only [perform, Store.destroyProxy] at hx hdead
    cases hy : s.registry.record? y with
    | none =>
      simp only [hy] at hx hdead
      exact ⟨hx, hdead⟩
    | some p =>
      simp only [hy] at hx hdead
      obtain ⟨hx, hne⟩ := Registry.mem_keys_erase.1 hx
      refine ⟨hx, ?_⟩
      cases ho : s.heap.find? y with
      | none => simpa only [Heap.destroy, ho] using hdead
      | some o => simpa only [Heap.isLive, Heap.find?_destroy ho, if_neg hne] using hdead
  | revoke y => exact ⟨s.registry.keys_revoke y ▸ hx, hdead⟩
  | countForwards | countTrap | countRejection => exact ⟨hx, hdead⟩

theorem destroyed_of_lost (hlimit : (after ops).heap.tally.allocations < Heap.handleLimit)
    (hx : x ∈ (after ops).registry.keys) (hdead : (after ops).heap.isLive x = false) :
    ∃ before rest, ops = before ++ .heap (.destroy x) :: rest ∧
      x ∈ (after before).registry.keys := by
  induction ops using List.reverseRecOn with
  | nil => exact absurd hx List.not_mem_nil
  | append_singleton ops op ih =>
    rw [after_snoc] at hlimit hx hdead
    have hlimit' := ((after ops).perform_step op).change.allocations_le.trans_lt hlimit
    by_cases hop : op = .heap (.destroy x)
    · subst hop
      exact ⟨ops, [], rfl, hx⟩
    · have hs : (after ops).Sound := ReachedBelowLimit.sound ⟨ops, rfl, hlimit'⟩
      obtain ⟨hx', hdead'⟩ := hs.lost_before hlimit hx hdead hop
      obtain ⟨before, rest, rfl, hbefore⟩ := ih hlimit' hx' hdead'
      exact ⟨before, rest ++ [op], by simp, hbefore⟩

/-- Each record has a live shell under its handle, unless the heap was told to destroy the
shell while the record was there. The counts agree with the records in any case. -/
theorem records_have_shells (ops : List (StoreOp τ)) :
    (after ops).registry.keys.Nodup ∧
      (after ops).registry.tally.liveProxies + (after ops).registry.tally.releases =
        (after ops).registry.tally.allocations ∧
      (after ops).registry.records.length ≤ (after ops).registry.tally.liveProxies ∧
      ((after ops).heap.tally.allocations < Heap.handleLimit →
        (after ops).registry.tally.liveProxies = (after ops).registry.records.length ∧
        ∀ x ∈ (after ops).registry.keys, (after ops).heap.isProxy x = true ∨
          (after ops).heap.isLive x = false ∧
            ∃ before rest, ops = before ++ .heap (.destroy x) :: rest ∧
              x ∈ (after before).registry.keys) := by
  have htallied := tallied_after ops
  refine ⟨htallied.keys_nodup, htallied.balance, htallied.length_le, fun hlimit => ?_⟩
  have hs : (after ops).Sound := ReachedBelowLimit.sound ⟨ops, rfl, hlimit⟩
  refine ⟨hs.length_eq, fun x hx => ?_⟩
  cases ho : (after ops).heap.find? x with
  | none =>
    have hdead := Heap.not_isLive_iff.2 ho
    exact .inr ⟨hdead, destroyed_of_lost hlimit hx hdead⟩
  | some o =>
    refine .inl ?_
    rw [Heap.isProxy, ho]
    exact decide_eq_true (hs.kind_eq x hx o ho)

end Store

namespace Demonstration

def orphaning : List (StoreOp Unit) :=
  [.heap (.create [111] .null), .createProxy ⟨0, 1⟩ none none none, .heap (.destroy ⟨1, 1⟩)]

end Demonstration

open Demonstration

theorem Store.orphan_is_counted :
    (after orphaning).heap.tally.allocations < Heap.handleLimit ∧
      (after orphaning).registry.tally.liveProxies = 1 ∧
      (after orphaning).registry.target ⟨1, 1⟩ = (.ok, ⟨0, 1⟩) ∧
      (after orphaning).heap.isLive ⟨1, 1⟩ = false ∧
      ∃ before rest, orphaning = before ++ .heap (.destroy ⟨1, 1⟩) :: rest ∧
        ⟨1, 1⟩ ∈ (after before).registry.keys := by
  have hlimit : (after orphaning).heap.tally.allocations < Heap.handleLimit := by decide
  obtain ⟨hlive, hshells⟩ := (records_have_shells orphaning).2.2.2 hlimit
  obtain hproxy | ⟨hdead, hlost⟩ := hshells ⟨1, 1⟩ (by decide)
  · exact absurd hproxy (by decide)
  · exact ⟨hlimit, hlive.trans (by decide), by decide, hdead, hlost⟩

/-- The heap's own operation leaves the record behind. -/
theorem Store.record_without_shell :
    ¬ ∀ ops : List (StoreOp Unit), (after ops).heap.tally.allocations < Heap.handleLimit →
      ∀ x ∈ (after ops).registry.keys, (after ops).heap.isProxy x = true := by
  intro h
  have hproxy := h orphaning (by decide) ⟨1, 1⟩ (by decide)
  exact absurd hproxy (by decide)

end InlineCache
