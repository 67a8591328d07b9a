import InlineCache.Proofs.Lookup
import InlineCache.Proxy.Registry
import Mathlib.Data.List.Chain
import Mathlib.Data.List.Nodup

/-! The records of the registry.
A step changes the record of one handle. What the steps keep is told by the keys of the
records and by the targets they lead to. -/

namespace InlineCache

variable {τ : Type}

def ProxyTally.census (t : ProxyTally) : Nat × Nat × Nat :=
  (t.liveProxies, t.allocations, t.releases)

namespace Registry

variable {r : Registry τ} {x y z : Handle} {p q : Proxy τ}

def keys (r : Registry τ) : List Handle := r.records.map (·.1)

def Leads (r : Registry τ) (x y : Handle) : Prop := ∃ p, r.open? x = .ok p ∧ p.target = y

theorem mem_keys : x ∈ r.keys ↔ ∃ p, r.record? x = some p := mem_keys_iff

theorem open?_eq_ok : r.open? x = .ok p ↔ r.record? x = some p ∧ p.revoked = false := by
  simp only [open?]
  cases r.record? x with
  | none => simp
  | some q =>
    simp only [Option.some.injEq]
    split
    · next hq =>
      constructor
      · nofun
      · rintro ⟨rfl, hp⟩
        rw [hp] at hq
        cases hq
    · next hq =>
      rw [Except.ok.injEq]
      refine ⟨?_, And.left⟩
      rintro rfl
      exact ⟨rfl, eq_false_of_ne_true hq⟩

theorem Leads.mem_keys (h : r.Leads x y) : x ∈ r.keys := by
  obtain ⟨p, hp, -⟩ := h
  exact Registry.mem_keys.2 ⟨p, (open?_eq_ok.1 hp).1⟩

theorem record?_insert (r : Registry τ) (x : Handle) (p : Proxy τ) (y : Handle) :
    (r.insert x p).record? y = if y = x then some p else r.record? y := by
  simp only [record?, insert, List.lookup_cons]
  by_cases hy : y = x
  · simp [hy]
  · simp only [beq_false_of_ne hy, lookup_filter_ne, if_neg hy]

theorem record?_erase (r : Registry τ) (x y : Handle) :
    (r.erase x).record? y = if y = x then none else r.record? y :=
  lookup_filter_ne r.records x y

theorem revoke_records (hx : r.record? x = some p) (hp : p.revoked = false) :
    (r.revoke x).2.records = r.records.map fun e =>
      if e.1 = x then (e.1, { target := .null, revoked := true }) else e := by
  simp only [revoke, hx, hp, Bool.false_eq_true, if_false]
  refine List.map_congr_left fun e _ => ?_
  split
  · next he => rw [he]
  · rfl

theorem open?_revoke (h : (r.revoke x).2.open? y = .ok q) : r.open? y = .ok q := by
  cases hx : r.record? x with
  | none => simpa only [revoke, hx] using h
  | some p =>
    cases hp : p.revoked with
    | true => simpa only [revoke, hx, hp, if_true] using h
    | false =>
      obtain ⟨hy, hq⟩ := open?_eq_ok.1 h
      rw [record?, revoke_records hx hp, lookup_map_at r.records x y fun _ => _] at hy
      split at hy
      · obtain ⟨-, -, rfl⟩ := Option.map_eq_some_iff.1 hy
        cases hq
      · exact open?_eq_ok.2 ⟨hy, hq⟩

theorem keys_insert (r : Registry τ) (x : Handle) (p : Proxy τ) :
    (r.insert x p).keys = x :: (r.erase x).keys := rfl

theorem keys_erase (r : Registry τ) (x : Handle) :
    (r.erase x).keys = r.keys.filter fun y => decide (y ≠ x) := by
  simp only [keys, erase, List.filter_map]
  rfl

theorem keys_revoke (r : Registry τ) (x : Handle) : (r.revoke x).2.keys = r.keys := by
  cases hx : r.record? x with
  | none => simp only [revoke, hx]
  | some p =>
    cases hp : p.revoked with
    | true => simp only [revoke, hx, hp, if_true]
    | false =>
      simp only [keys, revoke_records hx hp, List.map_map]
      refine List.map_congr_left fun e _ => ?_
      simp only [Function.comp_apply]
      split <;> rfl

theorem revoke_census (r : Registry τ) (x : Handle) :
    (r.revoke x).2.tally.census = r.tally.census := by
  simp only [revoke]
  split
  · rfl
  · split <;> rfl

theorem leads_insert (h : (r.insert x p).Leads y z) : y = x ∧ p.target = z ∨ r.Leads y z := by
  obtain ⟨q, hq, hz⟩ := h
  obtain ⟨hrec, hq⟩ := open?_eq_ok.1 hq
  rw [record?_insert] at hrec
  split at hrec
  · next hy =>
    cases hrec
    exact .inl ⟨hy, hz⟩
  · exact .inr ⟨q, open?_eq_ok.2 ⟨hrec, hq⟩, hz⟩

theorem leads_erase (h : (r.erase x).Leads y z) : r.Leads y z := by
  obtain ⟨q, hq, hz⟩ := h
  obtain ⟨hrec, hq⟩ := open?_eq_ok.1 hq
  rw [record?_erase] at hrec
  split at hrec
  · cases hrec
  · exact ⟨q, open?_eq_ok.2 ⟨hrec, hq⟩, hz⟩

theorem leads_revoke (h : (r.revoke x).2.Leads y z) : r.Leads y z := by
  obtain ⟨q, hq, hz⟩ := h
  exact ⟨q, open?_revoke hq, hz⟩

structure Tallied (r : Registry τ) : Prop where
  keys_nodup : r.keys.Nodup
  length_le : r.records.length ≤ r.tally.liveProxies
  balance : r.tally.liveProxies + r.tally.releases = r.tally.allocations

theorem length_keys (r : Registry τ) : r.keys.length = r.records.length := List.length_map ..

theorem mem_keys_erase : y ∈ (r.erase x).keys ↔ y ∈ r.keys ∧ y ≠ x := by
  simp [keys_erase]

theorem mem_keys_insert : y ∈ (r.insert x p).keys ↔ y = x ∨ y ∈ r.keys := by
  rw [keys_insert, List.mem_cons, mem_keys_erase]
  by_cases hy : y = x <;> simp [hy]

theorem Tallied.keys_erase (hr : r.Tallied) (x : Handle) : (r.erase x).keys = r.keys.erase x := by
  rw [Registry.keys_erase, hr.keys_nodup.erase_eq_filter]
  refine List.filter_congr fun y _ => ?_
  rw [bne, beq_eq_decide, decide_not]

theorem length_insert (hx : x ∉ r.keys) (p : Proxy τ) :
    (r.insert x p).records.length = r.records.length + 1 := by
  rw [← length_keys, keys_insert, List.length_cons, Registry.keys_erase, ← length_keys]
  congr 2
  exact List.filter_eq_self.2 fun y hy => decide_eq_true (ne_of_mem_of_not_mem hy hx)

theorem Tallied.length_erase (hr : r.Tallied) (hx : x ∈ r.keys) :
    (r.erase x).records.length + 1 = r.records.length := by
  rw [← length_keys, hr.keys_erase, List.length_erase_of_mem hx, length_keys]
  have hpos := List.length_pos_of_mem hx
  rw [length_keys] at hpos
  omega

theorem Tallied.insert (hr : r.Tallied) (x : Handle) (p : Proxy τ) : (r.insert x p).Tallied where
  keys_nodup := by
    rw [keys_insert, List.nodup_cons]
    refine ⟨fun hx => (mem_keys_erase.1 hx).2 rfl, ?_⟩
    rw [hr.keys_erase]
    exact hr.keys_nodup.erase x
  length_le := by
    have hfilter := List.length_filter_le (fun e => decide (e.1 ≠ x)) r.records
    have hle := hr.length_le
    simp only [Registry.insert, List.length_cons]
    omega
  balance := by
    have hbalance := hr.balance
    simp only [Registry.insert]
    omega

theorem Tallied.erase (hr : r.Tallied) (hx : x ∈ r.keys) : (r.erase x).Tallied where
  keys_nodup := by
    rw [hr.keys_erase]
    exact hr.keys_nodup.erase x
  length_le := by
    have hlength := hr.length_erase hx
    have hle := hr.length_le
    simp only [Registry.erase] at hlength ⊢
    omega
  balance := by
    have hlength := hr.length_erase hx
    have hle := hr.length_le
    have hbalance := hr.balance
    simp only [Registry.erase]
    omega

theorem Tallied.of_same {r' : Registry τ} (hr : r.Tallied) (hkeys : r'.keys = r.keys)
    (ht : r'.tally.census = r.tally.census) : r'.Tallied := by
  simp only [ProxyTally.census, Prod.mk.injEq] at ht
  obtain ⟨hlive, hallocations, hreleases⟩ := ht
  constructor
  · rw [hkeys]
    exact hr.keys_nodup
  · rw [← length_keys, hkeys, length_keys, hlive]
    exact hr.length_le
  · rw [hlive, hreleases, hallocations]
    exact hr.balance

def Forward (r : Registry τ) : Prop := ∀ xs : List Handle, xs.IsChain r.Leads → xs.Nodup

theorem Forward.mono {r' : Registry τ} (hr : r.Forward)
    (h : ∀ x y, r'.Leads x y → r.Leads x y) : r'.Forward :=
  fun xs hxs => hr xs (hxs.imp fun x y => h x y)

theorem exists_rel_of_mem_tail {α : Type} {R : α → α → Prop} {a b : α} {l : List α}
    (h : (a :: l).IsChain R) (hb : b ∈ l) : ∃ c, R c b := by
  induction l generalizing a with
  | nil => cases hb
  | cons c l ih =>
    rw [List.isChain_cons_cons] at h
    rcases List.mem_cons.1 hb with rfl | hb
    · exact ⟨a, h.1⟩
    · exact ih h.2 hb

/-- A new record leads away from its handle when nothing has that for its target. -/
theorem Forward.insert (hr : r.Forward) (hx : ∀ y, ¬ (r.insert x p).Leads y x) :
    (r.insert x p).Forward := by
  have hold : ∀ xs : List Handle, xs.IsChain (r.insert x p).Leads → x ∉ xs → xs.Nodup := by
    intro xs hxs hnot
    refine hr xs (hxs.imp_of_mem_imp ?_)
    intro y z hy _ hyz
    exact (leads_insert hyz).resolve_left fun h => ne_of_mem_of_not_mem hy hnot h.1
  intro xs hxs
  cases xs with
  | nil => exact List.nodup_nil
  | cons y ys =>
    -- the handle of the new record can stand at the head only
    have hys : x ∉ ys := by
      intro hin
      obtain ⟨z, hz⟩ := exists_rel_of_mem_tail hxs hin
      exact hx z hz
    by_cases hy : x = y
    · subst hy
      exact List.nodup_cons.2 ⟨hys, hold ys hxs.of_cons hys⟩
    · exact hold _ hxs fun hin => (List.mem_cons.1 hin).elim hy hys

end Registry

end InlineCache
