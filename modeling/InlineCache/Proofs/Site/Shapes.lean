import InlineCache.Proofs.Site.Life
import Mathlib.Data.List.Dedup
import Mathlib.Data.List.Perm.Basic

/-! The chain of a call site in closed form. A chain tells accesses apart by their shape
alone, so it holds one entry for each shape it has met, in whatever order it met them,
until there are more shapes than its depth or one that no entry can serve. -/

namespace InlineCache

inductive Shape where
  | proxy
  | name (k : PropertyKey)
  | index
  | unservable
deriving DecidableEq

def Probe.shape (p : Probe) : Shape :=
  if p.onProxy then .proxy
  else
    match p.key with
    | .string s => if s.index?.isSome then .index else .name (.name s)
    | .symbol id => .name (.symbol id)
    | key => if key.classify.index?.isSome then .index else .unservable

namespace Shape

def entry (native : Bool) : Shape → Entry
  | .proxy => .proxyTarget
  | .name k => .cachedName k
  | .index => if native then .indexFast else .indexGeneral
  | .unservable => .generic

theorem entry_of_ne_index {c : Shape} (h : c ≠ .index) (native native' : Bool) :
    c.entry native = c.entry native' := by
  cases c with
  | index => exact absurd rfl h
  | _ => rfl

theorem entry_ne_generic {c : Shape} (h : c ≠ .unservable) (native : Bool) :
    c.entry native ≠ .generic := by
  cases c with
  | unservable => exact absurd rfl h
  | index => cases native <;> nofun
  | _ => nofun

theorem entry_inj {c c' : Shape} (hc : c ≠ .unservable) {native : Bool} :
    c.entry native = c'.entry native ↔ c = c' := by
  refine ⟨fun h => ?_, fun h => h ▸ rfl⟩
  cases c <;> cases c' <;> cases native <;> simp_all [entry]

theorem entry_eq_indexFast_iff {c : Shape} {native : Bool} :
    c.entry native = .indexFast ↔ c = .index ∧ native = true := by
  cases c <;> cases native <;> simp [entry]

theorem supersedes_entry_iff {c : Shape} (hc : c ≠ .unservable) {native : Bool} {e : Entry} :
    (c.entry native).supersedes e = true ↔ c = .index ∧ native = false ∧ e = .indexFast := by
  cases c with
  | unservable => exact absurd rfl hc
  | index => cases native <;> simp [entry, Entry.supersedes]
  | _ => simp [entry, Entry.supersedes]

end Shape

namespace Probe

variable {p q : Probe}

theorem select_eq (hc : p.key.classify.needsCoercion = false) (preferNative : Bool) :
    Entry.select p preferNative = p.shape.entry (p.key.isIntegral && preferNative) := by
  obtain ⟨key, onProxy⟩ := p
  simp only [Entry.select, hc, shape]
  cases onProxy with
  | true => rfl
  | false =>
    cases key with
    | string s => cases hi : s.index? <;> simp [Value.classify, hi] <;> rfl
    | int32 n => cases hi : indexOfInt? n.toInt <;> simp [Value.classify, hi] <;> rfl
    | int64 n => cases hi : indexOfInt? n.toInt <;> simp [Value.classify, hi] <;> rfl
    | number x => cases hi : x.index? <;> simp [Value.classify, hi] <;> rfl
    | _ => rfl

theorem eq_of_shape_name {k : PropertyKey} (h : p.shape = .name k) : p = ⟨k.toValue, false⟩ := by
  obtain ⟨key, onProxy⟩ := p
  simp only [shape] at h
  cases onProxy with
  | true => cases h
  | false =>
    cases key with
    | string s =>
      simp only [Bool.false_eq_true, if_false] at h
      split at h
      · cases h
      · cases h
        rfl
    | symbol id =>
      cases h
      rfl
    | _ =>
      simp only [Bool.false_eq_true, if_false] at h
      split at h <;> cases h

theorem guard_cachedName {k : PropertyKey} (hq : q.shape = .name k) :
    (Entry.cachedName k).guard p = true ↔ p.shape = .name k := by
  have hqk := eq_of_shape_name hq
  constructor
  · intro h
    simp only [Entry.guard, Bool.and_eq_true, Bool.not_eq_true', PropertyKey.accepts,
      decide_eq_true_eq] at h
    have hp : p = q := by
      rw [hqk, ← h.1, ← h.2]
    rw [hp, hq]
  · intro h
    rw [eq_of_shape_name h]
    simp [Entry.guard, PropertyKey.accepts]

theorem shape_eq_proxy_iff : p.shape = .proxy ↔ p.onProxy = true := by
  obtain ⟨key, onProxy⟩ := p
  simp only [shape]
  cases onProxy with
  | true => simp
  | false =>
    simp only [Bool.false_eq_true, if_false, iff_false]
    split
    · split <;> nofun
    · nofun
    · split <;> nofun

theorem shape_eq_index_iff :
    p.shape = .index ↔ p.onProxy = false ∧ p.key.classify.index?.isSome = true := by
  obtain ⟨key, onProxy⟩ := p
  simp only [shape]
  cases onProxy with
  | true => simp
  | false => cases key <;> simp [Value.classify, Option.isSome_iff_ne_none]

theorem nativeInteger_classify (v : Value) : v.classify.nativeInteger = v.isIntegral := by
  cases v <;> rfl

theorem guard_proxyTarget_iff : Entry.proxyTarget.guard p = true ↔ p.shape = .proxy :=
  shape_eq_proxy_iff.symm

theorem guard_indexGeneral_iff : Entry.indexGeneral.guard p = true ↔ p.shape = .index := by
  simp [Entry.guard, shape_eq_index_iff]

theorem guard_indexFast_iff :
    Entry.indexFast.guard p = true ↔ p.shape = .index ∧ p.key.isIntegral = true := by
  simp [Entry.guard, shape_eq_index_iff, nativeInteger_classify]
  tauto

/-- The entry for a shape accepts the accesses of this shape and no others, a fast one only
where the index is an integer. -/
theorem guard_entry_iff (hq : q.shape ≠ .unservable) (native : Bool) :
    (q.shape.entry native).guard p = true ↔
      p.shape = q.shape ∧ (p.shape = .index → native = true → p.key.isIntegral = true) := by
  cases hs : q.shape with
  | unservable => exact absurd hs hq
  | proxy =>
    rw [Shape.entry, guard_proxyTarget_iff]
    refine ⟨fun hp => ⟨hp, fun hi => ?_⟩, And.left⟩
    cases hp.symm.trans hi
  | name k =>
    rw [Shape.entry, guard_cachedName hs]
    refine ⟨fun hp => ⟨hp, fun hi => ?_⟩, And.left⟩
    cases hp.symm.trans hi
  | index =>
    cases native with
    | false => simp [Shape.entry, guard_indexGeneral_iff]
    | true =>
      rw [Shape.entry, if_pos rfl, guard_indexFast_iff]
      exact and_congr_right fun hi => by simp [hi]

end Probe

def native (preferNative : Bool) (seen : List Probe) : Bool :=
  preferNative && seen.all fun p => decide (p.shape = .index → p.key.isIntegral = true)

theorem native_append (preferNative : Bool) (seen ps : List Probe) :
    native preferNative (seen ++ ps) =
      (native preferNative seen &&
        ps.all fun p => decide (p.shape = .index → p.key.isIntegral = true)) := by
  simp [native, Bool.and_assoc]

theorem native_snoc (preferNative : Bool) (seen : List Probe) (p : Probe) :
    native preferNative (seen ++ [p]) =
      (native preferNative seen && decide (p.shape = .index → p.key.isIntegral = true)) := by
  simp [native_append]

theorem entry_native_snoc {c : Shape} {p : Probe} (hc : c ≠ p.shape) (preferNative : Bool)
    (seen : List Probe) :
    c.entry (native preferNative (seen ++ [p])) = c.entry (native preferNative seen) := by
  by_cases hi : c = .index
  · have hp : p.shape ≠ .index := hi ▸ hc.symm
    simp [native_snoc, hp]
  · exact Shape.entry_of_ne_index hi _ _

structure Covers (preferNative : Bool) (seen : List Probe) (entries : List Entry) : Prop where
  servable : ∀ q ∈ seen, q.shape ≠ .unservable
  nodup : entries.Nodup
  mem_iff : ∀ e, e ∈ entries ↔ ∃ q ∈ seen, e = q.shape.entry (native preferNative seen)

namespace Covers

variable {preferNative : Bool} {seen : List Probe} {entries : List Entry} {p : Probe}

theorem servable_snoc (h : Covers preferNative seen entries) (hp : p.shape ≠ .unservable) :
    ∀ q ∈ seen ++ [p], q.shape ≠ .unservable := by
  intro q hq
  rcases List.mem_append.1 hq with hq | hq
  · exact h.servable q hq
  · rwa [List.mem_singleton.1 hq]

theorem perm (h : Covers preferNative seen entries) :
    entries.Perm
      ((seen.map Probe.shape).dedup.map (Shape.entry (native preferNative seen))) := by
  refine (List.perm_ext_iff_of_nodup h.nodup ?_).2 fun e => ?_
  · refine (List.nodup_dedup _).map_on fun c hc c' _ he => (Shape.entry_inj ?_).1 he
    obtain ⟨q, hq, rfl⟩ := List.mem_map.1 (List.mem_dedup.1 hc)
    exact h.servable q hq
  · rw [h.mem_iff]
    simp [eq_comm]

theorem countP_guard_le_one (h : Covers preferNative seen entries) (p : Probe) :
    entries.countP (·.guard p) ≤ 1 := by
  rw [h.perm.countP_eq, List.countP_map]
  calc (seen.map Probe.shape).dedup.countP ((·.guard p) ∘ Shape.entry (native preferNative seen))
      ≤ (seen.map Probe.shape).dedup.countP (· == p.shape) := by
        refine List.countP_mono_left fun c hc hg => ?_
        obtain ⟨q, hq, rfl⟩ := List.mem_map.1 (List.mem_dedup.1 hc)
        exact beq_iff_eq.2 ((Probe.guard_entry_iff (h.servable q hq) _).1 hg).1.symm
    _ ≤ 1 := List.nodup_iff_count_le_one.1 (List.nodup_dedup _) p.shape

theorem snoc_of_guard (h : Covers preferNative seen entries) {e : Entry} (he : e ∈ entries)
    (hg : e.guard p = true) : Covers preferNative (seen ++ [p]) entries := by
  obtain ⟨q, hq, rfl⟩ := (h.mem_iff e).1 he
  obtain ⟨hqp, hfits⟩ := (Probe.guard_entry_iff (h.servable q hq) _).1 hg
  have hnative : native preferNative (seen ++ [p]) = native preferNative seen := by
    rw [native_snoc]
    cases hn : native preferNative seen with
    | false => rfl
    | true => exact decide_eq_true fun hi => hfits hi hn
  refine ⟨h.servable_snoc (hqp ▸ h.servable q hq), h.nodup, fun e => ?_⟩
  rw [h.mem_iff, hnative]
  constructor
  · rintro ⟨q', hq', rfl⟩
    exact ⟨q', List.mem_append_left _ hq', rfl⟩
  · rintro ⟨q', hq', rfl⟩
    rcases List.mem_append.1 hq' with hq' | hq'
    · exact ⟨q', hq', rfl⟩
    · exact ⟨q, hq, by rw [List.mem_singleton.1 hq', hqp]⟩

section Unaccepted

variable {c : Chain} (h : Covers preferNative seen c.head.entries)
  (hp : c.head.accepts p = false)

include h hp

/-- An access that is not accepted is of a shape not seen before, unless it is an index, is
no integer, and all indices before were. -/
theorem index_of_unaccepted {q : Probe} (hq : q ∈ seen) (hqp : q.shape = p.shape) :
    p.shape = .index ∧ native preferNative seen = true ∧ p.key.isIntegral = false := by
  have hng : ¬(q.shape.entry (native preferNative seen)).guard p = true := by
    intro hg
    rw [ChainState.accepts_iff.2 ⟨_, (h.mem_iff _).2 ⟨q, hq, rfl⟩, hg⟩] at hp
    cases hp
  rw [Probe.guard_entry_iff (h.servable q hq)] at hng
  simpa [hqp] using hng

theorem select_eq (hc : p.key.classify.needsCoercion = false) :
    Entry.select p preferNative = p.shape.entry (native preferNative (seen ++ [p])) := by
  rw [Probe.select_eq hc]
  by_cases hi : p.shape = .index
  · cases hn : native preferNative seen with
    | true =>
      rw [native_snoc, hn, (Bool.and_eq_true_iff.1 hn).1]
      simp [hi]
    | false =>
      -- a general index entry would have accepted the access, so there was no index before
      have hnone : preferNative = false := by
        refine eq_false_of_ne_true fun hpn => ?_
        obtain ⟨q, hq, hqi, -⟩ : ∃ q ∈ seen, q.shape = .index ∧ q.key.isIntegral = false := by
          simpa [native, hpn] using hn
        have hfast := (h.index_of_unaccepted hp hq (hqi.trans hi.symm)).2.1
        exact Bool.false_ne_true (hn.symm.trans hfast)
      rw [native_snoc, hn, hnone, Bool.and_false, Bool.false_and]
  · exact Shape.entry_of_ne_index hi _ _

theorem supersedes_iff (hps : p.shape ≠ .unservable) {q : Probe} (hq : q ∈ seen) :
    (p.shape.entry (native preferNative (seen ++ [p]))).supersedes
      (q.shape.entry (native preferNative seen)) = true ↔ q.shape = p.shape := by
  rw [Shape.supersedes_entry_iff hps, Shape.entry_eq_indexFast_iff]
  constructor
  · rintro ⟨hi, -, hqi, -⟩
    exact hqi.trans hi.symm
  · intro hqp
    obtain ⟨hi, hn, hint⟩ := h.index_of_unaccepted hp hq hqp
    exact ⟨hi, by simp [native_snoc, hi, hint], hqp.trans hi, hn⟩

theorem mem_kept_iff (hps : p.shape ≠ .unservable) (e : Entry) :
    e ∈ c.kept (p.shape.entry (native preferNative (seen ++ [p]))) ↔
      ∃ q ∈ seen, q.shape ≠ p.shape ∧ e = q.shape.entry (native preferNative (seen ++ [p])) := by
  simp only [Chain.kept, List.mem_filter, h.mem_iff, Bool.not_eq_true']
  constructor
  · rintro ⟨⟨q, hq, rfl⟩, hsup⟩
    have hqp : q.shape ≠ p.shape := fun hqp => by
      rw [(h.supersedes_iff hp hps hq).2 hqp] at hsup
      cases hsup
    exact ⟨q, hq, hqp, (entry_native_snoc hqp _ _).symm⟩
  · rintro ⟨q, hq, hqp, rfl⟩
    rw [entry_native_snoc hqp]
    exact ⟨⟨q, hq, rfl⟩, eq_false_of_ne_true (mt (h.supersedes_iff hp hps hq).1 hqp)⟩

theorem widened (hc : p.key.classify.needsCoercion = false) (hps : p.shape ≠ .unservable) :
    Covers preferNative (seen ++ [p]) (c.widened (Entry.select p preferNative)).entries := by
  have hnew := Chain.select_notMem hp preferNative
  refine ⟨h.servable_snoc hps, Chain.nodup_widened h.nodup hnew, fun e => ?_⟩
  rw [h.select_eq hp hc]
  simp only [Chain.widened, List.mem_append, h.mem_kept_iff hp hps, List.mem_singleton]
  constructor
  · rintro (⟨q, hq, -, rfl⟩ | rfl)
    · exact ⟨q, .inl hq, rfl⟩
    · exact ⟨p, .inr rfl, rfl⟩
  · rintro ⟨q, hq | rfl, rfl⟩
    · by_cases hqp : q.shape = p.shape
      · exact .inr (by rw [hqp])
      · exact .inl ⟨q, hq, hqp, rfl⟩
    · exact .inr rfl

end Unaccepted

end Covers

namespace ChainState

inductive Reflects (maxDepth : Nat) (preferNative : Bool) (seen : List Probe) (s : ChainState) :
    Prop
  | within (hs : s.saturated = false) (h : Covers preferNative seen s.entries)
  | generic (hs : s.saturated = true)
      (h : .unservable ∈ seen.map Probe.shape ∨ maxDepth < (seen.map Probe.shape).dedup.length)

variable {maxDepth : Nat} {preferNative : Bool} {seen : List Probe} {s : ChainState} {p : Probe}

theorem Reflects.snoc_of_accepts (hr : s.Reflects maxDepth preferNative seen)
    (hp : s.accepts p = true) : s.Reflects maxDepth preferNative (seen ++ [p]) := by
  cases hr with
  | generic hs h =>
    refine .generic hs (h.imp (fun hu => ?_) fun hlt => Nat.lt_of_lt_of_le hlt ?_)
    · rw [List.map_append]
      exact List.mem_append_left _ hu
    · rw [List.map_append]
      exact (List.subperm_of_subset (List.nodup_dedup _) fun c hc =>
        List.mem_dedup.2 (List.mem_append_left _ (List.mem_dedup.1 hc))).length_le
  | within hs h =>
    obtain ⟨e, he, hg⟩ := accepts_iff.1 hp
    exact .within hs (h.snoc_of_guard he hg)

theorem Reflects.learn {c : Chain} (hc : c.Published)
    (hr : c.head.Reflects c.maxDepth preferNative seen)
    (hk : p.key.classify.needsCoercion = false) :
    (c.learn preferNative p).head.Reflects c.maxDepth preferNative (seen ++ [p]) := by
  by_cases hacc : c.head.accepts p = true
  · rw [Chain.learn_of_accepts hacc]
    exact hr.snoc_of_accepts hacc
  · have hp := eq_false_of_ne_true hacc
    have hunsat := hc.head_formed.unsaturated hp
    cases hr with
    | generic hs => simp [hunsat] at hs
    | within hs h =>
      have hselect := h.select_eq hp hk
      have ha := c.install_answer c.position (Entry.select p preferNative)
      rw [Chain.learn, if_neg hacc]
      generalize c.install c.position (Entry.select p preferNative) = r at ha
      by_cases hps : p.shape = .unservable
      · have hseen : .unservable ∈ (seen ++ [p]).map Probe.shape :=
          List.mem_map.2 ⟨p, List.mem_append_right _ (List.mem_singleton_self p), hps⟩
        have hgeneric : Entry.select p preferNative = .generic := by rw [hselect, hps, Shape.entry]
        cases ha with
        | lost hl => simp [hunsat] at hl
        | collapse => exact .generic rfl (.inl hseen)
        | replace _ _ he => exact absurd hgeneric he
        | add _ _ he => exact absurd hgeneric he
      · have hwidened := h.widened hp hk hps
        cases ha with
        | lost hl => simp [hunsat] at hl
        | collapse _ _ hfull =>
          have hover := hfull.resolve_left (hselect ▸ Shape.entry_ne_generic hps _)
          have hlen := hwidened.perm.length_eq
          rw [Chain.length_widened, List.length_map] at hlen
          exact .generic rfl (.inr (by omega))
        | replace => exact .within rfl hwidened
        | add => exact .within rfl hwidened

theorem Reflects.learnAll {c : Chain} (hc : c.Published)
    (hr : c.head.Reflects c.maxDepth preferNative seen) (ps : List Probe)
    (hps : ∀ p ∈ ps, p.key.classify.needsCoercion = false) :
    (c.learnAll preferNative ps).head.Reflects c.maxDepth preferNative (seen ++ ps) := by
  induction ps generalizing c seen with
  | nil => rwa [List.append_nil]
  | cons p ps ih =>
    have hlater := ih (hc.learn preferNative p)
      (c.learn_maxDepth preferNative p ▸ hr.learn hc (hps p List.mem_cons_self))
      fun q hq => hps q (List.mem_cons_of_mem _ hq)
    rw [c.learn_maxDepth preferNative p] at hlater
    rwa [List.append_cons]

end ChainState

def Hint.shape? : Hint → Option Shape
  | .unknown => none
  | .constantName name => some (if name.index?.isSome then .index else .name (.name name))
  | .indexLike => some .index

theorem Hint.shape?_eq (hint : Hint) : hint.shape? = hint.probe?.map Probe.shape := by
  cases hint <;> rfl

theorem Hint.native_probe? (hint : Hint) (preferNative : Bool) :
    native preferNative hint.probe?.toList =
      (preferNative && decide (hint.shape? ≠ some .index)) := by
  rw [shape?_eq]
  cases hint <;> simp [native, probe?, Value.isIntegral, Value.toInt?]

namespace Site

theorem needsCoercion_of_mem_resolved {p : Probe} {events : List Event}
    (h : p ∈ resolved events) : p.key.classify.needsCoercion = false := by
  obtain ⟨e, -, he⟩ := List.mem_filterMap.1 h
  cases e with
  | answer => cases he
  | access q =>
    simp only at he
    split at he
    · cases he
    · next hq =>
      cases he
      exact eq_false_of_ne_true hq

theorem needsCoercion_of_mem_seeds {p : Probe} {hint : Hint} {config : Config}
    (h : p ∈ seeds hint config) : p.key.classify.needsCoercion = false := by
  simp only [seeds] at h
  split at h
  · cases h
  · cases hint <;> simp only [Hint.probe?, Option.toList, List.mem_singleton, List.not_mem_nil] at h
    all_goals
      subst h
      rfl

theorem map_shape_seeds (hint : Hint) (config : Config) :
    (seeds hint config).map Probe.shape =
      if config.maxDepth = 0 then [] else hint.shape?.toList := by
  rw [seeds, Hint.shape?_eq]
  split
  · rfl
  · cases hint.probe? <;> rfl

/-- The entries of a state in terms of the shape that was hinted. Without depth the hint has
no effect, and there are no entries. -/
theorem map_entry_seeds {hint : Hint} {config : Config} {ps : List Probe}
    (hle : ((seeds hint config ++ ps).map Probe.shape).dedup.length ≤ config.maxDepth.toNat) :
    ((seeds hint config ++ ps).map Probe.shape).dedup.map
        (Shape.entry (native config.preferNative (seeds hint config ++ ps))) =
      ((seeds hint config ++ ps).map Probe.shape).dedup.map (Shape.entry (config.preferNative &&
        decide (hint.shape? ≠ some .index) &&
          ps.all fun p => decide (p.shape = .index → p.key.isIntegral = true))) := by
  by_cases hzero : config.maxDepth = 0
  · rw [hzero] at hle
    rw [List.length_eq_zero_iff.1 (Nat.le_zero.1 hle)]
    rfl
  · rw [native_append]
    simp only [seeds, if_neg hzero, Hint.native_probe?]

theorem reflects_run_new (direction : Direction) (label : Text) (flags : Flags) (hint : Hint)
    (config : Config) (hd : config.maxDepth ≠ 4294967293) (events : List Event) :
    ((new direction label flags hint config).run events).chain.head.Reflects
      config.maxDepth.toNat config.preferNative (seeds hint config ++ resolved events) := by
  have hempty : ({ maxDepth := config.maxDepth.toNat } : Chain).head.Reflects
      config.maxDepth.toNat config.preferNative [] :=
    .within rfl ⟨nofun, List.nodup_nil, by simp⟩
  have hlearned := hempty.learnAll (Chain.published_new _) (seeds hint config ++ resolved events)
    fun p hp => (List.mem_append.1 hp).elim needsCoercion_of_mem_seeds needsCoercion_of_mem_resolved
  rwa [chain_run_new direction label flags hint config hd]

/-- At every depth but one, the chain of a site is determined by the shapes seen, a hint
counting as one of them where the chain has any depth: it is generic if an access was
unservable or the shapes are more than the depth, and otherwise it has one entry for each.
No access is accepted by two of its entries. -/
theorem chain_closed_form (direction : Direction) (label : Text) (flags : Flags) (hint : Hint)
    (config : Config) (hd : config.maxDepth ≠ 4294967293) (events : List Event) :
    let s := ((new direction label flags hint config).run events).chain.head
    let seen := ((if config.maxDepth = 0 then [] else hint.shape?.toList) ++
      (resolved events).map Probe.shape).dedup
    let native := config.preferNative && decide (hint.shape? ≠ some .index) &&
      (resolved events).all fun p => decide (p.shape = .index → p.key.isIntegral = true)
    (s.saturated = true ↔ .unservable ∈ seen ∨ config.maxDepth.toNat < seen.length) ∧
      (s.saturated = true → s.entries = [.generic]) ∧
      (s.saturated = false → s.depth = seen.length ∧
        s.entries.Perm (seen.map (Shape.entry native))) ∧
      ∀ p, s.entries.countP (·.guard p) ≤ 1 := by
  intro s seen native'
  have hformed : s.Formed config.maxDepth.toNat :=
    maxDepth_run_new direction label flags hint config events ▸
      ((new_sound direction label flags hint config).run events).published.head_formed
  have hseen : seen = ((seeds hint config ++ resolved events).map Probe.shape).dedup := by
    rw [List.map_append, map_shape_seeds]
  cases reflects_run_new direction label flags hint config hd events with
  | generic hs h =>
    cases hformed with
    | within hs' => exact absurd (hs.symm.trans hs') nofun
    | generic _ _ he =>
      refine ⟨iff_of_true hs ?_, fun _ => he, fun hs' => absurd (hs.symm.trans hs') nofun, ?_⟩
      · rwa [hseen, List.mem_dedup]
      · intro p
        rw [he]
        exact List.countP_le_length
  | within hs h =>
    cases hformed with
    | generic hs' => exact absurd (hs'.symm.trans hs) nofun
    | within _ hdepth hle =>
      have hperm := h.perm
      have hlen : s.depth = seen.length := by
        rw [hdepth, hperm.length_eq, hseen, List.length_map]
      rw [map_entry_seeds (hseen ▸ hlen ▸ hle), ← hseen] at hperm
      refine ⟨iff_of_false (fun ht => absurd (hs.symm.trans ht) nofun) ?_,
        fun hs' => absurd (hs'.symm.trans hs) nofun, fun _ => ⟨hlen, hperm⟩,
        h.countP_guard_le_one⟩
      rintro (hmem | hlt)
      · rw [hseen, List.mem_dedup] at hmem
        obtain ⟨q, hq, hqs⟩ := List.mem_map.1 hmem
        exact h.servable q hq hqs
      · exact Nat.not_lt.2 (hlen ▸ hle) hlt

theorem chain_of_three_shapes :
    let s := ((new .read [114] {} (.constantName [120]) { maxDepth := 3 }).run
      [.access ⟨.int32 7, false⟩, .access ⟨.object .null, false⟩,
        .access ⟨.boolean true, true⟩, .answer .ok, .access ⟨.string [55], false⟩]).chain.head
    (3 : UInt32) ≠ 4294967293 ∧ s.saturated = false ∧ s.depth = 3 ∧
      s.entries.Perm [.cachedName (.name [120]), .proxyTarget, .indexGeneral] := by
  intro s
  have hd : (3 : UInt32) ≠ 4294967293 := by decide
  obtain ⟨hs, -, hentries, -⟩ := chain_closed_form .read [114] {} (.constantName [120])
    { maxDepth := 3 } hd [.access ⟨.int32 7, false⟩, .access ⟨.object .null, false⟩,
      .access ⟨.boolean true, true⟩, .answer .ok, .access ⟨.string [55], false⟩]
  have hunsat : s.saturated = false := eq_false_of_ne_true (mt hs.1 (by decide))
  obtain ⟨hdepth, hperm⟩ := hentries hunsat
  exact ⟨hd, hunsat, hdepth, hperm.trans (by decide)⟩

end Site

end InlineCache
