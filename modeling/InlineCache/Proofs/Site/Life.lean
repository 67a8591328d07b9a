import InlineCache.Site
import InlineCache.Proofs.Chain.Acceptance

/-! The life of a call site. Accesses arrive and return their status, and a trap may
bring further accesses to the site in between. Whatever the order, an access that no
entry accepts makes the site learn one entry, and from then on it is accepted. -/

namespace InlineCache

namespace Chain

variable {c : Chain} {p : Probe}

def learn (c : Chain) (preferNative : Bool) (p : Probe) : Chain :=
  if c.head.accepts p then c else (c.install c.position (Entry.select p preferNative)).2

theorem learn_of_accepts (h : c.head.accepts p = true) (preferNative : Bool) :
    c.learn preferNative p = c := by
  simp [learn, h]

theorem Published.learn (h : c.Published) (preferNative : Bool) (p : Probe) :
    (c.learn preferNative p).Published := by
  simp only [Chain.learn]
  split
  · exact h
  · exact h.install _ _

theorem learn_maxDepth (c : Chain) (preferNative : Bool) (p : Probe) :
    (c.learn preferNative p).maxDepth = c.maxDepth := by
  simp only [learn]
  split
  · rfl
  · exact c.install_maxDepth _ _

theorem Published.accepts_learn (h : c.Published) (preferNative : Bool) (p : Probe) :
    (c.learn preferNative p).head.accepts p = true := by
  simp only [Chain.learn]
  split
  · assumption
  · next hp =>
    exact accepts_install_head (h.head_formed.unsaturated (eq_false_of_ne_true hp))
      (Entry.guard_select p preferNative)

theorem accepts_learn_of_accepts (h : c.head.accepts p = true) (preferNative : Bool) (q : Probe) :
    (c.learn preferNative q).head.accepts p = true := by
  simp only [learn]
  split
  · exact h
  · exact accepts_install h _ _

theorem select_notMem (h : c.head.accepts p = false) (preferNative : Bool) :
    Entry.select p preferNative ∉ c.head.entries := by
  intro hmem
  rw [ChainState.accepts_iff.2 ⟨_, hmem, Entry.guard_select p preferNative⟩] at h
  cases h

theorem nodup_widened {e : Entry} (h : c.head.entries.Nodup) (he : e ∉ c.head.entries) :
    (c.widened e).entries.Nodup := by
  refine List.nodup_append.2 ⟨h.filter _, List.pairwise_singleton _ e, fun e' hk e'' hs heq => ?_⟩
  rw [List.mem_singleton.1 hs] at heq
  exact he (heq ▸ c.kept_subset e hk)

def learnAll (c : Chain) (preferNative : Bool) (ps : List Probe) : Chain :=
  ps.foldl (fun c p => c.learn preferNative p) c

theorem Published.learnAll (h : c.Published) (preferNative : Bool) (ps : List Probe) :
    (c.learnAll preferNative ps).Published := by
  induction ps generalizing c with
  | nil => exact h
  | cons p ps ih => exact ih (h.learn preferNative p)

theorem learnAll_maxDepth (c : Chain) (preferNative : Bool) (ps : List Probe) :
    (c.learnAll preferNative ps).maxDepth = c.maxDepth := by
  induction ps generalizing c with
  | nil => rfl
  | cons p ps ih => exact (ih _).trans (c.learn_maxDepth preferNative p)

theorem accepts_learnAll_of_accepts (h : c.head.accepts p = true) (preferNative : Bool)
    (ps : List Probe) : (c.learnAll preferNative ps).head.accepts p = true := by
  induction ps generalizing c with
  | nil => exact h
  | cons q ps ih => exact ih (accepts_learn_of_accepts h preferNative q)

theorem Published.accepts_learnAll (h : c.Published) (preferNative : Bool) {ps : List Probe}
    (hp : p ∈ ps) : (c.learnAll preferNative ps).head.accepts p = true := by
  induction ps generalizing c with
  | nil => cases hp
  | cons q ps ih =>
    rcases List.mem_cons.1 hp with rfl | hp
    · exact accepts_learnAll_of_accepts (h.accepts_learn preferNative p) preferNative ps
    · exact ih (h.learn preferNative q) hp

theorem learnAll_append (c : Chain) (preferNative : Bool) (ps qs : List Probe) :
    c.learnAll preferNative (ps ++ qs) = (c.learnAll preferNative ps).learnAll preferNative qs :=
  List.foldl_append ..

end Chain

theorem SiteTally.countServed_eq (t : SiteTally) (e : Entry) :
    t.countServed e =
      { t with genericDispatches := t.genericDispatches + if e = .generic then 1 else 0 } := by
  by_cases he : e = .generic <;> simp [countServed, Entry.isGeneric, he]

namespace Site

/-- What happens at a site: an access arrives, or one that an entry serves returns. -/
inductive Event where
  | access (p : Probe)
  | answer (status : Status)
deriving DecidableEq

def step (s : Site) : Event → Site
  | .access p => if p.key.classify.needsCoercion then s.reject else (s.resolve p).2
  | .answer status => s.complete status

def run (s : Site) (events : List Event) : Site := events.foldl step s

theorem run_cons (s : Site) (e : Event) (events : List Event) :
    s.run (e :: events) = (s.step e).run events := rfl

theorem run_append (s : Site) (events more : List Event) :
    s.run (events ++ more) = (s.run events).run more :=
  List.foldl_append ..

theorem step_access {s : Site} {p : Probe} (hc : p.key.classify.needsCoercion = false) :
    s.step (.access p) = (s.resolve p).2 := by
  simp [step, hc]

theorem step_refused {s : Site} {p : Probe} (hc : p.key.classify.needsCoercion = true) :
    s.step (.access p) = s.reject := by
  simp [step, hc]

def resolved (events : List Event) : List Probe :=
  events.filterMap fun
    | .access p => if p.key.classify.needsCoercion then none else some p
    | .answer _ => none

theorem mem_resolved_access {p : Probe} (hc : p.key.classify.needsCoercion = false)
    (before after : List Event) : p ∈ resolved (before ++ .access p :: after) :=
  List.mem_filterMap.2 ⟨.access p, List.mem_append_right _ List.mem_cons_self, by simp [hc]⟩

theorem learn_chain (s : Site) (e : Entry) (access : Nat) :
    (s.learn e access).chain = (s.chain.install s.chain.position e).2 := by
  simp only [learn, record]
  split <;> rfl

theorem learn_config (s : Site) (e : Entry) (access : Nat) :
    (s.learn e access).config = s.config := by
  simp only [learn, record]
  split <;> rfl

theorem learn_tally (s : Site) (e : Entry) (access : Nat) :
    (s.learn e access).tally =
      s.tally.countRewrite (s.chain.install s.chain.position e).1 := by
  simp only [learn, record]
  split <;> rfl

def missing (s : Site) : Site :=
  { s with tally := { s.tally with
    accesses := s.tally.accesses + 1, misses := s.tally.misses + 1 } }

def finding (s : Site) : Site :=
  { s with tally := { s.tally with
    accesses := s.tally.accesses + 1, hits := s.tally.hits + 1 } }

def served (s : Site) (e : Entry) : Site := { s with tally := s.tally.countServed e }

theorem resolve_of_find? {s : Site} {p : Probe} {e : Entry} (h : s.chain.head.find? p = some e) :
    s.resolve p = (e, s.finding.served e) := by
  simp only [resolve, h]
  rfl

theorem resolve_of_none {s : Site} {p : Probe} (h : s.chain.head.find? p = none) :
    s.resolve p = adapt p (s.tally.accesses + 1) s.attempts s.missing := by
  simp only [resolve, h]
  rfl

theorem adapt_succ_of_find? {s : Site} {p : Probe} {access : Nat} {e : Entry}
    (h : (s.learn (Entry.select p s.config.preferNative) access).chain.head.find? p = some e)
    (attempts : Nat) :
    adapt p access (attempts + 1) s =
      (e, (s.learn (Entry.select p s.config.preferNative) access).served e) := by
  simp only [adapt, h]
  rfl

/-- All that can come of an access: an entry accepts it at once; or the site learns one
that does; or it may not even try, and serves the access as generic. -/
inductive Resolution (s : Site) (p : Probe) : Entry × Site → Prop
  | hit {e : Entry} (h : s.chain.head.find? p = some e) : Resolution s p (e, s.finding.served e)
  | learned {e : Entry} {s' : Site} (h : s.chain.head.accepts p = false) (ha : s.attempts ≠ 0)
      (hs' : s' = s.missing.learn (Entry.select p s.config.preferNative) (s.tally.accesses + 1))
      (he : s'.chain.head.find? p = some e) : Resolution s p (e, s'.served e)
  | stuck (h : s.chain.head.accepts p = false) (ha : s.attempts = 0) :
      Resolution s p (.generic, s.missing.served .generic)

theorem resolve_resolution {s : Site} (hs : s.chain.Published) (p : Probe) :
    Resolution s p (s.resolve p) := by
  cases hf : s.chain.head.find? p with
  | some e =>
    rw [resolve_of_find? hf]
    exact .hit hf
  | none =>
    have hp : s.chain.head.accepts p = false := by simp [ChainState.accepts, hf]
    rw [resolve_of_none hf]
    cases ha : s.attempts with
    | zero => exact .stuck hp ha
    | succ n =>
      -- the first rewrite already makes the chain accept, so the loop goes no further
      have hacc := Chain.accepts_install_head (hs.head_formed.unsaturated hp)
        (Entry.guard_select p s.config.preferNative)
      obtain ⟨e, he⟩ := Option.isSome_iff_exists.1 hacc
      have he' : (s.missing.learn (Entry.select p s.config.preferNative)
          (s.tally.accesses + 1)).chain.head.find? p = some e := by
        rw [learn_chain]
        exact he
      have hlearned := Resolution.learned hp (by simp [ha]) rfl he'
      rw [adapt_succ_of_find? he']
      exact hlearned

theorem resolve_config {s : Site} (hs : s.chain.Published) (p : Probe) :
    (s.resolve p).2.config = s.config := by
  have hr := resolve_resolution hs p
  generalize s.resolve p = r at hr
  cases hr with
  | hit => rfl
  | learned _ _ hs' =>
    subst hs'
    exact learn_config _ _ _
  | stuck => rfl

theorem resolve_chain {s : Site} (hs : s.chain.Published) (p : Probe) :
    (s.resolve p).2.chain =
      if s.attempts = 0 then s.chain else s.chain.learn s.config.preferNative p := by
  have hr := resolve_resolution hs p
  generalize s.resolve p = r at hr
  cases hr with
  | hit h =>
    rw [Chain.learn_of_accepts (by simp [ChainState.accepts, h]), ite_self]
    rfl
  | learned h ha hs' =>
    subst hs'
    rw [if_neg ha, Chain.learn, if_neg (by simp [h])]
    exact learn_chain _ _ _
  | stuck _ ha => simp only [if_pos ha, served, missing]

structure Sound (s : Site) : Prop where
  published : s.chain.Published
  depth : s.chain.maxDepth = s.config.maxDepth.toNat

theorem complete_chain (s : Site) (status : Status) : (s.complete status).chain = s.chain := by
  simp only [complete]
  split <;> rfl

theorem complete_config (s : Site) (status : Status) : (s.complete status).config = s.config := by
  simp only [complete]
  split <;> rfl

variable {s : Site}

theorem Sound.step_config (h : s.Sound) (e : Event) : (s.step e).config = s.config := by
  cases e with
  | access p =>
    simp only [Site.step]
    split
    · rfl
    · exact resolve_config h.published p
  | answer status => exact s.complete_config status

/-- An event changes the chain as its access does, where the site may try at all. -/
theorem Sound.step_chain (h : s.Sound) (e : Event) :
    (s.step e).chain = if s.attempts = 0 then s.chain else
      s.chain.learnAll s.config.preferNative (resolved [e]) := by
  cases e with
  | access p =>
    by_cases hc : p.key.classify.needsCoercion = true
    · simp [step, resolved, hc, reject, Chain.learnAll]
    · simp [step, resolved, hc, resolve_chain h.published p, Chain.learnAll]
  | answer status => simp [step, resolved, complete_chain, Chain.learnAll]

theorem Sound.step (h : s.Sound) (e : Event) : (s.step e).Sound := by
  have hchain := h.step_chain e
  split at hchain
  · exact ⟨hchain ▸ h.published, by rw [hchain, h.step_config, h.depth]⟩
  · exact ⟨hchain ▸ h.published.learnAll _ _,
      by rw [hchain, h.step_config, Chain.learnAll_maxDepth, h.depth]⟩

theorem resolved_cons (e : Event) (events : List Event) :
    resolved (e :: events) = resolved [e] ++ resolved events :=
  List.filterMap_append (l := [e])

theorem Sound.run (h : s.Sound) (events : List Event) : (s.run events).Sound := by
  induction events generalizing s with
  | nil => exact h
  | cons e events ih => exact ih (h.step e)

theorem Sound.run_config (h : s.Sound) (events : List Event) :
    (s.run events).config = s.config := by
  induction events generalizing s with
  | nil => rfl
  | cons e events ih => exact (ih (h.step e)).trans (h.step_config e)

theorem attempts_eq_zero_iff : s.attempts = 0 ↔ s.config.maxDepth = 4294967293 := by
  have hlt := s.config.maxDepth.toNat_lt
  simp only [attempts, UInt32.toNat_add, ← UInt32.toNat_inj, UInt32.reduceToNat]
  omega

theorem Sound.run_chain (h : s.Sound) (hd : s.config.maxDepth ≠ 4294967293)
    (events : List Event) :
    (s.run events).chain = s.chain.learnAll s.config.preferNative (resolved events) := by
  induction events generalizing s with
  | nil => rfl
  | cons e events ih =>
    have hconfig := h.step_config e
    have hchain := h.step_chain e
    rw [if_neg (mt attempts_eq_zero_iff.1 hd)] at hchain
    rw [run_cons, ih (h.step e) (hconfig ▸ hd), hconfig, hchain,
      resolved_cons e events, Chain.learnAll_append]

end Site

def Hint.probe? : Hint → Option Probe
  | .unknown => none
  | .constantName name => some ⟨.string name, false⟩
  | .indexLike => some ⟨.string [48], false⟩

namespace Site

theorem seed?_eq_select (hint : Hint) (preferNative : Bool) :
    seed? hint = hint.probe?.map fun p => Entry.select p preferNative := by
  cases hint with
  | unknown => rfl
  | indexLike => rfl
  | constantName name =>
    cases hi : name.index? with
    | some i => simp [seed?, Hint.probe?, Entry.select, Value.classify, hi]
    | none =>
      simp [seed?, Hint.probe?, Entry.select, Value.classify, hi]
      rfl

def seeds (hint : Hint) (config : Config) : List Probe :=
  if config.maxDepth = 0 then [] else hint.probe?.toList

variable (direction : Direction) (label : Text) (flags : Flags) (hint : Hint) (config : Config)

def blank : Site where
  direction
  label
  flags :=
    match direction with
    | .write => flags
    | .read => { flags with definitionOnly := false }
  config
  chain := { maxDepth := config.maxDepth.toNat }

theorem new_eq : new direction label flags hint config =
    (seeds hint config).foldl (fun s p => s.learn (Entry.select p config.preferNative) 0)
      (blank direction label flags config) := by
  simp only [new, seed?_eq_select hint config.preferNative, seeds]
  cases hint.probe? with
  | none =>
    simp only [Option.map_none, Option.toList_none, ite_self]
    rfl
  | some p =>
    simp only [Option.map_some, Option.toList_some]
    split <;> rfl

theorem seeds_cases : seeds hint config = [] ∨ ∃ p, seeds hint config = [p] := by
  simp only [seeds]
  split
  · exact .inl rfl
  · cases hint with
    | unknown => exact .inl rfl
    | _ => exact .inr ⟨_, rfl⟩

theorem new_config : (new direction label flags hint config).config = config := by
  rw [new_eq]
  rcases seeds_cases hint config with hs | ⟨p, hs⟩
  · rw [hs]
    rfl
  · rw [hs]
    exact learn_config (blank direction label flags config) _ _

theorem new_chain : (new direction label flags hint config).chain =
    ({ maxDepth := config.maxDepth.toNat } : Chain).learnAll config.preferNative
      (seeds hint config) := by
  rw [new_eq]
  rcases seeds_cases hint config with hs | ⟨p, hs⟩
  · rw [hs]
    rfl
  · rw [hs]
    exact learn_chain (blank direction label flags config) _ _

theorem new_sound : (new direction label flags hint config).Sound := by
  refine ⟨?_, ?_⟩
  · rw [new_chain]
    exact (Chain.published_new _).learnAll _ _
  · rw [new_chain, new_config, Chain.learnAll_maxDepth]

theorem maxDepth_run_new (events : List Event) :
    ((new direction label flags hint config).run events).chain.maxDepth =
      config.maxDepth.toNat := by
  have hsound := new_sound direction label flags hint config
  rw [(hsound.run events).depth, hsound.run_config, new_config]

/-- The chain of a site is what its hint and its accesses make of an empty one. -/
theorem chain_run_new (hd : config.maxDepth ≠ 4294967293) (events : List Event) :
    ((new direction label flags hint config).run events).chain =
      ({ maxDepth := config.maxDepth.toNat } : Chain).learnAll config.preferNative
        (seeds hint config ++ resolved events) := by
  have hsound := new_sound direction label flags hint config
  have hconfig := new_config direction label flags hint config
  have hd' : (new direction label flags hint config).config.maxDepth ≠ 4294967293 := by
    rwa [hconfig]
  rw [hsound.run_chain hd', hconfig, new_chain, Chain.learnAll_append]

end Site

end InlineCache
