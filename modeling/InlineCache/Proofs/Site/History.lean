import InlineCache.Proofs.Site.Accounting
import Mathlib.Data.List.DropRight

/-! What a site remembers of its chain. Every rewrite is one record in the log of the
site's life, from the one that the hint asks for. The site keeps the end of that log. -/

namespace InlineCache

namespace Chain

def transition (c : Chain) (e : Entry) (access : Nat) : Transition :=
  let (outcome, c') := c.install c.position e
  { version := c'.head.version
    installed := if outcome = .collapsed then .generic else e.kind
    outcome
    depth := c'.head.depth
    access
    chain := c'.head.text }

variable {c : Chain}

theorem states_prefix_install (c : Chain) (observed : Nat) (e : Entry) :
    c.states <+: (c.install observed e).2.states :=
  c.states_prefix_run [⟨observed, e⟩]

theorem states_prefix_learnAll (c : Chain) (preferNative : Bool) (ps : List Probe) :
    c.states <+: (c.learnAll preferNative ps).states := by
  induction ps generalizing c with
  | nil => exact List.prefix_rfl
  | cons p ps ih =>
    refine List.IsPrefix.trans ?_ (ih (c.learn preferNative p))
    simp only [learn]
    split
    · exact List.prefix_rfl
    · exact c.states_prefix_install _ _

theorem outcome_install_head (hs : c.head.saturated = false) (e : Entry) :
    (c.install c.position e).1 ≠ .lostRace := by
  rcases c.install_states c.position e with ⟨hn | hs', -⟩ | ⟨-, hne, -⟩
  · exact absurd rfl hn
  · simp [hs] at hs'
  · exact hne

theorem Published.transition_version (hc : c.Published) (hs : c.head.saturated = false)
    (e : Entry) (access : Nat) : (c.transition e access).version = c.head.version + 1 := by
  have hversion := (hc.install c.position e).head_version
  rw [position_install_head hs] at hversion
  exact hversion.trans (congrArg (· + 1) hc.head_version.symm)

end Chain

structure Transition.Tells (t : Transition) (states : List ChainState) (c : Chain) (e : Entry) :
    Prop where
  version : t.version = c.states.length
  published : (c.install c.position e).2.states <+: states
  outcome : t.outcome = (c.install c.position e).1
  installed : t.installed = if t.outcome = .collapsed then .generic else e.kind
  state : ∃ state, states[t.version]? = some state ∧ t.chain = state.text ∧ t.depth = state.depth

theorem Transition.Tells.later {t : Transition} {states states' : List ChainState} {c : Chain}
    {e : Entry} (h : t.Tells states c e) (hs : states <+: states') : t.Tells states' c e := by
  obtain ⟨state, hstate, htext, hdepth⟩ := h.state
  obtain ⟨hlt, hget⟩ := List.getElem?_eq_some_iff.1 hstate
  have hstate' := (List.prefix_iff_getElem?.1 hs _ hlt).trans (congrArg some hget)
  exact ⟨h.version, h.published.trans hs, h.outcome, h.installed, state, hstate', htext, hdepth⟩

theorem Chain.Published.tells_transition {c : Chain} (hc : c.Published)
    (hs : c.head.saturated = false) (e : Entry) (access : Nat) :
    (c.transition e access).Tells (c.install c.position e).2.states c e := by
  have hversion := hc.transition_version hs e access
  rw [hc.head_version] at hversion
  refine ⟨?_, List.prefix_rfl, rfl, rfl, (c.install c.position e).2.head, ?_, rfl, rfl⟩
  · rw [hversion, states_length]
    rfl
  · rw [hversion, ← position_install_head hs e]
    exact states_getElem?_position _

namespace Site

variable {s s' : Site} {log : List Transition} {asked asked' : Nat → Chain → Entry → Prop}
  {e : Entry} {access : Nat}

theorem rtake_rtake_concat {α : Type} (l : List α) (n : Nat) (a : α) :
    (l.rtake n ++ [a]).rtake n = (l ++ [a]).rtake n := by
  cases n with
  | zero => rw [List.rtake_zero, List.rtake_zero]
  | succ n =>
    rw [List.rtake_concat_succ, List.rtake_concat_succ]
    simp only [List.rtake_eq_reverse_take_reverse, List.reverse_reverse, List.take_take,
      Nat.min_eq_left (Nat.le_succ n)]

theorem learn_history (hs : s.chain.head.saturated = false) (e : Entry) (access : Nat) :
    (s.learn e access).history =
      if s.config.tracing = true ∧ s.config.historySize ≠ 0 then
        (s.history ++ [s.chain.transition e access]).rtake s.config.historySize.toNat
      else s.history := by
  have houtcome := Chain.outcome_install_head hs e
  by_cases htraced : s.config.tracing = true ∧ s.config.historySize ≠ 0
  · rw [if_pos htraced]
    simp only [learn, record]
    rw [if_neg (by simp [houtcome, htraced.1, htraced.2])]
    rfl
  · rw [if_neg htraced]
    simp only [learn, record]
    rw [if_pos ?_]
    exact .inr (by by_cases ht : s.config.tracing = true <;> simp_all)

/-- The log of a site: one record for each state after the first, for the accesses and the
hint in the order in which they asked for it, of which the site keeps the end. -/
structure Chronicled (s : Site) (asked : Nat → Chain → Entry → Prop) (log : List Transition) :
    Prop where
  kept : s.history = if s.config.tracing then log.rtake s.config.historySize.toNat else []
  versions : log.map (·.version) = List.range' 1 s.chain.head.version
  ascending : log.Pairwise (·.access < ·.access)
  past : ∀ t ∈ log, t.access ≤ s.tally.accesses
  told : ∀ t ∈ log, ∃ c e, asked t.access c e ∧ t.Tells s.chain.states c e

theorem Chronicled.learn (h : s.Chronicled asked log) (hc : s.chain.Published)
    (hs : s.chain.head.saturated = false) (hask : asked access s.chain e)
    (hlate : ∀ t ∈ log, t.access < access) (hpast : access ≤ s.tally.accesses) :
    (s.learn e access).Chronicled asked (log ++ [s.chain.transition e access]) where
  kept := by
    rw [learn_history hs, learn_config, h.kept]
    cases s.config.tracing with
    | false => rfl
    | true =>
      by_cases hsize : s.config.historySize = 0
      · simp [hsize]
      · simp only [hsize, ne_eq, not_false_eq_true, and_self, if_true]
        exact rtake_rtake_concat log _ _
  versions := by
    have hversion := hc.transition_version hs e access
    have hhead : (s.learn e access).chain.head.version = s.chain.head.version + 1 := by
      rw [learn_chain]
      exact hversion
    rw [hhead, List.map_append, h.versions, List.range'_1_concat, List.map_singleton, hversion,
      Nat.add_comm 1]
  ascending := by
    refine List.pairwise_append.2 ⟨h.ascending, List.pairwise_singleton _ _, fun t ht t' ht' => ?_⟩
    cases List.mem_singleton.1 ht'
    exact hlate t ht
  past t ht := by
    rw [learn_tally, SiteTally.countRewrite_eq]
    rcases List.mem_append.1 ht with ht | ht
    · exact h.past t ht
    · cases List.mem_singleton.1 ht
      exact hpast
  told t ht := by
    rw [learn_chain]
    rcases List.mem_append.1 ht with ht | ht
    · obtain ⟨c, e', hask', htells⟩ := h.told t ht
      exact ⟨c, e', hask', htells.later (s.chain.states_prefix_install _ _)⟩
    · cases List.mem_singleton.1 ht
      exact ⟨s.chain, e, hask, hc.tells_transition hs e access⟩

theorem Chronicled.keep (h : s.Chronicled asked log) (hconfig : s'.config = s.config)
    (hchain : s'.chain = s.chain) (hhistory : s'.history = s.history)
    (haccesses : s.tally.accesses ≤ s'.tally.accesses) : s'.Chronicled asked log where
  kept := by rw [hhistory, hconfig, h.kept]
  versions := by rw [hchain, h.versions]
  ascending := h.ascending
  past t ht := (h.past t ht).trans haccesses
  told := by
    rw [hchain]
    exact h.told

theorem Chronicled.imp (h : s.Chronicled asked log)
    (hasked : ∀ access c e, asked access c e → asked' access c e) : s.Chronicled asked' log where
  kept := h.kept
  versions := h.versions
  ascending := h.ascending
  past := h.past
  told t ht := by
    obtain ⟨c, e, hask, htells⟩ := h.told t ht
    exact ⟨c, e, hasked _ _ _ hask, htells⟩

theorem Chronicled.resolve (h : s.Chronicled asked log) (hc : s.chain.Published) {p : Probe}
    (hask : asked (s.tally.accesses + 1) s.chain (Entry.select p s.config.preferNative)) :
    ∃ log', (s.resolve p).2.Chronicled asked log' := by
  have hmissing : s.missing.Chronicled asked log := h.keep rfl rfl rfl (Nat.le_succ _)
  have hr := resolve_resolution hc p
  generalize s.resolve p = r at hr
  cases hr with
  | hit =>
    refine ⟨log, h.keep rfl rfl rfl ?_⟩
    simp only [served, finding, SiteTally.countServed_eq, Nat.le_add_right]
  | stuck =>
    refine ⟨log, h.keep rfl rfl rfl ?_⟩
    simp only [served, missing, SiteTally.countServed_eq, Nat.le_add_right]
  | learned hp _ hs' =>
    subst hs'
    have hlate : ∀ t ∈ log, t.access < s.tally.accesses + 1 :=
      fun t ht => Nat.lt_succ_of_le (h.past t ht)
    have hlearned := hmissing.learn hc (hc.head_formed.unsaturated hp) hask hlate (Nat.le_refl _)
    refine ⟨_, hlearned.keep rfl rfl rfl ?_⟩
    simp only [served, SiteTally.countServed_eq, Nat.le_refl]

theorem Chronicled.step (h : s.Chronicled asked log) (hc : s.chain.Published) (event : Event)
    (hask : ∀ p, event = .access p → p.key.classify.needsCoercion = false →
      asked (s.tally.accesses + 1) s.chain (Entry.select p s.config.preferNative)) :
    ∃ log', (s.step event).Chronicled asked log' := by
  cases event with
  | answer status =>
    refine ⟨log, h.keep (s.complete_config status) (s.complete_chain status) ?_ ?_⟩
    · simp only [Site.step, complete]
      split <;> rfl
    · simp only [Site.step, complete]
      split <;> rfl
  | access p =>
    simp only [Site.step]
    split
    · exact ⟨log, h.keep rfl rfl rfl (Nat.le_succ _)⟩
    · next hkey => exact h.resolve hc (hask p rfl (eq_false_of_ne_true hkey))

theorem Sound.states_prefix_run (h : s.Sound) (events : List Event) :
    s.chain.states <+: (s.run events).chain.states := by
  induction events generalizing s with
  | nil => exact List.prefix_rfl
  | cons e events ih =>
    refine List.IsPrefix.trans ?_ (ih (h.step e))
    rw [h.step_chain]
    split
    · exact List.prefix_rfl
    · exact s.chain.states_prefix_learnAll _ _

section New

variable (direction : Direction) (label : Text) (flags : Flags) (hint : Hint) (config : Config)

/-- What the chain of a site is offered in a life: the entry of the hint, while it is
empty, and an entry for each access, by its number. -/
inductive Asked (events : List Event) : Nat → Chain → Entry → Prop
  | hint {p} (h : p ∈ seeds hint config) :
      Asked events 0 { maxDepth := config.maxDepth.toNat } (Entry.select p config.preferNative)
  | access {before p after} (h : events = before ++ .access p :: after)
      (hc : p.key.classify.needsCoercion = false) : Asked events (before.countP Event.isAccess + 1)
        ((new direction label flags hint config).run before).chain
        (Entry.select p config.preferNative)

variable {direction label flags hint config}

theorem Asked.append {events : List Event} {access : Nat} {c : Chain} {e : Entry}
    (h : Asked direction label flags hint config events access c e) (more : List Event) :
    Asked direction label flags hint config (events ++ more) access c e := by
  cases h with
  | hint hp => exact .hint hp
  | access he hc =>
    subst he
    exact .access (List.append_assoc _ _ more) hc

variable (direction label flags hint config)

theorem chronicled_new (events : List Event) :
    ∃ log, (new direction label flags hint config).Chronicled
      (Asked direction label flags hint config events) log := by
  have hblank : (blank direction label flags config).Chronicled
      (Asked direction label flags hint config events) [] := by
    refine ⟨?_, rfl, .nil, nofun, nofun⟩
    simp [blank]
  rw [new_eq]
  rcases seeds_cases hint config with hs | ⟨p, hs⟩
  · rw [hs]
    exact ⟨[], hblank⟩
  · rw [hs]
    have hask : p ∈ seeds hint config := hs ▸ List.mem_singleton_self p
    exact ⟨_, hblank.learn (Chain.published_new _) rfl (.hint hask) nofun (Nat.le_refl 0)⟩

theorem chronicled_run (events : List Event) :
    ∃ log, ((new direction label flags hint config).run events).Chronicled
      (Asked direction label flags hint config events) log := by
  have hfresh := new_sound direction label flags hint config
  induction events using List.reverseRecOn with
  | nil => exact chronicled_new direction label flags hint config []
  | append_singleton events event ih =>
    obtain ⟨log, hlog⟩ := ih
    have hconfig := (hfresh.run_config events).trans (new_config direction label flags hint config)
    have haccesses := (hfresh.run_counts events).1
    rw [(new_counts direction label flags hint config).1, Nat.zero_add] at haccesses
    rw [run_append]
    have hlog := hlog.imp fun _ _ _ hask => hask.append [event]
    refine hlog.step (hfresh.run events).published event ?_
    rintro p rfl hkey
    rw [haccesses, hconfig]
    exact .access rfl hkey

/-- The record numbered 0 is that of the hint, which comes first. -/
theorem asked_hint_iff {events : List Event} {t : Transition} {c : Chain} {e : Entry}
    {states : List ChainState} (h : Asked direction label flags hint config events t.access c e)
    (ht : t.Tells states c e) :
    t.access = 0 ↔ t.version = 1 ∧ hint ≠ .unknown ∧ config.maxDepth ≠ 0 := by
  have hlength := length_seeds hint config
  rw [ht.version]
  generalize t.access = access at h
  cases h with
  | hint hp =>
    have hpos := List.length_pos_of_mem hp
    refine iff_of_true rfl ⟨rfl, ?_⟩
    split at hlength
    · omega
    · next hne => exact not_or.1 hne
  | @access before =>
    refine iff_of_false (Nat.succ_ne_zero _) fun ⟨hversion, hseeded⟩ => ?_
    -- the chain has the state of the hint before it is offered anything else
    have hfresh := new_sound direction label flags hint config
    have hgrown := (hfresh.states_prefix_run before).length_le
    rw [if_neg (not_or.2 hseeded)] at hlength
    rw [hversion, Chain.states_length] at hgrown
    have hposition := new_position direction label flags hint config
    simp only [Chain.retained, Chain.position] at hgrown hposition
    omega

/-- The history of a site is the end of the log of its chain, as much of it as is kept: the
records of the latest versions one by one, each with the rewrite and the state that it
tells of, numbered by the accesses that asked for them. Nothing is kept without tracing. -/
theorem history_is_tail (events : List Event) :
    let s := (new direction label flags hint config).run events
    let kept := min config.historySize.toNat s.chain.head.version
    (config.tracing = false ∨ config.historySize = 0 → s.history = []) ∧
      (config.tracing = true →
        s.history.map (·.version) = List.range' (s.chain.head.version + 1 - kept) kept) ∧
      s.history.Pairwise (·.access < ·.access) ∧
      ∀ t ∈ s.history,
        (∃ c e, Asked direction label flags hint config events t.access c e ∧
          t.Tells s.chain.states c e) ∧
        (t.access = 0 ↔ t.version = 1 ∧ hint ≠ .unknown ∧ config.maxDepth ≠ 0) := by
  intro s kept
  obtain ⟨log, hlog⟩ := chronicled_run direction label flags hint config events
  have hconfig : s.config = config :=
    ((new_sound direction label flags hint config).run_config events).trans
      (new_config direction label flags hint config)
  have hkept : s.history = if config.tracing then log.rtake config.historySize.toNat else [] :=
    hconfig ▸ hlog.kept
  have hsublist : s.history.Sublist log := by
    rw [hkept]
    split
    · exact List.drop_sublist _ _
    · exact List.nil_sublist log
  have hversions : log.map (·.version) = List.range' 1 s.chain.head.version := hlog.versions
  have hlength : log.length = s.chain.head.version := by
    simpa using congrArg List.length hversions
  refine ⟨?_, ?_, hlog.ascending.sublist hsublist, fun t ht => ?_⟩
  · rw [hkept]
    rintro (htracing | hsize)
    · rw [htracing]
      rfl
    · rw [hsize]
      exact ite_eq_right_iff.2 fun _ => List.rtake_zero log
  · intro htracing
    rw [hkept, htracing, if_pos rfl, List.rtake, List.map_drop, hversions, List.drop_range',
      hlength]
    congr 1 <;> omega
  · obtain ⟨c, e, hask, htells⟩ := hlog.told t (hsublist.subset ht)
    exact ⟨⟨c, e, hask, htells⟩, asked_hint_iff direction label flags hint config hask htells⟩

/-- The first of four records, that of the hint, is gone. -/
example :
    ((new .write [119] {} (.constantName [120])
        { maxDepth := 2, tracing := true, historySize := 3 }).run
      [.access ⟨.int32 7, false⟩, .access ⟨.string [55], false⟩,
        .access ⟨.string [121], false⟩]).history.map (fun t => (t.version, t.outcome, t.access)) =
      [(2, .installed, 1), (3, .replaced, 2), (4, .collapsed, 3)] := by
  decide

end New

end Site

end InlineCache
