import InlineCache.Proofs.Site.Life

/-! What a call site counts agrees with its chain and with what its accesses returned, in
the middle of an access too, where traps have come back to the site. A chain is rewritten
at most `maxDepth + 2` times: entries are added up to the depth, the fast index entry is
replaced once, and the chain collapses once. -/

namespace InlineCache

theorem SiteTally.countRewrite_eq (t : SiteTally) (r : Rewrite) :
    t.countRewrite r = { t with
      installs := t.installs + if r = .installed then 1 else 0
      replacements := t.replacements + if r = .replaced then 1 else 0
      collapses := t.collapses + if r = .collapsed then 1 else 0
      lostRaces := t.lostRaces + if r = .lostRace then 1 else 0 } := by
  cases r <;> rfl

namespace Chain

variable {c : Chain} {t : SiteTally} {p : Probe}

/-- Until it collapses a chain has one entry for each install. The general index entry comes
with the only replacement, and no access that it accepts is offered again. -/
inductive Phase (c : Chain) (installs replacements collapses : Nat) : Prop
  | growing (hs : c.head.saturated = false) (hcollapses : collapses = 0)
      (hinstalls : c.head.entries.length = installs)
      (hreplaced : replacements = 0 ∨ replacements = 1 ∧ .indexGeneral ∈ c.head.entries)
  | collapsed (hs : c.head.saturated = true) (hcollapses : collapses = 1)
      (hinstalls : installs ≤ c.maxDepth) (hreplaced : replacements ≤ 1)

structure Tallied (c : Chain) (t : SiteTally) : Prop where
  lost : t.lostRaces = 0
  rewrites : c.position = t.installs + t.replacements + t.collapses
  nodup : c.head.entries.Nodup
  phase : c.Phase t.installs t.replacements t.collapses

theorem tallied_new (maxDepth : Nat) : ({ maxDepth } : Chain).Tallied {} where
  lost := rfl
  rewrites := rfl
  nodup := List.nodup_nil
  phase := .growing rfl rfl rfl (.inl rfl)

/-- Only the general index entry replaces another, the fast one, which the chain has once. -/
theorem kept_of_replaces (h : c.head.entries.Nodup) {e : Entry} (he : e ≠ .generic)
    (hk : (c.kept e).length < c.head.entries.length) :
    e = .indexGeneral ∧ (c.kept e).length + 1 = c.head.entries.length := by
  cases e with
  | generic => exact absurd rfl he
  | indexGeneral =>
    have herase : c.kept .indexGeneral = c.head.entries.erase .indexFast := by
      rw [h.erase_eq_filter]
      rfl
    rw [herase, List.length_erase] at hk ⊢
    split at hk
    · next hmem =>
      have hpos := List.length_pos_of_mem hmem
      rw [if_pos hmem]
      exact ⟨rfl, Nat.sub_add_cancel hpos⟩
    · exact absurd hk (Nat.lt_irrefl _)
  | _ => simp [kept, Entry.supersedes] at hk

theorem Tallied.install (h : c.Tallied t) (hc : c.Published) (hp : c.head.accepts p = false)
    (preferNative : Bool) :
    (c.install c.position (Entry.select p preferNative)).2.Tallied
      (t.countRewrite (c.install c.position (Entry.select p preferNative)).1) := by
  have hunsat := hc.head_formed.unsaturated hp
  have hnew := select_notMem hp preferNative
  have ha := c.install_answer c.position (Entry.select p preferNative)
  generalize Entry.select p preferNative = e at hnew ha
  generalize c.install c.position e = r at ha
  obtain ⟨hlost, hrewrites, hnodup, hphase⟩ := h
  cases hphase with
  | collapsed hs => simp [hunsat] at hs
  | growing _ hcollapses hinstalls hreplaced =>
    cases ha with
    | lost hl => simp [hunsat] at hl
    | collapse =>
      have hle := hc.head_formed.length_le hunsat
      refine ⟨hlost, ?_, List.pairwise_singleton _ _, .collapsed rfl ?_ ?_ ?_⟩
      · rw [position_publish, hrewrites]
        rfl
      · exact congrArg (· + 1) hcollapses
      · exact hinstalls ▸ hle
      · exact hreplaced.elim (fun h0 => h0 ▸ Nat.zero_le 1) fun h1 => h1.1 ▸ Nat.le_refl 1
    | replace _ _ he _ hk =>
      obtain ⟨rfl, hlen⟩ := kept_of_replaces hnodup he hk
      -- had there been a replacement before, the entry offered would be in the chain
      have hnone := hreplaced.resolve_right fun h1 => hnew h1.2
      have hwidened : (c.widened .indexGeneral).entries.length = t.installs := by
        rw [length_widened, hlen, hinstalls]
      refine ⟨hlost, ?_, nodup_widened hnodup hnew, .growing rfl hcollapses hwidened (.inr ?_)⟩
      · rw [position_publish, hrewrites]
        exact Nat.add_right_comm _ _ 1
      · exact ⟨congrArg (· + 1) hnone, List.mem_append_right _ (List.mem_singleton_self _)⟩
    | add _ _ he _ hk =>
      have hwidened : (c.widened e).entries.length = t.installs + 1 := by
        rw [length_widened, hk, hinstalls]
      have hsum : t.installs + t.replacements + t.collapses + 1 =
          t.installs + 1 + t.replacements + t.collapses := by omega
      refine ⟨hlost, ?_, nodup_widened hnodup hnew, .growing rfl hcollapses hwidened ?_⟩
      · rw [position_publish, hrewrites]
        exact hsum
      · refine hreplaced.imp id fun h1 => ⟨h1.1, List.mem_append_left _ ?_⟩
        exact hk.symm ▸ h1.2

theorem Tallied.bounds (h : c.Tallied t) (hc : c.Published) :
    t.installs ≤ c.maxDepth ∧ t.replacements ≤ 1 ∧ t.collapses ≤ 1 := by
  cases h.phase with
  | growing hs hcollapses hinstalls hreplaced =>
    refine ⟨hinstalls ▸ hc.head_formed.length_le hs, ?_, by omega⟩
    exact hreplaced.elim (fun h0 => by omega) fun h1 => h1.1 ▸ Nat.le_refl 1
  | collapsed _ hcollapses hinstalls hreplaced =>
    exact ⟨hinstalls, hreplaced, hcollapses ▸ Nat.le_refl 1⟩

theorem Tallied.saturated_iff (h : c.Tallied t) : c.head.saturated = true ↔ t.collapses = 1 := by
  cases h.phase with
  | growing hs hcollapses => simp [hs, hcollapses]
  | collapsed hs hcollapses => simp [hs, hcollapses]

theorem Tallied.depth_eq (h : c.Tallied t) (hc : c.Published) (hs : c.head.saturated = false) :
    c.head.depth = t.installs := by
  cases h.phase with
  | collapsed hs' => simp [hs] at hs'
  | growing _ _ hinstalls =>
    cases hc.head_formed with
    | within _ hd => exact hd.trans hinstalls
    | generic hs' => simp [hs] at hs'

end Chain

namespace Site

variable {s : Site}

theorem tallied_learn (h : s.chain.Tallied s.tally) (hs : s.chain.Published) {p : Probe}
    (hp : s.chain.head.accepts p = false) (preferNative : Bool) (access : Nat) :
    (s.learn (Entry.select p preferNative) access).chain.Tallied
      (s.learn (Entry.select p preferNative) access).tally := by
  rw [learn_chain, learn_tally]
  exact h.install hs hp preferNative

theorem tallied_resolve (h : s.chain.Tallied s.tally) (hs : s.chain.Published) (p : Probe) :
    (s.resolve p).2.chain.Tallied (s.resolve p).2.tally := by
  have hserved : ∀ {s : Site} (e : Entry), s.chain.Tallied s.tally →
      (s.served e).chain.Tallied (s.served e).tally := by
    intro s e h
    simp only [served, SiteTally.countServed_eq]
    exact ⟨h.lost, h.rewrites, h.nodup, h.phase⟩
  have hmissing : s.missing.chain.Tallied s.missing.tally :=
    ⟨h.lost, h.rewrites, h.nodup, h.phase⟩
  have hr := resolve_resolution hs p
  generalize s.resolve p = r at hr
  cases hr with
  | @hit e =>
    have hfinding : s.finding.chain.Tallied s.finding.tally :=
      ⟨h.lost, h.rewrites, h.nodup, h.phase⟩
    exact hserved e hfinding
  | @learned e s' hp _ hs' =>
    subst hs'
    exact hserved e (tallied_learn hmissing hs hp _ _)
  | stuck => exact hserved .generic hmissing

theorem Sound.tallied_step (h : s.Sound) (ht : s.chain.Tallied s.tally) (e : Event) :
    (s.step e).chain.Tallied (s.step e).tally := by
  cases e with
  | access p =>
    simp only [Site.step]
    split
    · exact ⟨ht.lost, ht.rewrites, ht.nodup, ht.phase⟩
    · exact tallied_resolve ht h.published p
  | answer status =>
    simp only [Site.step, complete]
    split
    · exact ht
    · exact ⟨ht.lost, ht.rewrites, ht.nodup, ht.phase⟩

theorem Sound.tallied_run (h : s.Sound) (ht : s.chain.Tallied s.tally) (events : List Event) :
    (s.run events).chain.Tallied (s.run events).tally := by
  induction events generalizing s with
  | nil => exact ht
  | cons e events ih => exact ih (h.step e) (h.tallied_step ht e)

theorem tallied_new (direction : Direction) (label : Text) (flags : Flags) (hint : Hint)
    (config : Config) : (new direction label flags hint config).chain.Tallied
      (new direction label flags hint config).tally := by
  have hblank := Chain.tallied_new config.maxDepth.toNat
  rw [new_eq]
  rcases seeds_cases hint config with hs | ⟨p, hs⟩
  · rw [hs]
    exact hblank
  · rw [hs]
    exact tallied_learn (s := blank direction label flags config) hblank
      (Chain.published_new _) rfl _ _

namespace Event

def isAccess : Event → Bool
  | .access _ => true
  | .answer _ => false

def isRefused : Event → Bool
  | .access p => p.key.classify.needsCoercion
  | .answer _ => false

def returned? : Event → Option Status
  | .access p => if p.key.classify.needsCoercion then some .invalidKey else none
  | .answer status => some status

end Event

def returned (events : List Event) : List Status := events.filterMap Event.returned?

def server? (s : Site) : Event → Option Entry
  | .access p => if p.key.classify.needsCoercion then none else some (s.resolve p).1
  | .answer _ => none

def servers (s : Site) : List Event → List Entry
  | [] => []
  | e :: events => (s.server? e).toList ++ (s.step e).servers events

/-- Lives in which every access has returned, those from inside another before it. -/
inductive Settled : List Event → Prop
  | nil : Settled []
  | refused {p : Probe} {events : List Event} (hc : p.key.classify.needsCoercion = true)
      (h : Settled events) : Settled (.access p :: events)
  | served {p : Probe} {inner events : List Event} {status : Status}
      (hc : p.key.classify.needsCoercion = false) (hinner : Settled inner)
      (h : Settled events) : Settled (.access p :: (inner ++ .answer status :: events))

theorem Settled.length_returned {events : List Event} (h : Settled events) :
    (returned events).length = events.countP Event.isAccess := by
  induction h with
  | nil => rfl
  | refused hc _ ih =>
    simp only [returned, List.filterMap_cons, Event.returned?, hc, if_true, List.length_cons,
      List.countP_cons, Event.isAccess] at ih ⊢
    omega
  | served hc _ _ ih ih' =>
    simp only [returned, List.filterMap_cons, List.filterMap_append, Event.returned?, hc,
      Bool.false_eq_true, if_false, List.length_append, List.length_cons, List.countP_cons,
      List.countP_append, Event.isAccess, if_true] at ih ih' ⊢
    omega

theorem countP_isRefused_le (events : List Event) : events.countP Event.isRefused ≤
    (returned events).countP (fun status => decide (status ≠ .ok)) := by
  induction events with
  | nil => exact Nat.le_refl 0
  | cons e events ih =>
    simp only [returned, List.filterMap_cons, List.countP_cons] at ih ⊢
    cases e with
    | answer status =>
      simp only [Event.isRefused, Event.returned?, List.countP_cons, Bool.false_eq_true, if_false]
      omega
    | access p =>
      cases hc : p.key.classify.needsCoercion with
      | false => simpa [Event.isRefused, Event.returned?, hc] using ih
      | true => simpa [Event.isRefused, Event.returned?, hc] using ih

theorem resolve_counts (hs : s.chain.Published) (p : Probe) :
    (s.resolve p).2.tally.accesses = s.tally.accesses + 1 ∧
      (s.resolve p).2.tally.hits + (s.resolve p).2.tally.misses =
        s.tally.hits + s.tally.misses + 1 ∧
      (s.resolve p).2.tally.failures = s.tally.failures ∧
      (s.resolve p).2.tally.genericDispatches =
        s.tally.genericDispatches + if (s.resolve p).1 = .generic then 1 else 0 := by
  have hr := resolve_resolution hs p
  generalize s.resolve p = r at hr
  cases hr with
  | hit =>
    simp only [served, finding, SiteTally.countServed_eq, true_and, and_true]
    omega
  | learned _ _ hs' =>
    subst hs'
    simp only [served, learn_tally, missing, SiteTally.countServed_eq, SiteTally.countRewrite_eq,
      true_and, and_true]
    omega
  | stuck =>
    simp only [served, missing, SiteTally.countServed_eq, true_and, and_true]
    omega

theorem Sound.step_counts (h : s.Sound) (e : Event) :
    (s.step e).tally.accesses = s.tally.accesses + [e].countP Event.isAccess ∧
      (s.step e).tally.hits + (s.step e).tally.misses + [e].countP Event.isRefused =
        s.tally.hits + s.tally.misses + [e].countP Event.isAccess ∧
      (s.step e).tally.failures =
        s.tally.failures + (returned [e]).countP (fun status => decide (status ≠ .ok)) ∧
      (s.step e).tally.genericDispatches =
        s.tally.genericDispatches + (s.servers [e]).count .generic := by
  cases e with
  | access p =>
    cases hc : p.key.classify.needsCoercion with
    | true =>
      simp [Site.step, hc, reject, servers, server?, returned, Event.returned?, Event.isAccess,
        Event.isRefused]
    | false =>
      obtain ⟨ha, hhm, hf, hg⟩ := resolve_counts h.published p
      simp [Site.step, hc, servers, server?, returned, Event.returned?, Event.isAccess,
        Event.isRefused, ha, hhm, hf, hg, List.count_singleton]
  | answer status =>
    simp only [Site.step, complete]
    split <;> simp_all [servers, server?, returned, Event.returned?, Event.isAccess,
      Event.isRefused]

theorem servers_cons (s : Site) (e : Event) (events : List Event) :
    s.servers (e :: events) = s.servers [e] ++ (s.step e).servers events := by
  simp [servers]

theorem Sound.run_counts (h : s.Sound) (events : List Event) :
    (s.run events).tally.accesses = s.tally.accesses + events.countP Event.isAccess ∧
      (s.run events).tally.hits + (s.run events).tally.misses + events.countP Event.isRefused =
        s.tally.hits + s.tally.misses + events.countP Event.isAccess ∧
      (s.run events).tally.failures =
        s.tally.failures + (returned events).countP (fun status => decide (status ≠ .ok)) ∧
      (s.run events).tally.genericDispatches =
        s.tally.genericDispatches + (s.servers events).count .generic := by
  induction events generalizing s with
  | nil => exact ⟨rfl, rfl, rfl, rfl⟩
  | cons e events ih =>
    obtain ⟨ha, hhm, hf, hg⟩ := h.step_counts e
    obtain ⟨ha', hhm', hf', hg'⟩ := ih (h.step e)
    have hreturned : returned (e :: events) = returned [e] ++ returned events :=
      List.filterMap_append (l := [e])
    rw [run_cons, List.countP_cons, List.countP_cons, hreturned, servers_cons, List.countP_append,
      List.count_append]
    simp only [List.countP_singleton] at ha hhm
    omega

/-- Where the site may rewrite its chain at all, each miss publishes one state. -/
theorem Sound.step_misses (h : s.Sound) (hd : s.config.maxDepth ≠ 4294967293) (e : Event) :
    (s.step e).tally.misses + s.chain.position =
      s.tally.misses + (s.step e).chain.position := by
  cases e with
  | answer status =>
    simp only [Site.step, complete]
    split <;> rfl
  | access p =>
    simp only [Site.step]
    split
    · rfl
    · have hr := resolve_resolution h.published p
      generalize s.resolve p = r at hr
      cases hr with
      | hit => simp only [served, finding, SiteTally.countServed_eq]
      | stuck _ ha => exact absurd (attempts_eq_zero_iff.1 ha) hd
      | learned hp _ hs' =>
        subst hs'
        have hposition := Chain.position_install_head (h.published.head_formed.unsaturated hp)
          (Entry.select p s.config.preferNative)
        simp only [served, learn_tally, learn_chain, missing, SiteTally.countServed_eq,
          SiteTally.countRewrite_eq]
        omega

theorem Sound.run_misses (h : s.Sound) (hd : s.config.maxDepth ≠ 4294967293)
    (events : List Event) :
    (s.run events).tally.misses + s.chain.position =
      s.tally.misses + (s.run events).chain.position := by
  induction events generalizing s with
  | nil => rfl
  | cons e events ih =>
    have hstep := h.step_misses hd e
    have hrun := ih (h.step e) (h.step_config e ▸ hd)
    rw [run_cons]
    omega

section New

variable (direction : Direction) (label : Text) (flags : Flags) (hint : Hint) (config : Config)

theorem new_counts :
    let t := (new direction label flags hint config).tally
    t.accesses = 0 ∧ t.hits = 0 ∧ t.misses = 0 ∧ t.failures = 0 ∧ t.genericDispatches = 0 := by
  rw [new_eq]
  rcases seeds_cases hint config with hs | ⟨p, hs⟩
  · rw [hs]
    exact ⟨rfl, rfl, rfl, rfl, rfl⟩
  · rw [hs, List.foldl_cons, List.foldl_nil]
    simp only [learn_tally, SiteTally.countRewrite_eq]
    exact ⟨rfl, rfl, rfl, rfl, rfl⟩

theorem length_seeds : (seeds hint config).length =
    if hint = .unknown ∨ config.maxDepth = 0 then 0 else 1 := by
  by_cases hd : config.maxDepth = 0
  · simp [seeds, hd]
  · cases hint <;> simp [seeds, hd, Hint.probe?]

theorem new_position :
    (new direction label flags hint config).chain.position = (seeds hint config).length := by
  rw [new_chain]
  rcases seeds_cases hint config with hs | ⟨p, hs⟩
  · rw [hs]
    rfl
  · rw [hs]
    exact Chain.position_install_head (c := { maxDepth := config.maxDepth.toNat }) rfl _

theorem run_new_counts (events : List Event) :
    let t := ((new direction label flags hint config).run events).tally
    t.accesses = events.countP Event.isAccess ∧
      t.hits + t.misses + events.countP Event.isRefused = events.countP Event.isAccess ∧
      t.failures = (returned events).countP (fun status => decide (status ≠ .ok)) ∧
      t.genericDispatches =
        ((new direction label flags hint config).servers events).count .generic := by
  obtain ⟨ha₀, hh₀, hm₀, hf₀, hg₀⟩ := new_counts direction label flags hint config
  obtain ⟨ha, hhm, hf, hg⟩ := (new_sound direction label flags hint config).run_counts events
  rw [ha₀, Nat.zero_add] at ha
  rw [hh₀, hm₀, Nat.zero_add] at hhm
  rw [hf₀, Nat.zero_add] at hf
  rw [hg₀, Nat.zero_add] at hg
  exact ⟨ha, hhm, hf, hg⟩

theorem run_new_tallied (events : List Event) :
    let s := (new direction label flags hint config).run events
    s.chain.Tallied s.tally :=
  (new_sound direction label flags hint config).tallied_run
    (tallied_new direction label flags hint config) events

/-- The counters of a site at any time, in the middle of an access too. An access is a hit,
a miss or refused; no rewrite is lost; the states published are the rewrites counted, at
most `maxDepth + 2`, and at every depth but one they are the misses and the hint; the chain
has as many entries as were installed until it collapses. The failures are the accesses
that returned something else than `ok`, and the generic dispatches those that the generic
entry served. -/
theorem accounts_agree (events : List Event) :
    let fresh := new direction label flags hint config
    let s := fresh.run events
    let t := s.tally
    let head := s.chain.head
    (t.accesses = t.hits + t.misses + events.countP Event.isRefused ∧ t.lostRaces = 0) ∧
      (head.version = t.installs + t.replacements + t.collapses ∧
        head.version + 1 = s.chain.retained) ∧
      (config.maxDepth ≠ 4294967293 →
        t.misses + (if hint = .unknown ∨ config.maxDepth = 0 then 0 else 1) = head.version) ∧
      (t.installs ≤ config.maxDepth.toNat ∧ t.replacements ≤ 1 ∧ t.collapses ≤ 1 ∧
        s.chain.retained ≤ config.maxDepth.toNat + 3) ∧
      ((head.saturated = true ↔ t.collapses = 1) ∧
        (head.saturated = false → head.depth = t.installs)) ∧
      (t.failures = (returned events).countP (fun status => decide (status ≠ .ok)) ∧
        (Settled events → (returned events).length = t.accesses)) ∧
      t.genericDispatches = (fresh.servers events).count .generic := by
  intro fresh s t head
  have hfresh := new_sound direction label flags hint config
  have hconfig := new_config direction label flags hint config
  have hs := hfresh.run events
  have hdepth : s.chain.maxDepth = config.maxDepth.toNat :=
    maxDepth_run_new direction label flags hint config events
  have hversion : head.version = s.chain.position := hs.published.head_version
  have htallied : s.chain.Tallied t := run_new_tallied direction label flags hint config events
  have hbounds := htallied.bounds hs.published
  have hrewrites := htallied.rewrites
  obtain ⟨ha, hhm, hf, hg⟩ : t.accesses = _ ∧ t.hits + t.misses + _ = _ ∧ t.failures = _ ∧
      t.genericDispatches = _ := run_new_counts direction label flags hint config events
  obtain ⟨-, -, hm₀, -, -⟩ := new_counts direction label flags hint config
  have hmisses : config.maxDepth ≠ 4294967293 →
      t.misses + (if hint = .unknown ∨ config.maxDepth = 0 then 0 else 1) = head.version := by
    intro hd
    have hrun := hfresh.run_misses (hconfig.symm ▸ hd) events
    rwa [hm₀, Nat.zero_add, new_position, length_seeds, ← hversion] at hrun
  have hretained : s.chain.retained ≤ config.maxDepth.toNat + 3 := by
    simp only [Chain.position] at hrewrites
    simp only [Chain.retained]
    omega
  refine ⟨⟨by omega, htallied.lost⟩, ⟨hversion.trans hrewrites, congrArg (· + 1) hversion⟩,
    hmisses, ⟨hdepth ▸ hbounds.1, hbounds.2.1, hbounds.2.2, hretained⟩,
    ⟨htallied.saturated_iff, htallied.depth_eq hs.published⟩,
    ⟨hf, fun h => h.length_returned.trans ha.symm⟩, hg⟩

end New

theorem reentrant_accounts_agree :
    let outer : Probe := ⟨.string [120], false⟩
    let inner : Probe := ⟨.int32 7, false⟩
    let refused : Probe := ⟨.bigint 3, false⟩
    let events := [.access outer, .access inner, .answer .ok, .access refused, .answer .notFound]
    let s := (new .write [119] {} .unknown { maxDepth := 1 }).run events
    Settled events ∧ (returned events).length = s.tally.accesses ∧ s.tally.accesses = 3 ∧
      s.tally.accesses = s.tally.hits + s.tally.misses + 1 ∧ s.tally.failures = 2 ∧
      s.chain.head.version = 2 ∧ s.chain.head.saturated = true := by
  intro outer inner refused events s
  have hinner : Settled [.access inner, .answer .ok, .access refused] :=
    Settled.served rfl Settled.nil (Settled.refused rfl .nil)
  have hsettled : Settled events := Settled.served rfl hinner .nil
  obtain ⟨⟨haccesses, -⟩, -, -, -, -, ⟨hfailures, hreturned⟩, -⟩ :=
    accounts_agree .write [119] {} .unknown { maxDepth := 1 } events
  exact ⟨hsettled, hreturned hsettled, by decide +kernel, haccesses, hfailures, by decide +kernel,
    by decide +kernel⟩

end Site

end InlineCache
