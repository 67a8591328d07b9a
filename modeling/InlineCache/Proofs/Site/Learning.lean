import InlineCache.Proofs.Site.Life

/-! A call site learns every access it serves. What its chain accepts once it accepts for
good, so a key and the kind of its target miss at most once. The number of rewrites that an
access may make is a 32-bit word, and at one depth that word is zero: a site of that depth
never learns anything. -/

namespace InlineCache

namespace Site

variable {s : Site} {p q : Probe}

theorem misses_step_of_coercion (hc : p.key.classify.needsCoercion = true) :
    (s.step (.access p)).tally.misses = s.tally.misses := by
  simp [step, hc, reject]

theorem step_of_accepts (h : s.chain.head.accepts p = true)
    (hc : p.key.classify.needsCoercion = false) :
    (s.step (.access p)).tally.hits = s.tally.hits + 1 ∧
      (s.step (.access p)).tally.misses = s.tally.misses := by
  obtain ⟨e, he⟩ := Option.isSome_iff_exists.1 h
  rw [step_access hc, resolve_of_find? he]
  simp only [served, finding, SiteTally.countServed_eq, and_self]

theorem Sound.accepts_step_of_accepts (h : s.Sound) (hp : s.chain.head.accepts p = true)
    (e : Event) : (s.step e).chain.head.accepts p = true := by
  rw [h.step_chain]
  split
  · exact hp
  · exact Chain.accepts_learnAll_of_accepts hp _ _

theorem Sound.accepts_step (h : s.Sound) (hd : s.config.maxDepth ≠ 4294967293)
    (hc : p.key.classify.needsCoercion = false) :
    (s.step (.access p)).chain.head.accepts p = true := by
  rw [h.step_chain, if_neg (mt attempts_eq_zero_iff.1 hd)]
  exact h.published.accepts_learnAll _ (mem_resolved_access hc [] [])

def missed (s : Site) : List Event → List Probe
  | [] => []
  | .answer status :: events => (s.step (.answer status)).missed events
  | .access p :: events =>
    let later := (s.step (.access p)).missed events
    if s.tally.misses < (s.step (.access p)).tally.misses then p :: later else later

theorem not_accepts_of_miss (h : s.tally.misses < (s.step (.access p)).tally.misses) :
    p.key.classify.needsCoercion = false ∧ s.chain.head.accepts p = false := by
  have hc : p.key.classify.needsCoercion = false := by
    refine eq_false_of_ne_true fun hc => ?_
    rw [misses_step_of_coercion hc] at h
    exact Nat.lt_irrefl _ h
  refine ⟨hc, eq_false_of_ne_true fun hp => ?_⟩
  rw [(step_of_accepts hp hc).2] at h
  exact Nat.lt_irrefl _ h

theorem Sound.not_mem_missed (h : s.Sound) (hp : s.chain.head.accepts p = true)
    (events : List Event) : p ∉ s.missed events := by
  induction events generalizing s with
  | nil => exact List.not_mem_nil
  | cons e events ih =>
    have hlater := ih (h.step e) (h.accepts_step_of_accepts hp e)
    cases e with
    | answer status => exact hlater
    | access q =>
      simp only [missed]
      split
      · next hmiss =>
        intro hmem
        rcases List.mem_cons.1 hmem with rfl | hmem
        · simp [(not_accepts_of_miss hmiss).2] at hp
        · exact hlater hmem
      · exact hlater

theorem Sound.missed_nodup (h : s.Sound) (hd : s.config.maxDepth ≠ 4294967293)
    (events : List Event) : (s.missed events).Nodup := by
  induction events generalizing s with
  | nil => exact List.nodup_nil
  | cons e events ih =>
    have hlater := ih (h.step e) (h.step_config e ▸ hd)
    cases e with
    | answer status => exact hlater
    | access p =>
      simp only [missed]
      split
      · next hmiss =>
        obtain ⟨hc, -⟩ := not_accepts_of_miss hmiss
        exact List.nodup_cons.2 ⟨(h.step _).not_mem_missed (h.accepts_step hd hc) events, hlater⟩
      · exact hlater

/-- At every depth but one: once a site has served an access, every later access with the
same key and the same kind of target is accepted by an entry and counts as a hit, whatever
happened in between. So no such pair misses twice. -/
theorem access_is_learned (direction : Direction) (label : Text) (flags : Flags) (hint : Hint)
    (config : Config) (hd : config.maxDepth ≠ 4294967293) {p : Probe}
    (hc : p.key.classify.needsCoercion = false) (before after : List Event) :
    let s := (new direction label flags hint config).run (before ++ .access p :: after)
    (∃ e ∈ s.chain.head.entries, e.guard p = true ∧ (s.resolve p).1 = e) ∧
      (s.step (.access p)).tally.hits = s.tally.hits + 1 ∧
      (s.step (.access p)).tally.misses = s.tally.misses ∧
      ∀ events, ((new direction label flags hint config).missed events).Nodup := by
  intro s
  have hsound := new_sound direction label flags hint config
  have hp : s.chain.head.accepts p = true := by
    rw [chain_run_new direction label flags hint config hd]
    exact (Chain.published_new _).accepts_learnAll _
      (List.mem_append_right _ (mem_resolved_access hc before after))
  obtain ⟨hhit, hmiss⟩ := step_of_accepts hp hc
  refine ⟨?_, hhit, hmiss, ?_⟩
  · obtain ⟨e, he⟩ := Option.isSome_iff_exists.1 hp
    refine ⟨e, List.mem_of_find?_eq_some he, ?_, by rw [resolve_of_find? he]⟩
    have hguard := List.find?_some he
    exact hguard
  · exact hsound.missed_nodup (by rwa [new_config])

theorem name_is_learned :
    let p : Probe := ⟨.string [120], false⟩
    let s := (new .write [119] { strict := true } .indexLike { maxDepth := 1 }).run
      ([.access ⟨.int32 7, false⟩] ++ .access p :: [.access ⟨.boolean true, true⟩, .answer .ok])
    (1 : UInt32) ≠ 4294967293 ∧ p.key.classify.needsCoercion = false ∧
      (s.step (.access p)).tally.hits = s.tally.hits + 1 ∧
      (s.step (.access p)).tally.misses = s.tally.misses := by
  intro p s
  have hd : (1 : UInt32) ≠ 4294967293 := by decide
  obtain ⟨-, hhit, hmiss, -⟩ := access_is_learned .write [119] { strict := true } .indexLike
    { maxDepth := 1 } hd (p := p) rfl [.access ⟨.int32 7, false⟩]
    [.access ⟨.boolean true, true⟩, .answer .ok]
  exact ⟨hd, rfl, hhit, hmiss⟩

/-- At the depth whose number of rewrites wraps to zero, the same access misses again. -/
theorem access_misses_again :
    let p : Probe := ⟨.string [120], false⟩
    let s := (new .read [114] {} .unknown { maxDepth := 4294967293 }).run [.access p, .answer .ok]
    p.key.classify.needsCoercion = false ∧ (s.step (.access p)).tally.hits = s.tally.hits ∧
      (s.step (.access p)).tally.misses = s.tally.misses + 1 ∧
      (new .read [114] {} .unknown { maxDepth := 4294967293 }).missed
        [.access p, .answer .ok, .access p] = [p, p] := by
  decide

end Site

end InlineCache
