import InlineCache.Chain.Basic

/-! What a chain publishes, whoever offers entries to it. An offer made in view of an
older state, or of the generic entry, changes nothing. Any other publishes exactly one
state, which keeps within the depth or holds the generic entry alone. -/

namespace InlineCache

/-- An entry offered to a chain, with the number of the state its caller saw. -/
structure Offer where
  observed : Nat
  entry : Entry
deriving DecidableEq

/-- Within the depth and without the generic entry, or the generic entry alone. -/
inductive ChainState.Formed (maxDepth : Nat) (s : ChainState) : Prop
  | within (hs : s.saturated = false) (hd : s.depth = s.entries.length) (hle : s.depth ≤ maxDepth)
      (hg : .generic ∉ s.entries)
  | generic (hs : s.saturated = true) (hd : s.depth = 0) (he : s.entries = [.generic])

namespace Chain

def run (c : Chain) (offers : List Offer) : Chain :=
  offers.foldl (fun c o => (c.install o.observed o.entry).2) c

def kept (c : Chain) (e : Entry) : List Entry := c.head.entries.filter fun e' => !e.supersedes e'

def collapsed (c : Chain) : ChainState where
  entries := [.generic]
  saturated := true
  version := c.head.version + 1

def widened (c : Chain) (e : Entry) : ChainState where
  entries := c.kept e ++ [e]
  depth := (c.kept e).length + 1
  version := c.head.version + 1

inductive Answer (c : Chain) (observed : Nat) (e : Entry) : Rewrite × Chain → Prop
  | lost (h : observed ≠ c.position ∨ c.head.saturated = true) : Answer c observed e (.lostRace, c)
  | collapse (hn : observed = c.position) (hs : c.head.saturated = false)
      (h : e = .generic ∨ c.maxDepth ≤ (c.kept e).length) :
      Answer c observed e (.collapsed, c.publish c.collapsed)
  | replace (hn : observed = c.position) (hs : c.head.saturated = false) (he : e ≠ .generic)
      (hd : (c.kept e).length < c.maxDepth) (hk : (c.kept e).length < c.head.entries.length) :
      Answer c observed e (.replaced, c.publish (c.widened e))
  | add (hn : observed = c.position) (hs : c.head.saturated = false) (he : e ≠ .generic)
      (hd : (c.kept e).length < c.maxDepth) (hk : c.kept e = c.head.entries) :
      Answer c observed e (.installed, c.publish (c.widened e))

theorem install_answer (c : Chain) (observed : Nat) (e : Entry) :
    Answer c observed e (c.install observed e) := by
  by_cases hlost : observed ≠ c.position ∨ c.head.saturated = true
  · simp only [install, if_pos hlost]
    exact .lost hlost
  · simp only [install, if_neg hlost]
    obtain ⟨hn, hs⟩ := not_or.1 hlost
    have hn := Decidable.not_not.1 hn
    have hs := eq_false_of_ne_true hs
    split
    · next h => exact .collapse hn hs (h.imp_left of_decide_eq_true)
    · next h =>
      obtain ⟨hg, hd⟩ := not_or.1 h
      have he : e ≠ .generic := fun he => hg (decide_eq_true he)
      have hd : (c.kept e).length < c.maxDepth := Nat.lt_of_not_le hd
      split
      · next hk => exact .replace hn hs he hd hk
      · next hk =>
        exact .add hn hs he hd (List.filter_sublist.eq_of_length_le (Nat.le_of_not_lt hk))

theorem install_maxDepth (c : Chain) (observed : Nat) (e : Entry) :
    (c.install observed e).2.maxDepth = c.maxDepth := by
  have ha := c.install_answer observed e
  generalize c.install observed e = r at ha
  cases ha <;> rfl

theorem position_install_head {c : Chain} (hs : c.head.saturated = false) (e : Entry) :
    (c.install c.position e).2.position = c.position + 1 := by
  have ha := c.install_answer c.position e
  generalize c.install c.position e = r at ha
  cases ha with
  | lost hl => simp [hs] at hl
  | collapse => exact c.position_publish _
  | replace => exact c.position_publish _
  | add => exact c.position_publish _

structure Published (c : Chain) : Prop where
  numbered : ∀ (n : Nat) (s : ChainState), c.states[n]? = some s → s.version = n
  formed : ∀ s ∈ c.states, s.Formed c.maxDepth

theorem states_length (c : Chain) : c.states.length = c.retained := by
  simp [states, retained]

theorem states_getElem?_position (c : Chain) : c.states[c.position]? = some c.head := by
  simp [states, position]

theorem Published.head_version {c : Chain} (h : c.Published) : c.head.version = c.position :=
  h.numbered _ _ c.states_getElem?_position

theorem Published.head_formed {c : Chain} (h : c.Published) : c.head.Formed c.maxDepth :=
  h.formed _ (List.mem_of_getElem? c.states_getElem?_position)

theorem published_new (maxDepth : Nat) : ({ maxDepth } : Chain).Published where
  numbered n s h := by
    cases n with
    | zero =>
      cases h
      rfl
    | succ n => cases h
  formed s h := by
    cases List.mem_singleton.1 h
    exact .within rfl rfl (Nat.zero_le _) List.not_mem_nil

theorem Published.publish {c : Chain} (h : c.Published) {s : ChainState}
    (hv : s.version = c.head.version + 1) (hs : s.Formed c.maxDepth) : (c.publish s).Published where
  numbered n s' hn := by
    rw [states_publish] at hn
    -- the states from before keep their numbers, and the new one is the last
    rcases Nat.lt_or_ge n c.states.length with hlt | hge
    · rw [List.getElem?_append_left hlt] at hn
      exact h.numbered n s' hn
    · rw [List.getElem?_append_right hge] at hn
      obtain ⟨hlt, hs'⟩ := List.getElem?_eq_some_iff.1 hn
      have hlast : n = c.states.length := by
        rw [List.length_singleton] at hlt
        omega
      rw [List.getElem_singleton] at hs'
      rw [← hs', hv, h.head_version, hlast, states_length]
      rfl
  formed s' hs' := by
    rw [states_publish] at hs'
    rcases List.mem_append.1 hs' with hs' | hs'
    · exact h.formed s' hs'
    · cases List.mem_singleton.1 hs'
      exact hs

theorem collapsed_formed (c : Chain) : c.collapsed.Formed c.maxDepth := .generic rfl rfl rfl

@[simp] theorem length_widened (c : Chain) (e : Entry) :
    (c.widened e).entries.length = (c.kept e).length + 1 := by
  simp [widened]

theorem kept_subset (c : Chain) (e : Entry) : c.kept e ⊆ c.head.entries :=
  List.filter_sublist.subset

theorem widened_formed {c : Chain} {e : Entry} (h : c.head.Formed c.maxDepth)
    (hs : c.head.saturated = false) (he : e ≠ .generic) (hd : (c.kept e).length < c.maxDepth) :
    (c.widened e).Formed c.maxDepth := by
  cases h with
  | generic hs' => simp [hs] at hs'
  | within _ _ _ hg =>
    refine .within rfl (c.length_widened e).symm hd fun hmem => ?_
    rcases List.mem_append.1 hmem with hmem | hmem
    · exact hg (c.kept_subset e hmem)
    · exact he (List.mem_singleton.1 hmem).symm

theorem Published.install {c : Chain} (h : c.Published) (observed : Nat) (e : Entry) :
    (c.install observed e).2.Published := by
  have ha := c.install_answer observed e
  generalize c.install observed e = r at ha
  cases ha with
  | lost => exact h
  | collapse => exact h.publish rfl c.collapsed_formed
  | replace _ hs he hd => exact h.publish rfl (widened_formed h.head_formed hs he hd)
  | add _ hs he hd => exact h.publish rfl (widened_formed h.head_formed hs he hd)

theorem install_states (c : Chain) (observed : Nat) (e : Entry) :
    (observed ≠ c.position ∨ c.head.saturated = true) ∧ c.install observed e = (.lostRace, c) ∨
      (observed = c.position ∧ c.head.saturated = false) ∧
        (c.install observed e).1 ≠ .lostRace ∧
        ∃ s, (c.install observed e).2.states = c.states ++ [s] := by
  have ha := c.install_answer observed e
  generalize c.install observed e = r at ha
  cases ha with
  | lost hl => exact .inl ⟨hl, rfl⟩
  | collapse hn hs => exact .inr ⟨⟨hn, hs⟩, nofun, _, c.states_publish _⟩
  | replace hn hs => exact .inr ⟨⟨hn, hs⟩, nofun, _, c.states_publish _⟩
  | add hn hs => exact .inr ⟨⟨hn, hs⟩, nofun, _, c.states_publish _⟩

theorem run_cons (c : Chain) (o : Offer) (offers : List Offer) :
    c.run (o :: offers) = (c.install o.observed o.entry).2.run offers := rfl

theorem run_maxDepth (c : Chain) (offers : List Offer) : (c.run offers).maxDepth = c.maxDepth := by
  induction offers generalizing c with
  | nil => rfl
  | cons o offers ih => rw [run_cons, ih, install_maxDepth]

theorem Published.run {c : Chain} (h : c.Published) (offers : List Offer) :
    (c.run offers).Published := by
  induction offers generalizing c with
  | nil => exact h
  | cons o offers ih => exact ih (h.install _ _)

theorem states_prefix_run (c : Chain) (offers : List Offer) :
    c.states <+: (c.run offers).states := by
  induction offers generalizing c with
  | nil => exact List.prefix_rfl
  | cons o offers ih =>
    have hone : c.states <+: (c.install o.observed o.entry).2.states := by
      rcases c.install_states o.observed o.entry with ⟨-, hr⟩ | ⟨-, -, s, hs⟩
      · exact hr ▸ List.prefix_rfl
      · exact ⟨[s], hs.symm⟩
    exact hone.trans (ih _)

theorem run_saturated {c : Chain} (h : c.head.saturated = true) (offers : List Offer) :
    c.run offers = c := by
  induction offers with
  | nil => rfl
  | cons o offers ih => rw [run_cons, install_saturated _ _ h, ih]

/-- After any offers to a new chain: its states are numbered as published and are never
altered, the head is the last of them, each is within the depth or generic, a saturated
chain stays as it is, and an offer is lost exactly when it is stale or comes too late. -/
theorem run_publishes (maxDepth : Nat) (offers more : List Offer) (observed : Nat) (e : Entry) :
    let c := ({ maxDepth } : Chain).run offers
    ((∀ (n : Nat) (s : ChainState), c.states[n]? = some s → s.version = n) ∧
        c.states <+: (c.run more).states) ∧
      (c.states.getLast? = some c.head ∧ c.states.length = c.retained ∧
        c.retained = c.head.version + 1) ∧
      (∀ s ∈ c.states, s.Formed maxDepth) ∧
      (c.head.saturated = true → c.run more = c) ∧
      ((observed ≠ c.position ∨ c.head.saturated = true) ∧
          c.install observed e = (.lostRace, c) ∨
        (observed = c.position ∧ c.head.saturated = false) ∧
          (c.install observed e).1 ≠ .lostRace ∧
          ∃ s, (c.install observed e).2.states = c.states ++ [s]) := by
  intro c
  have hp : c.Published := (published_new maxDepth).run offers
  have hdepth : c.maxDepth = maxDepth := run_maxDepth _ offers
  refine ⟨⟨hp.numbered, c.states_prefix_run more⟩, ⟨?_, c.states_length, ?_⟩, ?_, ?_, ?_⟩
  · exact List.getLast?_concat
  · rw [hp.head_version]
    rfl
  · exact hdepth ▸ hp.formed
  · exact fun hs => run_saturated hs more
  · exact c.install_states observed e

end Chain

end InlineCache
