import InlineCache.Proofs.Chain.Publishing

/-! What a chain accepts. An entry leaves a chain for one that accepts as much, so that
each state accepts what any state published before it does, whoever offers entries and
whichever state they saw. -/

namespace InlineCache

namespace ChainState

def accepts (s : ChainState) (p : Probe) : Bool := (s.find? p).isSome

theorem accepts_iff {s : ChainState} {p : Probe} :
    s.accepts p = true ↔ ∃ e ∈ s.entries, e.guard p = true :=
  List.find?_isSome

theorem accepts_of_generic {s : ChainState} (h : s.entries = [.generic]) (p : Probe) :
    s.accepts p = true :=
  accepts_iff.2 ⟨.generic, h ▸ List.mem_singleton_self _, rfl⟩

theorem Formed.unsaturated {maxDepth : Nat} {s : ChainState} (h : s.Formed maxDepth) {p : Probe}
    (hp : s.accepts p = false) : s.saturated = false := by
  cases h with
  | within hs => exact hs
  | generic _ _ he => simp [accepts_of_generic he p] at hp

theorem Formed.length_le {maxDepth : Nat} {s : ChainState} (h : s.Formed maxDepth)
    (hs : s.saturated = false) : s.entries.length ≤ maxDepth := by
  cases h with
  | within _ hd hle => exact hd ▸ hle
  | generic hs' => simp [hs] at hs'

end ChainState

namespace Chain

variable {c : Chain} {p : Probe}

theorem accepts_widened (c : Chain) {e : Entry} (h : e.guard p = true) :
    (c.widened e).accepts p = true :=
  ChainState.accepts_iff.2 ⟨e, List.mem_append_right _ (List.mem_singleton_self e), h⟩

theorem accepts_collapsed (c : Chain) (p : Probe) : c.collapsed.accepts p = true :=
  ChainState.accepts_of_generic rfl p

theorem guard_of_supersedes {e e' : Entry} (h : e.supersedes e' = true) (hp : e'.guard p = true) :
    e.guard p = true := by
  cases e with
  | generic => rfl
  | indexGeneral =>
    cases of_decide_eq_true h
    simp only [Entry.guard, Bool.and_eq_true] at hp ⊢
    exact ⟨hp.1.1, hp.2⟩
  | _ => cases h

theorem accepts_install (h : c.head.accepts p = true) (observed : Nat) (e : Entry) :
    (c.install observed e).2.head.accepts p = true := by
  have hwidened : (c.widened e).accepts p = true := by
    obtain ⟨e', hmem, hp⟩ := ChainState.accepts_iff.1 h
    -- the entry that accepts stays, or the one that supersedes it accepts as well
    by_cases hs : e.supersedes e' = true
    · exact c.accepts_widened (guard_of_supersedes hs hp)
    · have hkept : e' ∈ c.kept e := List.mem_filter.2 ⟨hmem, by simp [hs]⟩
      exact ChainState.accepts_iff.2 ⟨e', List.mem_append_left _ hkept, hp⟩
  have ha := c.install_answer observed e
  generalize c.install observed e = r at ha
  cases ha with
  | lost => exact h
  | collapse => exact c.accepts_collapsed p
  | replace => exact hwidened
  | add => exact hwidened

theorem accepts_install_head {e : Entry} (hs : c.head.saturated = false) (h : e.guard p = true) :
    (c.install c.position e).2.head.accepts p = true := by
  have ha := c.install_answer c.position e
  generalize c.install c.position e = r at ha
  cases ha with
  | lost hl => simp [hs] at hl
  | collapse => exact c.accepts_collapsed p
  | replace => exact c.accepts_widened h
  | add => exact c.accepts_widened h

theorem head_of_states {states : List ChainState} {s : ChainState}
    (h : c.states = states ++ [s]) : c.head = s := by
  obtain ⟨-, hs⟩ := List.append_inj' h rfl
  exact List.singleton_inj.1 hs

def Widening (c : Chain) : Prop :=
  c.states.Pairwise fun a b => ∀ p, a.accepts p = true → b.accepts p = true

theorem widening_new (maxDepth : Nat) : ({ maxDepth } : Chain).Widening :=
  List.pairwise_singleton _ _

theorem Widening.accepts_head (h : c.Widening) {a : ChainState} (ha : a ∈ c.states)
    (hp : a.accepts p = true) : c.head.accepts p = true := by
  obtain ⟨-, -, hold⟩ := List.pairwise_append.1 h
  rcases List.mem_append.1 ha with hm | hm
  · exact hold a hm c.head (List.mem_singleton_self _) p hp
  · rwa [← List.mem_singleton.1 hm]

theorem Widening.install (h : c.Widening) (observed : Nat) (e : Entry) :
    (c.install observed e).2.Widening := by
  rcases c.install_states observed e with ⟨-, hsame⟩ | ⟨-, -, s, hmore⟩
  · rwa [hsame]
  · rw [Widening, hmore]
    refine List.pairwise_append.2 ⟨h, List.pairwise_singleton _ _, fun a ha b hb p hp => ?_⟩
    -- what an old state accepts the old head accepts, and so does the new one
    rw [List.mem_singleton.1 hb, ← head_of_states hmore]
    exact accepts_install (h.accepts_head ha hp) observed e

theorem Widening.run (h : c.Widening) (offers : List Offer) : (c.run offers).Widening := by
  induction offers generalizing c with
  | nil => exact h
  | cons o offers ih => exact ih (h.install o.observed o.entry)

theorem accepts_published {observed : Nat} {e : Entry} {s : ChainState}
    (hs : (c.install observed e).2.states = c.states ++ [s]) (hp : e.guard p = true) :
    s.accepts p = true := by
  rcases c.install_states observed e with ⟨-, hsame⟩ | ⟨⟨hn, hsaturated⟩, -⟩
  · rw [hsame] at hs
    exact absurd (List.self_eq_append_right.1 hs) (List.cons_ne_nil s [])
  · subst hn
    rw [← head_of_states hs]
    exact accepts_install_head hsaturated hp

/-- A chain only becomes more general: whatever is offered to it and in view of whichever
state, each state accepts all that the states before it accepted, and a state published for
an entry accepts all that the entry does. -/
theorem run_generalizes (maxDepth : Nat) (offers : List Offer) (observed : Nat) (e : Entry) :
    let c := ({ maxDepth } : Chain).run offers
    (c.states.Pairwise fun a b => ∀ p, a.accepts p = true → b.accepts p = true) ∧
      ∀ s, (c.install observed e).2.states = c.states ++ [s] →
        ∀ p, e.guard p = true → s.accepts p = true := by
  intro c
  have hc : c.Widening := (widening_new maxDepth).run offers
  exact ⟨hc, fun s hs p hp => accepts_published hs hp⟩

end Chain

namespace Demonstration

def fastOffers : List Offer :=
  [⟨0, .indexFast⟩, ⟨1, .indexFast⟩, ⟨2, .cachedName (.name [120])⟩, ⟨1, .generic⟩]

end Demonstration

open Demonstration

theorem Chain.two_fast_entries_generalize :
    let c := ({ maxDepth := 3 } : Chain).run fastOffers
    let s : ChainState := {
      entries := [.cachedName (.name [120]), .indexGeneral], depth := 2, version := 4 }
    (c.install 3 .indexGeneral).2.states = c.states ++ [s] ∧
      s.accepts ⟨.string [55], false⟩ = true ∧
      (c.states.Pairwise fun a b => ∀ p, a.accepts p = true → b.accepts p = true) := by
  obtain ⟨hpairwise, hpublished⟩ := run_generalizes 3 fastOffers 3 .indexGeneral
  exact ⟨by decide, hpublished _ (by decide) _ (by decide), hpairwise⟩

end InlineCache
