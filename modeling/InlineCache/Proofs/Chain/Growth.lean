import InlineCache.Proofs.Chain.Publishing
import Mathlib.Data.List.Count
import Mathlib.Tactic.Ring

/-! How many states a chain publishes. A general index entry may drop many fast ones at
once, so that a chain can grow again after it has shrunk. What does not come back is the
room beside the entries that are not fast: each of them costs a place for good, and between
two of them no more fast entries fit than there are places left. -/

namespace InlineCache

namespace ChainState

def fast (s : ChainState) : Nat := s.entries.countP (· = .indexFast)

def lasting (s : ChainState) : Nat := s.entries.countP (· ≠ .indexFast)

theorem fast_add_lasting (s : ChainState) : s.fast + s.lasting = s.entries.length := by
  rw [s.entries.length_eq_countP_add_countP (· = .indexFast)]
  simp only [fast, lasting, decide_eq_true_eq, ne_eq]

end ChainState

namespace Chain

variable {c : Chain} {e : Entry} {d n j p : Nat}

def outcomes (c : Chain) : List Offer → List Rewrite
  | [] => []
  | o :: offers =>
    (c.install o.observed o.entry).1 :: (c.install o.observed o.entry).2.outcomes offers

def publications (c : Chain) (offers : List Offer) : Nat :=
  (c.outcomes offers).countP (· ≠ .lostRace)

theorem position_run (c : Chain) (offers : List Offer) :
    (c.run offers).position = c.position + c.publications offers := by
  induction offers generalizing c with
  | nil => rfl
  | cons o offers ih =>
    have hone : (c.install o.observed o.entry).2.position =
        c.position + if (c.install o.observed o.entry).1 ≠ .lostRace then 1 else 0 := by
      have ha := c.install_answer o.observed o.entry
      generalize c.install o.observed o.entry = r at ha
      cases ha with
      | lost => rfl
      | collapse | replace | add => exact c.position_publish _
    rw [run_cons, ih, hone]
    simp only [publications, outcomes, List.countP_cons, decide_eq_true_eq]
    omega

/-- The states that an empty chain of this depth can publish before it has to collapse. -/
def reserve (d : Nat) : Nat := d * (d + 3) / 2

theorem reserve_succ (d : Nat) : reserve (d + 1) = reserve d + (d + 2) := by
  have hstep : (d + 1) * (d + 1 + 3) = d * (d + 3) + (d + 2) * 2 := by ring
  rw [reserve, hstep, Nat.add_mul_div_right _ _ (by decide), reserve]

theorem le_reserve (d : Nat) : d ≤ reserve d := by
  induction d with
  | zero => exact Nat.zero_le _
  | succ d ih =>
    rw [reserve_succ]
    omega

/-- What a chain has published, and what the places it has left let it publish, stays
within the reserve of its depth. -/
inductive Saving (c : Chain) : Prop
  | growing (hs : c.head.saturated = false)
      (h : c.position + reserve (c.maxDepth - c.head.lasting) ≤
        reserve c.maxDepth + c.head.fast) : Saving c
  | collapsed (hs : c.head.saturated = true) (h : c.position ≤ reserve c.maxDepth + 1) : Saving c

theorem saving_new (maxDepth : Nat) : ({ maxDepth } : Chain).Saving :=
  .growing rfl (Nat.le_of_eq (Nat.zero_add _))

theorem kept_indexFast (c : Chain) : c.kept .indexFast = c.head.entries :=
  List.filter_eq_self.2 fun _ _ => rfl

theorem fast_widened (c : Chain) : (c.widened .indexFast).fast = c.head.fast + 1 := by
  rw [ChainState.fast, widened, List.countP_append, c.kept_indexFast, List.countP_singleton]
  rfl

theorem countP_kept (c : Chain) (he : e ≠ .generic) :
    (c.kept e).countP (· ≠ .indexFast) = c.head.lasting := by
  rw [kept, List.countP_filter, ChainState.lasting]
  refine List.countP_congr fun e' _ => ?_
  cases e with
  | generic => exact absurd rfl he
  | indexGeneral => simp [Entry.supersedes]
  | _ => simp [Entry.supersedes]

theorem lasting_widened (he : e ≠ .generic) :
    (c.widened e).lasting = c.head.lasting + if e = .indexFast then 0 else 1 := by
  rw [ChainState.lasting, widened, List.countP_append, c.countP_kept he, List.countP_singleton]
  by_cases hf : e = .indexFast <;> simp [hf]

theorem Saving.widened (h : c.Saving) (hc : c.head.Formed c.maxDepth)
    (hs : c.head.saturated = false) (he : e ≠ .generic) (hd : (c.kept e).length < c.maxDepth) :
    (c.publish (c.widened e)).Saving := by
  have hlasting : c.head.lasting ≤ (c.kept e).length := c.countP_kept he ▸ List.countP_le_length
  have hlength := c.head.fast_add_lasting
  refine .growing rfl ?_
  rw [position_publish]
  change c.position + 1 + reserve (c.maxDepth - (c.widened e).lasting) ≤
    reserve c.maxDepth + (c.widened e).fast
  cases hc with
  | generic hs' => simp [hs] at hs'
  | within _ hdepth hle =>
    cases h with
    | collapsed hs' => simp [hs] at hs'
    | growing _ hp =>
      rw [lasting_widened he]
      by_cases hf : e = .indexFast
      · subst hf
        rw [fast_widened, if_pos rfl]
        change _ + 1 + reserve (c.maxDepth - c.head.lasting) ≤ _
        omega
      · -- one place is gone for good, and with it more than all the fast entries there are
        obtain ⟨room, hroom⟩ : ∃ room, c.maxDepth - c.head.lasting = room + 1 :=
          ⟨c.maxDepth - c.head.lasting - 1, by omega⟩
        rw [hroom, reserve_succ] at hp
        rw [if_neg hf, show c.maxDepth - (c.head.lasting + 1) = room by omega]
        omega

theorem Saving.collapse (h : c.Saving) (hc : c.head.Formed c.maxDepth)
    (hs : c.head.saturated = false) : (c.publish c.collapsed).Saving := by
  have hlength := c.head.fast_add_lasting
  have hroom := le_reserve (c.maxDepth - c.head.lasting)
  refine .collapsed rfl ?_
  rw [position_publish]
  change c.position + 1 ≤ reserve c.maxDepth + 1
  cases hc with
  | generic hs' => simp [hs] at hs'
  | within _ hdepth hle =>
    cases h with
    | collapsed hs' => simp [hs] at hs'
    | growing _ hp => omega

theorem Saving.install (h : c.Saving) (hc : c.Published) (observed : Nat) (e : Entry) :
    (c.install observed e).2.Saving := by
  have ha := c.install_answer observed e
  generalize c.install observed e = r at ha
  cases ha with
  | lost => exact h
  | collapse _ hs => exact h.collapse hc.head_formed hs
  | replace _ hs he hd => exact h.widened hc.head_formed hs he hd
  | add _ hs he hd => exact h.widened hc.head_formed hs he hd

theorem Saving.run (h : c.Saving) (hc : c.Published) (offers : List Offer) :
    (c.run offers).Saving := by
  induction offers generalizing c with
  | nil => exact h
  | cons o offers ih => exact ih (h.install hc o.observed o.entry) (hc.install _ _)

theorem Saving.position_le (h : c.Saving) (hc : c.Published) :
    c.position ≤ reserve c.maxDepth + 1 := by
  cases h with
  | collapsed _ hp => exact hp
  | growing hs hp =>
    -- the chain could still collapse, which would publish one state more
    have hcollapse := Saving.collapse (.growing hs hp) hc.head_formed hs
    cases hcollapse with
    | growing hs' => cases hs'
    | collapsed _ hle =>
      rw [position_publish] at hle
      exact Nat.le_of_succ_le hle

structure Climbs (c : Chain) (d n j p : Nat) : Prop where
  depth : c.maxDepth = d
  unsaturated : c.head.saturated = false
  entries : c.head.entries = List.replicate n .indexGeneral ++ List.replicate j .indexFast
  position : c.position = p

theorem install_widens (hs : c.head.saturated = false) (he : e ≠ .generic)
    (hd : (c.kept e).length < c.maxDepth) :
    (c.install c.position e).2 = c.publish (c.widened e) := by
  have ha := c.install_answer c.position e
  generalize c.install c.position e = r at ha
  cases ha with
  | lost hl => simp [hs] at hl
  | collapse _ _ hl =>
    rcases hl with rfl | hl
    · exact absurd rfl he
    · omega
  | replace => rfl
  | add => rfl

theorem Climbs.fast (h : c.Climbs d n j p) (hroom : n + j < d) :
    (c.install c.position .indexFast).2.Climbs d n (j + 1) (p + 1) := by
  have hlength : (c.kept .indexFast).length < c.maxDepth := by
    rw [c.kept_indexFast, h.entries, List.length_append, List.length_replicate,
      List.length_replicate, h.depth]
    exact hroom
  rw [install_widens h.unsaturated (by decide) hlength]
  refine ⟨h.depth, rfl, ?_, ?_⟩
  · change c.kept .indexFast ++ [.indexFast] = _
    rw [c.kept_indexFast, h.entries, List.append_assoc, ← List.replicate_succ']
  · rw [position_publish, h.position]

theorem Climbs.general (h : c.Climbs d n j p) (hroom : n < d) :
    (c.install c.position .indexGeneral).2.Climbs d (n + 1) 0 (p + 1) := by
  have hkept : c.kept .indexGeneral = List.replicate n .indexGeneral := by
    simp [kept, h.entries, List.filter_append, Entry.supersedes]
  have hlength : (c.kept .indexGeneral).length < c.maxDepth := by
    rw [hkept, List.length_replicate, h.depth]
    exact hroom
  rw [install_widens h.unsaturated (by decide) hlength]
  refine ⟨h.depth, rfl, ?_, ?_⟩
  · change c.kept .indexGeneral ++ [.indexGeneral] = _
    rw [hkept, ← List.replicate_succ', List.replicate_zero, List.append_nil]
  · rw [position_publish, h.position]

theorem run_append (c : Chain) (offers more : List Offer) :
    c.run (offers ++ more) = (c.run offers).run more :=
  List.foldl_append ..

theorem Climbs.filled (h : c.Climbs d n 0 p) {room : Nat} (hroom : n + room ≤ d) :
    ∃ offers, (c.run offers).Climbs d n room (p + room) := by
  induction room with
  | zero => exact ⟨[], h⟩
  | succ room ih =>
    obtain ⟨offers, hrun⟩ := ih (by omega)
    refine ⟨offers ++ [⟨(c.run offers).position, .indexFast⟩], ?_⟩
    rw [run_append]
    exact hrun.fast (by omega)

/-- Filled up with fast entries again and again, each time for one general entry more. -/
theorem Climbs.topped (h : c.Climbs d n 0 p) {room : Nat} (hroom : n + room = d) :
    ∃ offers, (c.run offers).Climbs d d 0 (p + reserve room) := by
  induction room generalizing c n p with
  | zero =>
    obtain rfl : n = d := hroom
    exact ⟨[], h⟩
  | succ room ih =>
    obtain ⟨fill, hfill⟩ := h.filled (Nat.le_of_eq hroom)
    obtain ⟨offers, hrun⟩ := ih (hfill.general (by omega)) (by omega)
    refine ⟨fill ++ ⟨(c.run fill).position, .indexGeneral⟩ :: offers, ?_⟩
    rw [run_append, run_cons, reserve_succ]
    have hsum : p + (reserve room + (room + 2)) = p + (room + 1) + 1 + reserve room := by omega
    rw [hsum]
    exact hrun

theorem climbs_new (maxDepth : Nat) : ({ maxDepth } : Chain).Climbs maxDepth 0 0 0 :=
  ⟨rfl, rfl, rfl, rfl⟩

/-- Whatever is offered to a new chain and in view of whichever states, only a bounded
number of offers publish a state, and there are offers with which a chain of that depth
publishes as many. -/
theorem run_publications_le (maxDepth : Nat) :
    (∀ offers : List Offer, let c := ({ maxDepth } : Chain)
      c.publications offers ≤ maxDepth * (maxDepth + 3) / 2 + 1 ∧
        (c.run offers).retained = c.publications offers + 1 ∧
        (c.run offers).retained ≤ maxDepth * (maxDepth + 3) / 2 + 2) ∧
      ∃ offers : List Offer,
        (({ maxDepth } : Chain).run offers).retained = maxDepth * (maxDepth + 3) / 2 + 2 := by
  constructor
  · intro offers c
    have hpublished : c.Published := published_new maxDepth
    have hposition : (c.run offers).position = c.publications offers :=
      (c.position_run offers).trans (Nat.zero_add _)
    have hretained : (c.run offers).retained = (c.run offers).position + 1 := rfl
    have hle : (c.run offers).position ≤ reserve maxDepth + 1 := by
      have hsaving := (saving_new maxDepth).run hpublished offers
      have hbound := hsaving.position_le (hpublished.run offers)
      rwa [run_maxDepth] at hbound
    rw [reserve] at hle
    omega
  · obtain ⟨offers, htop⟩ := (climbs_new maxDepth).topped (Nat.zero_add maxDepth)
    have hlast := position_install_head htop.unsaturated .generic
    rw [htop.position, Nat.zero_add] at hlast
    refine ⟨offers ++ [⟨reserve maxDepth, .generic⟩], ?_⟩
    rw [run_append]
    exact congrArg (· + 1) hlast

end Chain

end InlineCache
