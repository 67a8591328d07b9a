import InlineCache.Proofs.Access.Sites
import InlineCache.Proofs.Site.Accounting

/-! Accesses as events in the lives of call sites. An access at a site arrives, does what it
does elsewhere and returns its status; in between, traps may bring other accesses to any
site, this one included, and these have returned before it does. -/

namespace InlineCache

variable {τ β α : Type}

namespace Site

theorem Settled.append {events more : List Event} (h : Settled events) (h' : Settled more) :
    Settled (events ++ more) := by
  induction h with
  | nil => exact h'
  | refused hc _ ih => exact .refused hc ih
  | served hc hinner _ _ ih =>
    rw [List.cons_append, List.append_assoc, List.cons_append]
    exact .served hc hinner ih

end Site

namespace SiteTable

/-- The sites of `t` have gone on to those of `t'` by accesses that have all returned. -/
structure Settles (t t' : SiteTable) : Prop where
  config : t'.config = t.config
  names : t'.names = t.names
  sites : ∀ name, ∃ events, Site.Settled events ∧
    t'.find? name = (t.find? name).map (·.run events)

instance : IsPreorder SiteTable Settles where
  refl t := by
    refine ⟨rfl, rfl, fun name => ⟨[], .nil, ?_⟩⟩
    cases t.find? name <;> rfl
  trans t t' t'' h h' := by
    refine ⟨h'.config.trans h.config, h'.names.trans h.names, fun name => ?_⟩
    obtain ⟨events, hs, ht⟩ := h.sites name
    obtain ⟨more, hs', ht'⟩ := h'.sites name
    refine ⟨events ++ more, hs.append hs', ?_⟩
    rw [ht', ht, Option.map_map]
    congr 1
    funext s
    exact (s.run_append events more).symm

end SiteTable

open Effect

structure World.Holding (I : SiteTable → Prop) (w w' : World τ (Surroundings β)) : Prop where
  same : w = w'
  holds : I w.outer.table

theorem World.holding_visible (I : SiteTable → Prop) :
    Visible (World.Holding (τ := τ) (β := β) I) where
  store h := congrArg World.store h.same
  calls h := congrArg World.calls h.same
  putStore h _ := ⟨h.same ▸ rfl, h.holds⟩
  putCalls h _ := ⟨h.same ▸ rfl, h.holds⟩

def Effect.Moves (S : SiteTable → SiteTable → Prop) (a : Effect τ (Surroundings β) α) : Prop :=
  ∀ w r, a w = some r → S w.outer.table r.2.outer.table

def Handler.Moves (S : SiteTable → SiteTable → Prop) (run : Handler τ (Surroundings β)) : Prop :=
  ∀ call, Effect.Moves S (run call)

section Moving

variable {S : SiteTable → SiteTable → Prop} [IsPreorder SiteTable S]
  {run : Handler τ (Surroundings β)}

theorem Effect.moves_iff {a : Effect τ (Surroundings β) α} :
    Moves S a ↔ ∀ t, Agree (World.Holding (S t)) (World.Holding (S t)) a a := by
  constructor
  · rintro h t w w' ⟨rfl, ht⟩
    cases hr : a w with
    | none => exact .none
    | some r => exact .some ⟨rfl, rfl, trans_of S ht (h w r hr)⟩
  · intro h w r hr
    have hrel := h w.outer.table w w ⟨rfl, refl_of S _⟩
    rw [hr] at hrel
    cases hrel with
    | some hrel => exact hrel.2.holds

theorem Effect.moves_onOuter {f : Surroundings β → α × Surroundings β}
    (hf : ∀ o, (f o).2.table = o.table) :
    Moves S (onOuter f : Effect τ (Surroundings β) α) := by
  intro w r hr
  cases hr
  rw [hf]
  exact refl_of S _

theorem Handler.Moves.steady (h : run.Moves S) (t : SiteTable) :
    run.Steady (World.Holding (S t)) (World.Holding (S t)) :=
  ⟨World.holding_visible _, World.holding_visible _, fun _ _ hw => hw,
    fun call => moves_iff.1 (h call) t⟩

theorem Dispatch.moves_set (h : run.Moves S) (flags : Flags) (target : Handle) (key v : Value)
    (receiver : Handle) : Effect.Moves S (set run flags target key v receiver) :=
  moves_iff.2 fun t => agree_set (h.steady t) flags target key v receiver

theorem Dispatch.moves_get (h : run.Moves S) (target : Handle) (key : Value)
    (receiver : Handle) : Effect.Moves S (get run target key receiver) :=
  moves_iff.2 fun t => agree_get (h.steady t) target key receiver

structure SiteTable.AccessClosed (τ β : Type) (S : SiteTable → SiteTable → Prop) : Prop where
  set : ∀ {run : Handler τ (Surroundings β)}, run.Moves S → ∀ name target key v receiver,
    Effect.Moves S (Site.set run name target key v receiver)
  get : ∀ {run : Handler τ (Surroundings β)}, run.Moves S → ∀ name target key receiver,
    Effect.Moves S (Site.get run name target key receiver)

end Moving

namespace Site

variable {run : Handler τ (Surroundings β)} {w : World τ (Surroundings β)} {name : Text} {s : Site}
  {target : Handle} {key : Value}

theorem find?_learned (hs : w.outer.table.find? name = some s)
    (hc : key.classify.needsCoercion = false) (name' : Text) :
    (w.learned name s target key).outer.table.find? name' =
      if name' = name then some (s.step (.access (w.store.heap.probe target key)))
      else w.outer.table.find? name' := by
  rw [step_access (p := w.store.heap.probe target key) hc]
  simp only [World.learned, World.withSite, SiteTable.find?_modify]
  split
  · next hn => rw [hn, hs, Option.map_some]
  · rfl

/-- An access that a site serves is an event of its life, and the status that is returned is
another, after those of the accesses that traps made meanwhile. -/
theorem served_settles {a : Effect τ (Surroundings β) α} (ha : Moves SiteTable.Settles a)
    (hs : w.outer.table.find? name = some s) (hc : key.classify.needsCoercion = false) {x : α}
    {v : World τ (Surroundings β)} (hv : a (w.learned name s target key) = some (x, v))
    (status : Status) :
    w.outer.table.Settles (v.withSite name (·.complete status)).outer.table := by
  -- what the effect does, it does to the sites as they are once this one has learned
  have hinner := ha _ _ hv
  refine ⟨hinner.config, ?_, fun name' => ?_⟩
  · exact (SiteTable.names_modify ..).trans (hinner.names.trans (SiteTable.names_modify ..))
  · obtain ⟨inner, hsettled, hfind⟩ := hinner.sites name'
    rw [find?_learned hs hc] at hfind
    simp only [World.withSite, SiteTable.find?_modify]
    by_cases hn : name' = name
    · subst hn
      rw [if_pos rfl, Option.map_some] at hfind
      refine ⟨.access (w.store.heap.probe target key) :: (inner ++ [.answer status]),
        .served hc hsettled .nil, ?_⟩
      rw [if_pos rfl, hfind, hs, Option.map_some, Option.map_some, run_cons, run_append]
      rfl
    · rw [if_neg hn] at hfind
      exact ⟨inner, hsettled, by rw [if_neg hn, hfind]⟩

theorem refused_settles (target : Handle) (hs : w.outer.table.find? name = some s)
    (hc : key.classify.needsCoercion = true) :
    w.outer.table.Settles (w.withSite name reject).outer.table := by
  refine ⟨rfl, SiteTable.names_modify .., fun name' => ?_⟩
  simp only [World.withSite, SiteTable.find?_modify]
  by_cases hn : name' = name
  · subst hn
    refine ⟨[.access (w.store.heap.probe target key)], .refused hc .nil, ?_⟩
    rw [if_pos rfl, hs, Option.map_some, Option.map_some]
    exact congrArg some (step_refused (p := w.store.heap.probe target key) hc).symm
  · refine ⟨[], .nil, ?_⟩
    rw [if_neg hn]
    cases w.outer.table.find? name' <;> rfl

theorem Leaves.settles {a : Site → Effect τ (Surroundings β) α} {status : α → Status}
    {w' : World τ (Surroundings β)} (h : Leaves a status name target key w w')
    (ha : ∀ s, Moves SiteTable.Settles (a s)) : w.outer.table.Settles w'.outer.table := by
  cases h with
  | missing => exact refl_of SiteTable.Settles _
  | refused hs hc => exact refused_settles target hs hc
  | served hs hc hv => exact served_settles (ha _) hs hc hv _

end Site

theorem SiteTable.settles_accessClosed (τ β : Type) : AccessClosed τ β Settles where
  set hrun _ _ _ _ _ _ _ hr :=
    (Site.set_leaves hr).settles fun s => Dispatch.moves_set hrun s.flags _ _ _ _
  get hrun _ _ _ _ _ _ hr := (Site.get_leaves hr).settles fun _ => Dispatch.moves_get hrun _ _ _

end InlineCache
