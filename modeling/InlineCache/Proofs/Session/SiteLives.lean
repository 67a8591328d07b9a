import InlineCache.Session.Run
import InlineCache.Proofs.Access.Neighbours
import InlineCache.Proofs.Session.Reactions

/-! The call sites of a session. Each was made by a step of the session, and all that has
happened to it since are accesses that arrived and returned. -/

namespace InlineCache

open Effect World

section Moving

variable {S : SiteTable → SiteTable → Prop} [IsPreorder SiteTable S]

theorem Reaction.moves_react (hS : SiteTable.AccessClosed TrapOwner Ledger S) (depth : Nat) :
    (react depth).Moves S := by
  induction depth with
  | zero => exact fun _ _ _ hr => nomatch hr
  | succ depth ih =>
    refine fun call => moves_iff.2 fun t => ?_
    exact agree_react_succ (holding_visible _)
      (fun hw => congrArg (fun w : World TrapOwner Scene => w.outer.other) hw.same)
      (fun name target key receiver => moves_iff.1 (hS.get ih name target key receiver) t)
      (fun name target key v receiver => moves_iff.1 (hS.set ih name target key v receiver) t) call

def Step.siteOp? : Step → Option SiteOp
  | .createSite direction name flags hint => some (.create direction name flags hint)
  | .destroySite name => some (.destroy name)
  | .reconfigure c => some (.reconfigure c)
  | _ => none

namespace Session

variable {s : Session} {α : Type}

def table (s : Session) : SiteTable := s.world.outer.table

theorem moves_act {a : Effect TrapOwner Scene α} (ha : Moves S a)
    (f : α → World TrapOwner Scene → Outcome) : S s.table (s.act a f).2.table := by
  simp only [act]
  cases hr : a s.world with
  | none => exact refl_of S _
  | some r => exact ha s.world r hr

theorem table_bind (s : Session) (name? : Option Text) (x : Handle) :
    (s.bind name? x).table = s.table := by
  cases name? <;> rfl

theorem moves_createProxy (s : Session) (name? : Option Text) (target : Handle) (traps : Traps) :
    S s.table (s.createProxy name? target traps).2.table := by
  simp only [createProxy]
  split
  · rw [table_bind]
    refine moves_act (moves_iff.2 fun t => ?_) _
    refine Agree.bind ((holding_visible _).agree_onStore _) fun r => ?_
    exact Agree.bind (moves_iff.1 (moves_onOuter fun _ => rfl) t) fun _ => .pure _
  · refine moves_act (moves_iff.2 fun t => ?_) _
    refine Agree.bind ((holding_visible _).agree_onStore _) fun r => ?_
    exact Agree.bind (moves_iff.1 (moves_onOuter fun _ => rfl) t) fun _ => .pure _

theorem moves_withState (chain : Text) (state? : Option Nat)
    {f : Chain → Nat → ChainState → Outcome × Session}
    (hf : ∀ c n state, S s.table (f c n state).2.table) :
    S s.table (s.withState chain state? f).2.table := by
  simp only [withState]
  cases s.chain? chain with
  | none => exact refl_of S _
  | some c =>
    simp only
    cases c.states[state?.getD c.position]? with
    | none => exact refl_of S _
    | some state => exact hf c _ state

/-- A step that is no operation on the table does to call sites what accesses do. -/
theorem moves_perform (hS : SiteTable.AccessClosed TrapOwner Ledger S) (name? : Option Text)
    {st : Step} (hst : st.siteOp? = none) : S s.table (s.perform name? st).2.table := by
  have hmoves : s.handler.Moves S := Reaction.moves_react hS _
  have hrun := hmoves.steady
  have hvisible : ∀ t, Visible (Holding (τ := TrapOwner) (β := Ledger) (S t)) :=
    fun t => holding_visible (S t)
  cases st with
  | heap op =>
    have hop : S s.table (s.act (onHeap (·.perform op)) fun a _ => .heap a).2.table :=
      moves_act (moves_iff.2 fun t => (hvisible t).agree_onHeap _) _
    simp only [perform]
    split
    · rw [table_bind]
      exact hop
    · exact hop
  | createProxy target traps => exact s.moves_createProxy name? target traps
  | changeTraps name traps =>
    refine moves_act (moves_onOuter fun o => ?_) _
    split <;> rfl
  | destroyProxy | revokeProxy =>
    exact moves_act (moves_iff.2 fun t => (hvisible t).agree_onStore _) _
  | inspectProxy | proxyTally | findSite | siteNames | config | probe | inspectEntry
  | createChain => exact refl_of S _
  | invokeSet x receiver k v strict =>
    exact moves_act (moves_iff.2 fun t => Proxy.agree_invokeSet (hrun t) x receiver k v strict) _
  | invokeGet x receiver k =>
    exact moves_act (moves_iff.2 fun t => Proxy.agree_invokeGet (hrun t) x receiver k) _
  | invokeDefine x k v =>
    exact moves_act (moves_iff.2 fun t => Proxy.agree_invokeDefine (hrun t) x k v) _
  | createSite | destroySite | reconfigure => cases hst
  | siteSet name target key v receiver =>
    exact moves_act (hS.set hmoves name target key v receiver) _
  | siteGet name target key receiver => exact moves_act (hS.get hmoves name target key receiver) _
  | inspectSite name =>
    simp only [perform]
    split <;> exact refl_of S _
  | dispatchSet flags target key v receiver =>
    exact moves_act (moves_iff.2 fun t =>
      Dispatch.agree_set (hrun t) flags target key v receiver) _
  | dispatchSetIndex flags target i v =>
    exact moves_act (moves_iff.2 fun t => Dispatch.agree_setIndex (hvisible t) flags target i v) _
  | dispatchSetName flags target k v =>
    exact moves_act (moves_iff.2 fun t => Dispatch.agree_setName (hvisible t) flags target k v) _
  | dispatchSetProxy flags target key v receiver =>
    exact moves_act (moves_iff.2 fun t =>
      Dispatch.agree_setOnProxy (hrun t) flags target key v receiver) _
  | dispatchGet target key receiver =>
    exact moves_act (moves_iff.2 fun t => Dispatch.agree_get (hrun t) target key receiver) _
  | dispatchGetIndex target i =>
    exact moves_act (moves_iff.2 fun t => Dispatch.agree_getIndex (hvisible t) target i) _
  | dispatchGetName target k =>
    exact moves_act (moves_iff.2 fun t => Dispatch.agree_getName (hvisible t) target k) _
  | dispatchGetProxy target key receiver =>
    exact moves_act (moves_iff.2 fun t =>
      Dispatch.agree_getOnProxy (hrun t) target key receiver _) _
  | entrySet flags e target key v receiver =>
    exact moves_act (moves_iff.2 fun t => Entry.agree_set (hrun t) flags e target key v receiver) _
  | entryGet e target key receiver =>
    exact moves_act (moves_iff.2 fun t => Entry.agree_get (hrun t) e target key receiver _) _
  | install chain state? e => exact moves_withState chain state? fun _ _ _ => refl_of S _
  | inspectChain chain state? => exact moves_withState chain state? fun _ _ _ => refl_of S _
  | findInChain chain state? target key =>
    exact moves_withState chain state? fun _ _ _ => refl_of S _

theorem table_perform (name? : Option Text) {st : Step} {op : SiteOp}
    (hst : st.siteOp? = some op) : (s.perform name? st).2.table = s.table.perform op := by
  cases st with
  | createSite | destroySite | reconfigure =>
    cases hst
    rfl
  | _ => cases hst

end Session

end Moving

namespace SiteTable

variable {t t' : SiteTable} {config : Config} {ops : List SiteOp} {name : Text} {s : Site}

theorem Settles.alike (h : t.Settles t') : t.Alike t' := by
  refine ⟨h.names.symm, fun name => ?_⟩
  obtain ⟨events, -, hfind⟩ := h.sites name
  rw [hfind]
  cases t.find? name with
  | none => rfl
  | some s => exact congrArg some (s.face_run events).symm

theorem Settles.find?_eq_none_iff (h : t.Settles t') (name : Text) :
    t'.find? name = none ↔ t.find? name = none := by
  obtain ⟨events, -, hfind⟩ := h.sites name
  rw [hfind, Option.map_eq_none_iff]

/-- An operation on the table makes and takes away the same sites, whatever has happened at
those that are there. -/
theorem Settles.perform (h : t.Settles t') {op : SiteOp} (hop : op.isEvent = false) :
    (t.perform op).Settles (t'.perform op) := by
  refine ⟨by rw [config_perform, config_perform, h.config], ?_, fun name => ?_⟩
  · cases op with
    | create direction name flags hint =>
      exact (h.alike.create direction name flags hint hint).2.names.symm
    | destroy name => exact (h.alike.destroy name).2.names.symm
    | reconfigure config => exact h.names
    | event => cases hop
  · have hsite := h.sites name
    rw [find?_perform, find?_perform]
    cases op with
    | create direction name' flags hint =>
      simp only [h.find?_eq_none_iff, h.config]
      split
      · exact ⟨[], .nil, rfl⟩
      · exact hsite
    | destroy name' =>
      simp only
      split
      · exact ⟨[], .nil, rfl⟩
      · exact hsite
    | reconfigure config => exact hsite
    | event => cases hop

theorem Created.site_eq {c : Creation} (h : Created config ops name c)
    (hops : ∀ op ∈ ops, op.isEvent = false) :
    c.site name = .new c.direction name c.flags c.hint c.config := by
  obtain ⟨before, after, rfl, -, -, -, hevents⟩ := h
  have hnone : c.events = [] := by
    rw [hevents, eventsAt, List.filterMap_eq_nil_iff]
    intro op hop
    have hevent := hops op (List.mem_append_right _ (List.mem_cons_of_mem _ hop))
    cases op with
    | event => cases hevent
    | _ => rfl
  rw [Creation.site, hnone]
  rfl

end SiteTable

namespace Session

variable {s : Session}

def siteOps (script : List (Option Text × Step)) : List SiteOp := script.filterMap (·.2.siteOp?)

theorem isEvent_of_siteOp? {st : Step} {op : SiteOp} (hst : st.siteOp? = some op) :
    op.isEvent = false := by
  cases st with
  | createSite | destroySite | reconfigure =>
    cases hst
    rfl
  | _ => cases hst

theorem settles_step {t : SiteTable} (h : t.Settles s.table) (name? : Option Text) (st : Step) :
    (t.run st.siteOp?.toList).Settles (s.step name? st).2.table := by
  let uncalled : Session := { s with world := { s.world with calls := [] } }
  have huncalled : t.Settles uncalled.table := h
  have hstep : (s.step name? st).2.table = (uncalled.perform name? st).2.table := rfl
  rw [hstep]
  cases hst : st.siteOp? with
  | none =>
    have hS := SiteTable.settles_accessClosed TrapOwner Ledger
    exact trans_of SiteTable.Settles huncalled (moves_perform hS name? hst)
  | some op =>
    rw [table_perform name? hst]
    exact huncalled.perform (isEvent_of_siteOp? hst)

theorem settles_run {t : SiteTable} (h : t.Settles s.table) (script : List (Option Text × Step)) :
    (t.run (siteOps script)).Settles (s.run script).2.table := by
  induction script generalizing s t with
  | nil => exact h
  | cons e script ih =>
    have hops : siteOps (e :: script) = e.2.siteOp?.toList ++ siteOps script := by
      rw [siteOps, List.filterMap_cons]
      cases e.2.siteOp? <;> rfl
    rw [hops, SiteTable.run_append]
    exact ih (settles_step h e.1 e.2)

/-- The call sites after a session are those that the operations of its script make, and each
has gone on from there by accesses that have all returned. -/
theorem settles_run_start (config : Config) (script : List (Option Text × Step)) :
    (SiteTable.after config (siteOps script)).Settles ((start config).run script).2.table :=
  @settles_run (start config) { config } (refl_of SiteTable.Settles _) script

variable {config : Config} {script : List (Option Text × Step)} {name : Text} {site : Site}

/-- A call site was created by a step of the script, under the configuration in force then,
and has lived since. -/
theorem site_created (hsite : ((start config).run script).2.table.find? name = some site) :
    ∃ c, SiteTable.Created config (siteOps script) name c ∧ ∃ events, Site.Settled events ∧
      site = (Site.new c.direction name c.flags c.hint c.config).run events := by
  obtain ⟨events, hevents, hfind⟩ := (settles_run_start config script).sites name
  obtain ⟨made, hmade, rfl⟩ := Option.map_eq_some_iff.1 (hfind.symm.trans hsite)
  obtain ⟨c, hc, rfl⟩ := SiteTable.find?_after.1 hmade
  have hnew := hc.site_eq fun op hop => by
    obtain ⟨e, -, hst⟩ := List.mem_filterMap.1 hop
    exact isEvent_of_siteOp? hst
  exact ⟨c, hc, events, hevents, congrArg (·.run events) hnew⟩

/-- What call sites count, traps that come back to them included. -/
theorem site_accounts (hsite : ((start config).run script).2.table.find? name = some site) :
    let t := site.tally
    t.hits + t.misses ≤ t.accesses ∧ t.accesses ≤ t.hits + t.misses + t.failures ∧
      t.failures ≤ t.accesses ∧ t.lostRaces = 0 ∧
      site.chain.head.version = t.installs + t.replacements + t.collapses ∧
      t.installs ≤ site.config.maxDepth.toNat ∧ t.replacements ≤ 1 ∧ t.collapses ≤ 1 ∧
      (site.chain.head.saturated = true ↔ t.collapses = 1) := by
  intro t
  obtain ⟨c, -, events, hevents, rfl⟩ := site_created hsite
  have hsound := (Site.new_sound c.direction name c.flags c.hint c.config).run events
  have htallied := Site.run_new_tallied c.direction name c.flags c.hint c.config events
  have hbounds := htallied.bounds hsound.published
  obtain ⟨ha, hhm, hf, -⟩ : t.accesses = _ ∧ t.hits + t.misses + _ = _ ∧ t.failures = _ ∧ _ :=
    Site.run_new_counts c.direction name c.flags c.hint c.config events
  have hrefused := Site.countP_isRefused_le events
  have hreturned : t.failures ≤ t.accesses := by
    rw [hf, ha, ← hevents.length_returned]
    exact List.countP_le_length
  exact ⟨by omega, by omega, hreturned, htallied.lost,
    hsound.published.head_version.trans htallied.rewrites, hsound.depth ▸ hbounds.1,
    hbounds.2.1, hbounds.2.2, htallied.saturated_iff⟩

theorem siteNames_run (config : Config) (script : List (Option Text × Step)) :
    let names := ((start config).run script).2.table.names
    names.Pairwise (· < ·) ∧ ∀ name, name ∈ names ↔ SiteTable.Live name (siteOps script) := by
  intro names
  have hshows := SiteTable.after_shows config (siteOps script)
  have hnames : names = (SiteTable.after config (siteOps script)).names :=
    (settles_run_start config script).names
  exact hnames ▸ ⟨hshows.ascending, hshows.named⟩

end Session

end InlineCache
