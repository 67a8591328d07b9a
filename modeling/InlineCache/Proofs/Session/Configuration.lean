import InlineCache.Session.Run
import InlineCache.Proofs.Access.Transparency

/-! Configurations and hints do not change results. Two runs of one script that
differ in them alone report the same at every step, apart from what is a view of
the cache itself. The relation between the runs leaves the chains of all sites
open, so it holds in the middle of an access as well, where a trap comes back to a
site that is in use. -/

namespace InlineCache

open Effect

/-- Steps that differ at most in the configuration or the hint they give. -/
inductive Step.Alike : Step → Step → Prop
  | same (st : Step) : Alike st st
  | reconfigure (config config' : Config) : Alike (.reconfigure config) (.reconfigure config')
  | createSite (direction : Direction) (name : Text) (flags : Flags) (hint hint' : Hint) :
      Alike (.createSite direction name flags hint) (.createSite direction name flags hint')

/-- An outcome without the views of chains, of what sites count and record, and of
configurations. -/
def Outcome.plain : Outcome → Outcome
  | .siteMade s chain? => .siteMade s (chain?.map fun _ => {})
  | .siteSet s _ => .siteSet s {}
  | .siteGet s v _ => .siteGet s v {}
  | .site s => .site {
      direction := s.direction, label := s.label, flags := s.flags
      config := {}, chain := { maxDepth := 0 } }
  | .config _ => .config {}
  | o => o

def Report.plain (r : Report) : Report := { r with outcome := r.outcome.plain }

namespace Session

structure Alike (s s' : Session) : Prop where
  world : s.world.Alike s'.world
  handles : s.handles = s'.handles
  chains : s.chains = s'.chains

variable {s s' : Session}

def Match (r r' : Outcome × Session) : Prop := r.1.plain = r'.1.plain ∧ r.2.Alike r'.2

theorem Alike.handler (h : s.Alike s') : s.handler = s'.handler := by
  simp only [Session.handler]
  rw [h.world.store]

theorem Alike.steady (h : s.Alike s') : s'.handler.Steady World.Alike World.Alike :=
  h.handler ▸ Reaction.steady_react _

theorem Alike.bind (h : s.Alike s') (name? : Option Text) (x : Handle) :
    (s.bind name? x).Alike (s'.bind name? x) := by
  cases name? with
  | none => exact h
  | some name => exact ⟨h.world, congrArg (List.cons _) h.handles, h.chains⟩

theorem Alike.setChain (h : s.Alike s') (name : Text) (c : Chain) :
    (s.setChain name c).Alike (s'.setChain name c) :=
  ⟨h.world, h.handles, congrArg (List.cons _) h.chains⟩

theorem Alike.act {α : Type} (h : s.Alike s') {a : Effect TrapOwner Scene α}
    (ha : Agree World.Alike World.Alike a a) {f : α → World TrapOwner Scene → Outcome}
    (hf : ∀ x w w', w.Alike w' → (f x w).plain = (f x w').plain) :
    Match (s.act a f) (s'.act a f) := by
  have hr := ha _ _ h.world
  simp only [Session.act]
  generalize a s.world = r, a s'.world = r' at hr
  cases hr with
  | none => exact ⟨rfl, h⟩
  | @some r r' hr =>
    obtain ⟨x, w⟩ := r
    obtain ⟨x', w'⟩ := r'
    obtain ⟨hx, hw⟩ := hr
    cases hx
    exact ⟨hf x w w' hw, hw, h.handles, h.chains⟩

theorem Alike.act_answer {α : Type} (h : s.Alike s') {a : Effect TrapOwner Scene α}
    (ha : Agree World.Alike World.Alike a a) (f : α → Outcome) :
    (s.act a fun x _ => f x).1 = (s'.act a fun x _ => f x).1 ∧
      (s.act a fun x _ => f x).2.Alike (s'.act a fun x _ => f x).2 := by
  have hr := ha _ _ h.world
  simp only [Session.act]
  generalize a s.world = r, a s'.world = r' at hr
  cases hr with
  | none => exact ⟨rfl, h⟩
  | some hr => exact ⟨congrArg f hr.1, hr.2, h.handles, h.chains⟩

theorem Alike.bindMade {r r' : Outcome × Session} (h : r.1 = r'.1 ∧ r.2.Alike r'.2)
    (name? : Option Text) :
    Match
      (match r.1 with
        | .made _ x => (r.1, r.2.bind name? x)
        | _ => (r.1, r.2))
      (match r'.1 with
        | .made _ x => (r'.1, r'.2.bind name? x)
        | _ => (r'.1, r'.2)) := by
  obtain ⟨o, s⟩ := r
  obtain ⟨o', s'⟩ := r'
  obtain ⟨ho, hs⟩ := h
  cases ho
  cases o <;> first | exact ⟨rfl, hs.bind name? _⟩ | exact ⟨rfl, hs⟩

theorem Alike.bindHeapMade {r r' : Outcome × Session} (h : r.1 = r'.1 ∧ r.2.Alike r'.2)
    (name? : Option Text) :
    Match
      (match r.1 with
        | .heap (.made _ x) => (r.1, r.2.bind name? x)
        | _ => (r.1, r.2))
      (match r'.1 with
        | .heap (.made _ x) => (r'.1, r'.2.bind name? x)
        | _ => (r'.1, r'.2)) := by
  obtain ⟨o, s⟩ := r
  obtain ⟨o', s'⟩ := r'
  obtain ⟨ho, hs⟩ := h
  cases ho
  cases o with
  | heap a => cases a <;> first | exact ⟨rfl, hs.bind name? _⟩ | exact ⟨rfl, hs⟩
  | _ => exact ⟨rfl, hs⟩

theorem Alike.withState (h : s.Alike s') (chain : Text) (state? : Option Nat)
    {f f' : Chain → Nat → ChainState → Outcome × Session}
    (hf : ∀ c n state, Match (f c n state) (f' c n state)) :
    Match (s.withState chain state? f) (s'.withState chain state? f') := by
  have hc : s.chain? chain = s'.chain? chain := by
    simp only [Session.chain?]
    rw [h.chains]
  simp only [Session.withState, hc]
  cases s'.chain? chain with
  | none => exact ⟨rfl, h⟩
  | some c =>
    simp only
    cases c.states[state?.getD c.position]? with
    | none => exact ⟨rfl, h⟩
    | some state => exact hf c _ state

theorem Alike.createProxy (h : s.Alike s') (name? : Option Text) (target : Handle)
    (traps : Traps) :
    Match (s.createProxy name? target traps) (s'.createProxy name? target traps) := by
  have howner : s.world.outer.other.next (name?.getD []) =
      s'.world.outer.other.next (name?.getD []) := by
    rw [h.world.outer.other]
  simp only [Session.createProxy, ← howner]
  generalize hr : s.act _ _ = r, hr' : s'.act _ _ = r'
  have hact : r.1 = r'.1 ∧ r.2.Alike r'.2 := by
    rw [← hr, ← hr']
    apply h.act_answer
    apply Agree.bind (World.alike_visible.agree_onStore _)
    intro made
    apply Agree.bind (Q := World.Alike)
    · apply agree_onOuter
      intro o o' ho
      exact ⟨rfl, ho.table, congrArg (List.cons _) ho.other⟩
    · intro _
      exact .pure _
  exact Alike.bindMade hact name?

theorem agree_changeTraps (name : Text) (traps : Traps) :
    Agree World.Alike World.Alike (changeTraps name traps) (changeTraps name traps) := by
  apply agree_onOuter
  intro o o' ho
  rw [ho.other]
  cases o'.other.latest? name with
  | none => exact ⟨rfl, ho⟩
  | some owner => exact ⟨rfl, ho.table, rfl⟩

theorem Alike.createSite (h : s.Alike s') (direction : Direction) (name : Text) (flags : Flags)
    (hint hint' : Hint) :
    Match (s.createSite direction name flags hint) (s'.createSite direction name flags hint') := by
  have hc := h.world.outer.table.create direction name flags hint hint'
  refine ⟨?_, ⟨h.world.store, h.world.calls, hc.2, h.world.outer.other⟩, h.handles, h.chains⟩
  have hchain := hc.2.typed? direction name
  simp only [Session.createSite, Session.act, onOuter_apply, Outcome.plain, hc.1]
  rcases hchain with ⟨t, t', ht, ht', -⟩ | ⟨status, ht, ht'⟩
  · simp [ht, ht', Except.toOption]
  · simp [ht, ht', Except.toOption]

theorem found_alike {t t' : SiteTable} (h : t.Alike t') (direction : Direction) (name : Text) :
    found (t.typed? direction name) = found (t'.typed? direction name) := by
  rcases h.typed? direction name with ⟨x, x', hx, hx', -, -, hface⟩ | ⟨status, hx, hx'⟩
  · rw [hx, hx']
    exact congrArg (fun f : Site.Face => (Status.ok, some f.label)) hface
  · rw [hx, hx']

theorem Alike.inspectSite (h : s.Alike s') (name? : Option Text) (name : Text) :
    Match (s.perform name? (.inspectSite name)) (s'.perform name? (.inspectSite name)) := by
  have hface := h.world.outer.table.faces name
  simp only [perform]
  cases ht : s.world.outer.table.find? name with
  | none =>
    cases ht' : s'.world.outer.table.find? name with
    | none => exact ⟨rfl, h⟩
    | some x' => simp [ht, ht'] at hface
  | some x =>
    cases ht' : s'.world.outer.table.find? name with
    | none => simp [ht, ht'] at hface
    | some x' =>
      simp only [ht, ht', Option.map_some, Option.some.injEq] at hface
      refine ⟨?_, h⟩
      simp only [Outcome.plain, Outcome.site.injEq, Site.mk.injEq, and_true]
      exact ⟨congrArg Site.Face.direction hface, congrArg Site.Face.label hface,
        congrArg Site.Face.flags hface⟩

theorem Alike.perform (h : s.Alike s') {st st' : Step} (hst : st.Alike st')
    (name? : Option Text) : Match (s.perform name? st) (s'.perform name? st') := by
  have hstore := h.world.store
  have htable := h.world.outer.table
  have hsteady := h.steady
  cases hst with
  | reconfigure config config' =>
    exact ⟨rfl, ⟨h.world.store, h.world.calls, ⟨htable.names, htable.faces⟩, h.world.outer.other⟩,
      h.handles, h.chains⟩
  | createSite direction name flags hint hint' => exact h.createSite _ _ _ _ _
  | same st =>
    cases st with
    | heap op =>
      exact Alike.bindHeapMade
        (h.act_answer (World.alike_visible.agree_onHeap (·.perform op)) .heap) name?
    | createProxy target traps => exact h.createProxy name? target traps
    | changeTraps name traps => exact h.act (agree_changeTraps name traps) fun _ _ _ _ => rfl
    | destroyProxy x => exact h.act (World.alike_visible.agree_onStore _) fun _ _ _ _ => rfl
    | revokeProxy x => exact h.act (World.alike_visible.agree_onStore _) fun _ _ _ _ => rfl
    | inspectProxy x => exact ⟨by simp only [Session.perform, hstore], h⟩
    | invokeSet x receiver k v strict =>
      simp only [Session.perform, h.handler]
      exact h.act (Proxy.agree_invokeSet hsteady _ _ _ _ _) fun _ _ _ _ => rfl
    | invokeGet x receiver k =>
      simp only [Session.perform, h.handler]
      exact h.act (Proxy.agree_invokeGet hsteady _ _ _) fun _ _ _ _ => rfl
    | invokeDefine x k v =>
      simp only [Session.perform, h.handler]
      exact h.act (Proxy.agree_invokeDefine hsteady _ _ _) fun _ _ _ _ => rfl
    | proxyTally => exact ⟨by simp only [Session.perform, hstore], h⟩
    | createSite direction name flags hint => exact h.createSite _ _ _ _ _
    | findSite name => exact ⟨by simp only [Session.perform, found_alike htable], h⟩
    | destroySite name =>
      apply h.act
      · apply agree_onOuter
        intro o o' ho
        obtain ⟨hs, ht⟩ := ho.table.destroy name
        exact ⟨hs, ht, ho.other⟩
      · exact fun _ _ _ _ => rfl
    | siteNames => exact ⟨by simp only [Session.perform, htable.names], h⟩
    | reconfigure config =>
      exact ⟨rfl, ⟨hstore, h.world.calls, ⟨htable.names, htable.faces⟩, h.world.outer.other⟩,
        h.handles, h.chains⟩
    | config => exact ⟨rfl, h⟩
    | siteSet name target key v receiver =>
      simp only [Session.perform, h.handler]
      apply h.act (Site.agree_set hsteady _ _ _ _ _)
      intro x w w' _
      cases x <;> rfl
    | siteGet name target key receiver =>
      simp only [Session.perform, h.handler]
      apply h.act (Site.agree_get hsteady _ _ _ _)
      intro x w w' _
      cases x <;> rfl
    | inspectSite name => exact h.inspectSite name? name
    | dispatchSet flags target key v receiver =>
      simp only [Session.perform, h.handler]
      exact h.act (Dispatch.agree_set hsteady _ _ _ _ _) fun _ _ _ _ => rfl
    | dispatchSetIndex flags target i v =>
      exact h.act (Dispatch.agree_setIndex World.alike_visible _ _ _ _) fun _ _ _ _ => rfl
    | dispatchSetName flags target k v =>
      exact h.act (Dispatch.agree_setName World.alike_visible _ _ _ _) fun _ _ _ _ => rfl
    | dispatchSetProxy flags target key v receiver =>
      simp only [Session.perform, h.handler]
      exact h.act (Dispatch.agree_setOnProxy hsteady _ _ _ _ _) fun _ _ _ _ => rfl
    | dispatchGet target key receiver =>
      simp only [Session.perform, h.handler]
      exact h.act (Dispatch.agree_get hsteady _ _ _) fun _ _ _ _ => rfl
    | dispatchGetIndex target i =>
      exact h.act (Dispatch.agree_getIndex World.alike_visible _ _) fun _ _ _ _ => rfl
    | dispatchGetName target k =>
      exact h.act (Dispatch.agree_getName World.alike_visible _ _) fun _ _ _ _ => rfl
    | dispatchGetProxy target key receiver =>
      simp only [Session.perform, h.handler]
      exact h.act (Dispatch.agree_getOnProxy hsteady _ _ _ _) fun _ _ _ _ => rfl
    | probe target key preferNative guards? =>
      exact ⟨by simp only [Session.perform, hstore], h⟩
    | entrySet flags e target key v receiver =>
      simp only [Session.perform, h.handler]
      exact h.act (Entry.agree_set hsteady _ _ _ _ _ _) fun _ _ _ _ => rfl
    | entryGet e target key receiver =>
      simp only [Session.perform, h.handler]
      exact h.act (Entry.agree_get hsteady _ _ _ _ _) fun _ _ _ _ => rfl
    | inspectEntry e others? => exact ⟨rfl, h⟩
    | createChain maxDepth => exact ⟨rfl, h.setChain _ _⟩
    | install chain state? e =>
      exact h.withState chain state? fun c n _ => ⟨rfl, h.setChain _ _⟩
    | inspectChain chain state? => exact h.withState chain state? fun _ _ _ => ⟨rfl, h⟩
    | findInChain chain state? target key =>
      apply h.withState
      intro _ _ state
      rw [hstore]
      exact ⟨rfl, h⟩

theorem Alike.step (h : s.Alike s') {st st' : Step} (hst : st.Alike st') (name? : Option Text) :
    (s.step name? st).1.plain = (s'.step name? st').1.plain ∧
      (s.step name? st).2.Alike (s'.step name? st').2 := by
  have hcalls : Session.Alike { s with world := { s.world with calls := [] } }
      { s' with world := { s'.world with calls := [] } } :=
    ⟨World.alike_visible.putCalls h.world [], h.handles, h.chains⟩
  obtain ⟨houtcome, hs⟩ := hcalls.perform hst name?
  refine ⟨?_, hs⟩
  simp only [Session.step, Report.plain, Report.mk.injEq]
  exact ⟨houtcome, hs.world.calls⟩

theorem Alike.run {script script' : List (Option Text × Step)}
    (hscript : List.Forall₂ (fun e e' => e.1 = e'.1 ∧ e.2.Alike e'.2) script script')
    (h : s.Alike s') :
    (s.run script).1.map Report.plain = (s'.run script').1.map Report.plain := by
  induction hscript generalizing s s' with
  | nil => rfl
  | @cons e e' rest rest' he _ ih =>
    obtain ⟨name?, st⟩ := e
    obtain ⟨name?', st'⟩ := e'
    obtain ⟨hname, hst⟩ := he
    cases hname
    obtain ⟨hreport, hs⟩ := h.step hst name?
    simp only [Session.run, List.map_cons, hreport, ih hs]

theorem start_alike (config config' : Config) : (start config).Alike (start config') :=
  ⟨⟨rfl, rfl, ⟨rfl, fun _ => rfl⟩, rfl⟩, rfl, rfl⟩

/-- Two runs of one script under different configurations and hints report the same
at every step: outcomes, values, trap calls, answers and tallies of heap and proxies. -/
theorem run_independent_of_configuration (config config' : Config)
    {script script' : List (Option Text × Step)}
    (hscript : List.Forall₂ (fun e e' => e.1 = e'.1 ∧ e.2.Alike e'.2) script script') :
    ((start config).run script).1.map Report.plain =
      ((start config').run script').1.map Report.plain :=
  Alike.run hscript (start_alike config config')

end Session

namespace Demonstration

def script (config : Config) (hint : Hint) : List (Option Text × Step) := [
  (some [111], .heap (.create [111] .null)),
  (some [112], .createProxy ⟨0, 1⟩ { set? := some { mode := .site [119] } }),
  (none, .createSite .write [119] { strict := true } hint),
  (none, .siteSet [119] ⟨1, 1⟩ (.int32 7) .null .null),
  (none, .reconfigure config),
  (none, .createSite .read [114] {} hint),
  (none, .siteGet [114] ⟨0, 1⟩ (.int32 7) .null),
  (none, .heap (.ownKeys ⟨0, 1⟩))]

theorem script_alike (config config' : Config) (hint hint' : Hint) :
    List.Forall₂ (fun e e' => e.1 = e'.1 ∧ e.2.Alike e'.2) (script config hint)
      (script config' hint') := by
  simp only [script, List.forall₂_cons, List.Forall₂.nil, and_true, true_and]
  exact ⟨.same _, .same _, .createSite _ _ _ _ _, .same _, .reconfigure _ _,
    .createSite _ _ _ _ _, .same _, .same _⟩

end Demonstration

open Demonstration in
theorem Session.run_script_independent :
    List.Forall₂ (fun e e' => e.1 = e'.1 ∧ e.2.Alike e'.2)
        (script { maxDepth := 3, tracing := true } .indexLike) (script {} .unknown) ∧
      ((start { maxDepth := 4, preferNative := false }).run
        (script { maxDepth := 3, tracing := true } .indexLike)).1.map Report.plain =
      ((start {}).run (script {} .unknown)).1.map Report.plain :=
  have hscript := script_alike { maxDepth := 3, tracing := true } {} .indexLike .unknown
  ⟨hscript, run_independent_of_configuration { maxDepth := 4, preferNative := false } {} hscript⟩

end InlineCache
