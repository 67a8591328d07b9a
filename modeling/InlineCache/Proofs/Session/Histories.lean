import InlineCache.Proofs.Access.Guard
import InlineCache.Proofs.Proxy.Records
import InlineCache.Session.Run

/-! The store of a session has a history.
Whatever a session does to its store it does by operations of heap and registry, through
proxies, traps and call sites alike. What every operation keeps, every session therefore
keeps. -/

namespace InlineCache

variable {τ ω β α γ : Type}

/-- What no operation on the store breaks, unless it takes a record away. -/
def Store.Lasting (I : Store τ → Prop) : Prop :=
  ∀ s op, op.closes? = none → I s → I (s.perform op)

theorem Store.lasting_reached : Lasting (Reached (τ := τ)) :=
  fun _ op _ hr => hr.perform op

def StoreOp.serves : StoreOp τ → Bool
  | .heap op =>
    match op with
    | .defineOwn .. | .setNamed .. | .setIndexed .. | .getNamed .. | .getIndexed .. => true
    | _ => false
  | .countForwards _ | .countTrap _ | .countRejection => true
  | _ => false

def Store.Served (I : Store τ → Prop) : Prop :=
  ∀ s op, op.serves = true → I s → I (s.perform op)

theorem StoreOp.closes?_of_serves {op : StoreOp τ} (h : op.serves = true) : op.closes? = none := by
  cases op with
  | destroyProxy x => cases h
  | _ => rfl

theorem Store.Lasting.served {I : Store τ → Prop} (hI : Lasting I) : Served I :=
  fun s op hop hs => hI s op (StoreOp.closes?_of_serves hop) hs

namespace Effect

variable {I : Store τ → Prop}

def Keeps (I : Store τ → Prop) (a : Effect τ ω α) : Prop :=
  ∀ w r, I w.store → a w = some r → I r.2.store

theorem Keeps.pure (x : α) : Keeps I (pure x : Effect τ ω α) := by
  intro w r hw hr
  cases hr
  exact hw

theorem Keeps.bind {a : Effect τ ω α} {f : α → Effect τ ω γ} (ha : Keeps I a)
    (hf : ∀ x, Keeps I (f x)) : Keeps I (a >>= f) := by
  intro w r hw hr
  rw [bind_apply] at hr
  obtain ⟨r', hr', hr⟩ := Option.bind_eq_some_iff.1 hr
  exact hf r'.1 r'.2 r (ha w r' hw hr') hr

theorem keeps_onStore {f : Store τ → α × Store τ} (hf : ∀ s, I s → I (f s).2) :
    Keeps I (onStore f : Effect τ ω α) := by
  intro w r hw hr
  cases hr
  exact hf w.store hw

theorem keeps_onHeap {f : Heap → α × Heap} (hf : ∀ s, I s → I { s with heap := (f s.heap).2 }) :
    Keeps I (onHeap f : Effect τ ω α) :=
  keeps_onStore hf

theorem keeps_readStore (f : Store τ → α) : Keeps I (readStore f : Effect τ ω α) :=
  keeps_onStore fun _ hs => hs

theorem keeps_onOuter (f : ω → α × ω) : Keeps I (onOuter f : Effect τ ω α) := by
  intro w r hw hr
  cases hr
  exact hw

theorem keeps_log (call : TrapCall τ) : Keeps I (log call : Effect τ ω Unit) := by
  intro w r hw hr
  cases hr
  exact hw

end Effect

open Effect

def Handler.Keeps (I : Store τ → Prop) (run : Handler τ ω) : Prop :=
  ∀ call, Effect.Keeps I (run call)

section Access

variable {I : Store τ → Prop} {run : Handler τ ω}

namespace Proxy

theorem keeps_forward (hI : Store.Served I) (select : Proxy τ → Option τ) (x : Handle) :
    Keeps I (forward select x : Effect τ ω (Landing τ)) := by
  intro w r hw hr
  obtain ⟨l, -, rfl⟩ := Option.map_eq_some_iff.1 hr
  exact hI w.store (.countForwards l.1) rfl hw

theorem keeps_callTrap (hI : Store.Served I) (hrun : run.Keeps I) (call : TrapCall τ) :
    Keeps I (callTrap run call) := by
  refine Keeps.bind (keeps_log call) fun _ => ?_
  refine Keeps.bind (hrun call) fun reply => ?_
  exact Keeps.bind (keeps_onStore fun s => hI s (.countTrap reply.status) rfl) fun _ => .pure reply

theorem keeps_settle (hI : Store.Served I) (reply : TrapReply) (strict : Bool) :
    Keeps I (settle reply strict : Effect τ ω Status) := by
  simp only [settle]
  split
  · exact .pure _
  · split
    · exact .pure _
    · exact (keeps_onStore fun s => hI s .countRejection rfl).bind fun _ => .pure _

theorem keeps_invokeSet (hI : Store.Served I) (hrun : run.Keeps I) (x receiver : Handle)
    (k : PropertyKey) (v : Value) (strict : Bool) :
    Keeps I (invokeSet run x receiver k v strict) := by
  refine Keeps.bind (keeps_forward hI _ x) fun landing => ?_
  cases landing with
  | refused status => exact .pure status
  | trapped trap target =>
    exact (keeps_callTrap hI hrun _).bind fun reply => keeps_settle hI reply strict
  | object target => exact keeps_onHeap fun s => hI s (.heap (.setNamed target k v strict)) rfl

theorem keeps_invokeGet (hI : Store.Served I) (hrun : run.Keeps I) (x receiver : Handle)
    (k : PropertyKey) : Keeps I (invokeGet run x receiver k) := by
  refine Keeps.bind (keeps_forward hI _ x) fun landing => ?_
  cases landing with
  | refused status => exact .pure _
  | trapped trap target => exact (keeps_callTrap hI hrun _).bind fun reply => .pure _
  | object target => exact keeps_onHeap fun s => hI s (.heap (.getNamed target k)) rfl

theorem keeps_invokeDefine (hI : Store.Served I) (hrun : run.Keeps I) (x : Handle)
    (k : PropertyKey) (v : Value) : Keeps I (invokeDefine run x k v) := by
  refine Keeps.bind (keeps_forward hI _ x) fun landing => ?_
  cases landing with
  | refused status => exact .pure status
  | trapped trap target =>
    exact (keeps_callTrap hI hrun _).bind fun reply => keeps_settle hI reply true
  | object target => exact keeps_onHeap fun s => hI s (.heap (.defineOwn target k v)) rfl

end Proxy

namespace Dispatch

theorem keeps_setName (hI : Store.Served I) (flags : Flags) (target : Handle) (k : PropertyKey)
    (v : Value) : Keeps I (setName flags target k v : Effect τ ω Status) := by
  simp only [setName]
  split
  · exact keeps_onHeap fun s => hI s (.heap (.defineOwn target k v)) rfl
  · exact keeps_onHeap fun s => hI s (.heap (.setNamed target k v flags.strict)) rfl

theorem keeps_setIndex (hI : Store.Served I) (flags : Flags) (target : Handle) (i : Nat)
    (v : Value) : Keeps I (setIndex flags target i v : Effect τ ω Status) := by
  simp only [setIndex]
  split
  · exact keeps_onHeap fun s => hI s (.heap (.defineOwn target _ v)) rfl
  · exact keeps_onHeap fun s => hI s (.heap (.setIndexed target i v flags.strict)) rfl

theorem keeps_setOnProxy (hI : Store.Served I) (hrun : run.Keeps I) (flags : Flags)
    (proxy : Handle) (key v : Value) (receiver : Handle) :
    Keeps I (setOnProxy run flags proxy key v receiver) := by
  simp only [setOnProxy]
  split
  · exact .pure _
  · split
    · exact Proxy.keeps_invokeDefine hI hrun _ _ _
    · exact Proxy.keeps_invokeSet hI hrun _ _ _ _ _

theorem keeps_set (hI : Store.Served I) (hrun : run.Keeps I) (flags : Flags) (target : Handle)
    (key v : Value) (receiver : Handle) : Keeps I (set run flags target key v receiver) := by
  simp only [set]
  split
  · exact .pure _
  · refine Keeps.bind (keeps_readStore _) fun onProxy => ?_
    split
    · exact keeps_setOnProxy hI hrun flags target key v receiver
    · split
      · exact keeps_setIndex hI flags target _ v
      · exact keeps_setName hI flags target _ v

theorem keeps_getName (hI : Store.Served I) (target : Handle) (k : PropertyKey) :
    Keeps I (getName target k : Effect τ ω (Status × Value)) :=
  (keeps_onHeap (f := (·.getNamed target k)) fun s =>
    hI s (.heap (.getNamed target k)) rfl).bind fun _ => .pure _

theorem keeps_getIndex (hI : Store.Served I) (target : Handle) (i : Nat) :
    Keeps I (getIndex target i : Effect τ ω (Status × Value)) :=
  (keeps_onHeap (f := (·.getIndexed target i)) fun s =>
    hI s (.heap (.getIndexed target i)) rfl).bind fun _ => .pure _

theorem keeps_getOnProxy (hI : Store.Served I) (hrun : run.Keeps I) (proxy : Handle) (key : Value)
    (receiver : Handle) (held : Value) : Keeps I (getOnProxy run proxy key receiver held) := by
  simp only [getOnProxy]
  split
  · exact .pure _
  · exact (Proxy.keeps_invokeGet hI hrun _ _ _).bind fun _ => .pure _

theorem keeps_get (hI : Store.Served I) (hrun : run.Keeps I) (target : Handle) (key : Value)
    (receiver : Handle) : Keeps I (get run target key receiver) := by
  simp only [get]
  split
  · exact .pure _
  · refine Keeps.bind (keeps_readStore _) fun onProxy => ?_
    split
    · exact keeps_getOnProxy hI hrun target key receiver _
    · split
      · exact keeps_getIndex hI target _
      · exact keeps_getName hI target _

end Dispatch

namespace Entry

theorem keeps_set (hI : Store.Served I) (hrun : run.Keeps I) (flags : Flags) (e : Entry)
    (target : Handle) (key v : Value) (receiver : Handle) :
    Keeps I (e.set run flags target key v receiver) := by
  cases e with
  | cachedName k => exact Dispatch.keeps_setName hI flags target k v
  | indexFast => exact Dispatch.keeps_setIndex hI flags target _ v
  | indexGeneral => exact Dispatch.keeps_setIndex hI flags target _ v
  | proxyTarget => exact Dispatch.keeps_setOnProxy hI hrun flags target key v receiver
  | generic => exact Dispatch.keeps_set hI hrun flags target key v receiver

theorem keeps_get (hI : Store.Served I) (hrun : run.Keeps I) (e : Entry) (target : Handle)
    (key : Value) (receiver : Handle) (held : Value) :
    Keeps I (e.get run target key receiver held) := by
  cases e with
  | cachedName k => exact Dispatch.keeps_getName hI target k
  | indexFast => exact Dispatch.keeps_getIndex hI target _
  | indexGeneral => exact Dispatch.keeps_getIndex hI target _
  | proxyTarget => exact Dispatch.keeps_getOnProxy hI hrun target key receiver held
  | generic => exact Dispatch.keeps_get hI hrun target key receiver

end Entry

end Access

namespace Site

variable {I : Store τ → Prop} {run : Handler τ (Surroundings β)}

theorem keeps_choose (name : Text) (s : Site) (target : Handle) (key : Value) :
    Keeps I (choose name s target key : Effect τ (Surroundings β) Entry) := by
  refine Keeps.bind (keeps_readStore _) fun probe => ?_
  exact (keeps_onOuter _).bind fun _ => .pure _

theorem keeps_set (hI : Store.Served I) (hrun : run.Keeps I) (name : Text) (target : Handle)
    (key v : Value) (receiver : Handle) : Keeps I (set run name target key v receiver) := by
  refine Keeps.bind (keeps_onOuter _) fun found => ?_
  cases found with
  | error status => exact .pure _
  | ok s =>
    simp only
    split
    · exact (keeps_onOuter _).bind fun _ => .pure _
    · refine Keeps.bind (keeps_choose name s target key) fun e => ?_
      refine Keeps.bind (Entry.keeps_set hI hrun s.flags e target key v _) fun status => ?_
      exact (keeps_onOuter _).bind fun _ => .pure _

theorem keeps_get (hI : Store.Served I) (hrun : run.Keeps I) (name : Text) (target : Handle)
    (key : Value) (receiver : Handle) : Keeps I (get run name target key receiver) := by
  refine Keeps.bind (keeps_onOuter _) fun found => ?_
  cases found with
  | error status => exact .pure _
  | ok s =>
    simp only
    split
    · exact (keeps_onOuter _).bind fun _ => .pure _
    · refine Keeps.bind (keeps_choose name s target key) fun e => ?_
      refine Keeps.bind (Entry.keeps_get hI hrun e target key _ _) fun answer => ?_
      exact (keeps_onOuter _).bind fun _ => .pure _

end Site

namespace Reaction

variable {I : Store TrapOwner → Prop}

theorem keeps_reply (hI : Store.Lasting I) (r : Reaction) (proxy target : Handle) :
    Keeps I (r.reply proxy target) := by
  simp only [reply]
  split
  · have hrevoke : Keeps I (onStore (·.revoke proxy) : Effect TrapOwner Scene Status) :=
      keeps_onStore fun s => hI s (.revoke proxy) rfl
    exact Keeps.bind (Keeps.bind hrevoke fun _ => .pure _) fun _ => .pure _
  · have hdestroy : Keeps I (onHeap (·.destroy target) : Effect TrapOwner Scene Status) :=
      keeps_onHeap fun s => hI s (.heap (.destroy target)) rfl
    exact Keeps.bind (Keeps.bind hdestroy fun _ => .pure _) fun _ => .pure _
  · exact .pure _

theorem keeps_ofWrite {a : Effect TrapOwner Scene Status} (ha : Keeps I a) (r : Reaction) :
    Keeps I (r.ofWrite a) := by
  simp only [ofWrite]
  split
  · exact ha.bind fun _ => .pure _
  · exact .pure _

theorem keeps_ofSite {a : Effect TrapOwner Scene (Except Status Status)} (ha : Keeps I a)
    (r : Reaction) : Keeps I (r.ofSite a) := by
  refine ha.bind fun answer => ?_
  cases answer <;> exact .pure _

theorem keeps_react (hI : Store.Lasting I) (depth : Nat) : (react depth).Keeps I := by
  induction depth with
  | zero => exact fun _ _ _ _ hr => nomatch hr
  | succ depth ih =>
    intro call
    refine Keeps.bind (keeps_onOuter _) fun rs => ?_
    cases call with
    | get owner target receiver k =>
      simp only
      split
      · exact (keeps_onHeap fun s => hI s (.heap (.getNamed target k)) rfl).bind fun _ => .pure _
      · exact (keeps_onHeap fun s => hI s (.heap (.getNamed receiver k)) rfl).bind fun _ => .pure _
      · refine Keeps.bind (Site.keeps_get hI.served ih _ _ _ _) fun answer => ?_
        cases answer <;> exact .pure _
      · exact .pure _
      · exact keeps_reply hI _ _ _
    | set owner target receiver k v =>
      simp only
      split
      · exact keeps_ofWrite
          (keeps_onHeap fun s => hI s (.heap (.setNamed target k v true)) rfl) _
      · exact keeps_ofWrite
          (keeps_onHeap fun s => hI s (.heap (.setNamed receiver k v true)) rfl) _
      · exact keeps_ofSite (Site.keeps_set hI.served ih _ _ _ _ _) _
      · exact keeps_reply hI _ _ _
    | define owner target k v =>
      simp only
      split
      · exact keeps_ofWrite (keeps_onHeap fun s => hI s (.heap (.defineOwn target k v)) rfl) _
      · exact keeps_ofSite (Site.keeps_set hI.served ih _ _ _ _ _) _
      · exact keeps_reply hI _ _ _

end Reaction

namespace Session

variable {I : Store TrapOwner → Prop} {s : Session}

def store (s : Session) : Store TrapOwner := s.world.store

theorem keeps_act (hs : I s.store) {a : Effect TrapOwner Scene α} (ha : Keeps I a)
    (f : α → World TrapOwner Scene → Outcome) : I (s.act a f).2.store := by
  simp only [act]
  cases hr : a s.world with
  | none => exact hs
  | some r => exact ha s.world r hs hr

theorem store_bind (s : Session) (name? : Option Text) (x : Handle) :
    (s.bind name? x).store = s.store := by
  cases name? <;> rfl

theorem keeps_createProxy (hI : Store.Lasting I) (hs : I s.store) (name? : Option Text)
    (target : Handle) (traps : Traps) : I (s.createProxy name? target traps).2.store := by
  simp only [createProxy]
  split
  · rw [store_bind]
    apply keeps_act hs
    refine Keeps.bind (keeps_onStore fun t => hI t (.createProxy target _ _ _) rfl) fun r => ?_
    exact Keeps.bind (keeps_onOuter _) fun _ => .pure _
  · apply keeps_act hs
    refine Keeps.bind (keeps_onStore fun t => hI t (.createProxy target _ _ _) rfl) fun r => ?_
    exact Keeps.bind (keeps_onOuter _) fun _ => .pure _

theorem keeps_withState (hs : I s.store) (chain : Text) (state? : Option Nat)
    {f : Chain → Nat → ChainState → Outcome × Session}
    (hf : ∀ c n state, I (f c n state).2.store) : I (s.withState chain state? f).2.store := by
  simp only [withState]
  cases s.chain? chain with
  | none => exact hs
  | some c =>
    simp only
    cases c.states[state?.getD c.position]? with
    | none => exact hs
    | some state => exact hf c _ state

/-- A step that destroys a proxy has to keep what the step is to keep by itself. -/
theorem keeps_perform (hI : Store.Lasting I) (hs : I s.store) (name? : Option Text) {st : Step}
    (hst : ∀ x, st = .destroyProxy x → ∀ t, I t → I (t.destroyProxy x).2) :
    I (s.perform name? st).2.store := by
  have hrun : s.handler.Keeps I := Reaction.keeps_react hI _
  cases st with
  | heap op =>
    have hkeeps : Keeps I (onHeap (·.perform op) : Effect TrapOwner Scene HeapAnswer) :=
      keeps_onHeap fun t => hI t (.heap op) rfl
    have hop := keeps_act hs hkeeps fun a _ => .heap a
    simp only [perform]
    split
    · rw [store_bind]
      exact hop
    · exact hop
  | createProxy target traps => exact keeps_createProxy hI hs name? target traps
  | changeTraps name traps => exact keeps_act hs (keeps_onOuter _) _
  | destroyProxy x =>
    exact keeps_act hs (keeps_onStore (hst x rfl)) _
  | revokeProxy x => exact keeps_act hs (keeps_onStore fun t => hI t (.revoke x) rfl) _
  | inspectProxy | proxyTally | findSite | siteNames | config | probe | inspectEntry
  | createChain => exact hs
  | invokeSet x receiver k v strict =>
    exact keeps_act hs (Proxy.keeps_invokeSet hI.served hrun x receiver k v strict) _
  | invokeGet x receiver k =>
    exact keeps_act hs (Proxy.keeps_invokeGet hI.served hrun x receiver k) _
  | invokeDefine x k v => exact keeps_act hs (Proxy.keeps_invokeDefine hI.served hrun x k v) _
  | createSite direction name flags hint => exact keeps_act hs (keeps_onOuter _) _
  | destroySite name => exact keeps_act hs (keeps_onOuter _) _
  | reconfigure config => exact keeps_act hs (keeps_onOuter _) _
  | siteSet name target key v receiver =>
    exact keeps_act hs (Site.keeps_set hI.served hrun name target key v receiver) _
  | siteGet name target key receiver =>
    exact keeps_act hs (Site.keeps_get hI.served hrun name target key receiver) _
  | inspectSite name =>
    simp only [perform]
    split <;> exact hs
  | dispatchSet flags target key v receiver =>
    exact keeps_act hs (Dispatch.keeps_set hI.served hrun flags target key v receiver) _
  | dispatchSetIndex flags target i v =>
    exact keeps_act hs (Dispatch.keeps_setIndex hI.served flags target i v) _
  | dispatchSetName flags target k v =>
    exact keeps_act hs (Dispatch.keeps_setName hI.served flags target k v) _
  | dispatchSetProxy flags target key v receiver =>
    exact keeps_act hs (Dispatch.keeps_setOnProxy hI.served hrun flags target key v receiver) _
  | dispatchGet target key receiver =>
    exact keeps_act hs (Dispatch.keeps_get hI.served hrun target key receiver) _
  | dispatchGetIndex target i => exact keeps_act hs (Dispatch.keeps_getIndex hI.served target i) _
  | dispatchGetName target k => exact keeps_act hs (Dispatch.keeps_getName hI.served target k) _
  | dispatchGetProxy target key receiver =>
    exact keeps_act hs (Dispatch.keeps_getOnProxy hI.served hrun target key receiver _) _
  | entrySet flags e target key v receiver =>
    exact keeps_act hs (Entry.keeps_set hI.served hrun flags e target key v receiver) _
  | entryGet e target key receiver =>
    exact keeps_act hs (Entry.keeps_get hI.served hrun e target key receiver _) _
  | install chain state? e => exact keeps_withState hs chain state? fun _ _ _ => hs
  | inspectChain chain state? => exact keeps_withState hs chain state? fun _ _ _ => hs
  | findInChain chain state? target key => exact keeps_withState hs chain state? fun _ _ _ => hs

theorem keeps_step (hI : Store.Lasting I) (hs : I s.store) (name? : Option Text) {st : Step}
    (hst : ∀ x, st = .destroyProxy x → ∀ t, I t → I (t.destroyProxy x).2) :
    I (s.step name? st).2.store := by
  have hcalls : I ({ s with world := { s.world with calls := [] } } : Session).store := hs
  exact keeps_perform hI hcalls name? hst

/-- What every operation on a store keeps, the destructions of proxies in the script
included, a session keeps. -/
theorem keeps_run (hI : Store.Lasting I) (hs : I s.store) {script : List (Option Text × Step)}
    (hscript : ∀ e ∈ script, ∀ x, e.2 = .destroyProxy x → ∀ t, I t → I (t.destroyProxy x).2) :
    I (s.run script).2.store := by
  induction script generalizing s with
  | nil => exact hs
  | cons e script ih =>
    obtain ⟨he, hrest⟩ := List.forall_mem_cons.1 hscript
    exact ih (keeps_step hI hs e.1 he) hrest

theorem store_reached_run (config : Config) (script : List (Option Text × Step)) :
    ((start config).run script).2.store.Reached :=
  keeps_run Store.lasting_reached ⟨[], rfl⟩ fun _ _ x _ _ ht => ht.perform (.destroyProxy x)

theorem reached_run (config : Config) (script : List (Option Text × Step)) :
    ((start config).run script).2.world.store.heap.Reached :=
  (store_reached_run config script).heap

end Session

end InlineCache
