import InlineCache.Dispatch
import InlineCache.Proofs.Access.Guard

/-! Two runs of one effect. Effects agree when related worlds give the same answer
and related worlds again, or none of the two returns. The rules follow the way
effects are composed, and the relation may weaken where a trap is called. -/

namespace InlineCache

variable {τ ω α γ : Type}

namespace Effect

variable {P Q R : World τ ω → World τ ω → Prop}

def Agree (P Q : World τ ω → World τ ω → Prop) (a a' : Effect τ ω α) : Prop :=
  ∀ w w', P w w' → Option.Rel (fun r r' => r.1 = r'.1 ∧ Q r.2 r'.2) (a w) (a' w')

theorem Agree.pure (x : α) : Agree P P (pure x) (pure x) := by
  intro w w' hw
  exact .some ⟨rfl, hw⟩

theorem Agree.weaken {a a' : Effect τ ω α} (h : Agree P Q a a')
    (hQ : ∀ w w', Q w w' → R w w') : Agree P R a a' := by
  intro w w' hw
  have hr := h w w' hw
  generalize a w = r, a' w' = r' at hr
  cases hr with
  | none => exact .none
  | some hr => exact .some ⟨hr.1, hQ _ _ hr.2⟩

theorem Agree.bind {a a' : Effect τ ω α} {f f' : α → Effect τ ω γ} (h : Agree P Q a a')
    (hf : ∀ x, Agree Q R (f x) (f' x)) : Agree P R (a >>= f) (a' >>= f') := by
  intro w w' hw
  have hr := h w w' hw
  simp only [bind_apply]
  generalize a w = r, a' w' = r' at hr
  cases hr with
  | none => exact .none
  | @some r r' hr =>
    obtain ⟨x, v⟩ := r
    obtain ⟨x', v'⟩ := r'
    obtain ⟨hx, hv⟩ := hr
    cases hx
    exact hf x v v' hv

/-- A relation that shows the store and the trap calls, and does not mind what
both worlds put in their place. -/
structure Visible (P : World τ ω → World τ ω → Prop) : Prop where
  store : ∀ {w w'}, P w w' → w.store = w'.store
  calls : ∀ {w w'}, P w w' → w.calls = w'.calls
  putStore : ∀ {w w'}, P w w' → ∀ store, P { w with store } { w' with store }
  putCalls : ∀ {w w'}, P w w' → ∀ calls, P { w with calls } { w' with calls }

theorem Visible.agree_onStore (hP : Visible P) (f : Store τ → α × Store τ) :
    Agree P P (onStore f) (onStore f) := by
  intro w w' hw
  rw [onStore_apply, onStore_apply, ← hP.store hw]
  exact .some ⟨rfl, hP.putStore hw _⟩

theorem Visible.agree_onHeap (hP : Visible P) (f : Heap → α × Heap) :
    Agree P P (onHeap f) (onHeap f) :=
  hP.agree_onStore _

theorem Visible.agree_log (hP : Visible P) (call : TrapCall τ) :
    Agree P P (log call) (log call) := by
  intro w w' hw
  rw [log_apply, log_apply, ← hP.calls hw]
  exact .some ⟨rfl, hP.putCalls hw _⟩

end Effect

open Effect

variable {P Q : World τ ω → World τ ω → Prop}

/-- A handler whose traps do the same in worlds related by `P`, and leave worlds
related by `Q`. -/
structure Handler.Steady (P Q : World τ ω → World τ ω → Prop) (run : Handler τ ω) : Prop where
  before : Visible P
  after : Visible Q
  weaken : ∀ w w', P w w' → Q w w'
  trap : ∀ call, Agree P Q (run call) (run call)

namespace Proxy

theorem agree_forward (hP : Visible P) (select : Proxy τ → Option τ) (x : Handle) :
    Agree P P (forward select x) (forward select x) := by
  intro w w' hw
  simp only [forward]
  rw [← hP.store hw]
  cases w.store.land select x with
  | none => exact .none
  | some l => exact .some ⟨rfl, hP.putStore hw _⟩

variable {run : Handler τ ω}

theorem agree_callTrap (h : run.Steady P Q) (call : TrapCall τ) :
    Agree P Q (callTrap run call) (callTrap run call) := by
  apply Agree.bind (h.before.agree_log call)
  intro _
  apply Agree.bind (h.trap call)
  intro reply
  apply Agree.bind (h.after.agree_onStore _)
  intro _
  exact .pure reply

theorem agree_settle (hQ : Visible Q) (reply : TrapReply) (strict : Bool) :
    Agree Q Q (settle reply strict : Effect τ ω Status) (settle reply strict) := by
  simp only [settle]
  split
  · exact .pure _
  · split
    · exact .pure _
    · apply Agree.bind (hQ.agree_onStore _)
      intro _
      exact .pure _

theorem agree_invokeSet (h : run.Steady P Q) (x receiver : Handle) (k : PropertyKey) (v : Value)
    (strict : Bool) :
    Agree P Q (invokeSet run x receiver k v strict) (invokeSet run x receiver k v strict) := by
  apply Agree.bind (agree_forward h.before Proxy.set? x)
  intro landing
  cases landing with
  | refused status => exact (Agree.pure status).weaken h.weaken
  | trapped trap target =>
    apply Agree.bind (agree_callTrap h _)
    intro reply
    exact agree_settle h.after reply strict
  | object target => exact (h.before.agree_onHeap _).weaken h.weaken

theorem agree_invokeGet (h : run.Steady P Q) (x receiver : Handle) (k : PropertyKey) :
    Agree P Q (invokeGet run x receiver k) (invokeGet run x receiver k) := by
  apply Agree.bind (agree_forward h.before Proxy.get? x)
  intro landing
  cases landing with
  | refused status => exact (Agree.pure _).weaken h.weaken
  | trapped trap target =>
    apply Agree.bind (agree_callTrap h _)
    intro reply
    exact .pure _
  | object target => exact (h.before.agree_onHeap _).weaken h.weaken

theorem agree_invokeDefine (h : run.Steady P Q) (x : Handle) (k : PropertyKey) (v : Value) :
    Agree P Q (invokeDefine run x k v) (invokeDefine run x k v) := by
  apply Agree.bind (agree_forward h.before Proxy.define? x)
  intro landing
  cases landing with
  | refused status => exact (Agree.pure status).weaken h.weaken
  | trapped trap target =>
    apply Agree.bind (agree_callTrap h _)
    intro reply
    exact agree_settle h.after reply true
  | object target => exact (h.before.agree_onHeap _).weaken h.weaken

end Proxy

namespace Dispatch

variable {run : Handler τ ω}

theorem agree_setName (hP : Visible P) (flags : Flags) (target : Handle) (k : PropertyKey)
    (v : Value) :
    Agree P P (setName flags target k v : Effect τ ω Status) (setName flags target k v) := by
  simp only [setName]
  split
  · exact hP.agree_onHeap _
  · exact hP.agree_onHeap _

theorem agree_setIndex (hP : Visible P) (flags : Flags) (target : Handle) (i : Nat) (v : Value) :
    Agree P P (setIndex flags target i v : Effect τ ω Status) (setIndex flags target i v) := by
  simp only [setIndex]
  split
  · exact hP.agree_onHeap _
  · exact hP.agree_onHeap _

theorem agree_setOnProxy (h : run.Steady P Q) (flags : Flags) (proxy : Handle) (key v : Value)
    (receiver : Handle) :
    Agree P Q (setOnProxy run flags proxy key v receiver)
      (setOnProxy run flags proxy key v receiver) := by
  simp only [setOnProxy]
  split
  · exact (Agree.pure _).weaken h.weaken
  · split
    · exact Proxy.agree_invokeDefine h _ _ _
    · exact Proxy.agree_invokeSet h _ _ _ _ _

theorem agree_set (h : run.Steady P Q) (flags : Flags) (target : Handle) (key v : Value)
    (receiver : Handle) :
    Agree P Q (set run flags target key v receiver) (set run flags target key v receiver) := by
  simp only [set]
  split
  · exact (Agree.pure _).weaken h.weaken
  · apply Agree.bind (h.before.agree_onStore _)
    intro onProxy
    split
    · exact agree_setOnProxy h _ _ _ _ _
    · split
      · exact (agree_setIndex h.before _ _ _ _).weaken h.weaken
      · exact (agree_setName h.before _ _ _ _).weaken h.weaken

theorem agree_getName (hP : Visible P) (target : Handle) (k : PropertyKey) :
    Agree P P (getName target k : Effect τ ω (Status × Value)) (getName target k) := by
  apply Agree.bind (hP.agree_onHeap _)
  intro answer
  exact .pure _

theorem agree_getIndex (hP : Visible P) (target : Handle) (i : Nat) :
    Agree P P (getIndex target i : Effect τ ω (Status × Value)) (getIndex target i) := by
  apply Agree.bind (hP.agree_onHeap _)
  intro answer
  exact .pure _

theorem agree_getOnProxy (h : run.Steady P Q) (proxy : Handle) (key : Value) (receiver : Handle)
    (held : Value) :
    Agree P Q (getOnProxy run proxy key receiver held)
      (getOnProxy run proxy key receiver held) := by
  simp only [getOnProxy]
  split
  · exact (Agree.pure _).weaken h.weaken
  · apply Agree.bind (Proxy.agree_invokeGet h _ _ _)
    intro answer
    exact .pure _

theorem agree_get (h : run.Steady P Q) (target : Handle) (key : Value) (receiver : Handle) :
    Agree P Q (get run target key receiver) (get run target key receiver) := by
  simp only [get]
  split
  · exact (Agree.pure _).weaken h.weaken
  · apply Agree.bind (h.before.agree_onStore _)
    intro onProxy
    split
    · exact agree_getOnProxy h _ _ _ _
    · split
      · exact (agree_getIndex h.before _ _).weaken h.weaken
      · exact (agree_getName h.before _ _).weaken h.weaken

end Dispatch

namespace Entry

variable {run : Handler τ ω}

theorem agree_set (h : run.Steady P Q) (flags : Flags) (e : Entry) (target : Handle)
    (key v : Value) (receiver : Handle) :
    Agree P Q (e.set run flags target key v receiver) (e.set run flags target key v receiver) := by
  cases e with
  | cachedName k => exact (Dispatch.agree_setName h.before _ _ _ _).weaken h.weaken
  | indexFast => exact (Dispatch.agree_setIndex h.before _ _ _ _).weaken h.weaken
  | indexGeneral => exact (Dispatch.agree_setIndex h.before _ _ _ _).weaken h.weaken
  | proxyTarget => exact Dispatch.agree_setOnProxy h _ _ _ _ _
  | generic => exact Dispatch.agree_set h _ _ _ _ _

theorem agree_get (h : run.Steady P Q) (e : Entry) (target : Handle) (key : Value)
    (receiver : Handle) (held : Value) :
    Agree P Q (e.get run target key receiver held) (e.get run target key receiver held) := by
  cases e with
  | cachedName k => exact (Dispatch.agree_getName h.before _ _).weaken h.weaken
  | indexFast => exact (Dispatch.agree_getIndex h.before _ _).weaken h.weaken
  | indexGeneral => exact (Dispatch.agree_getIndex h.before _ _).weaken h.weaken
  | proxyTarget => exact Dispatch.agree_getOnProxy h _ _ _ _
  | generic => exact Dispatch.agree_get h _ _ _

end Entry

end InlineCache
