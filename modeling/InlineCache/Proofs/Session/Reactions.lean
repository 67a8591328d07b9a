import InlineCache.Session.Reaction
import InlineCache.Proofs.Access.Sites

/-! Traps described by data do not tell alike worlds apart, even where they come
back to a call site whose chain differs, to any depth. What they do to the world they do
by operations of the store and by accesses at call sites. -/

namespace InlineCache

open Effect World

namespace Reaction

section Agreement

variable {R : World TrapOwner Scene → World TrapOwner Scene → Prop} (hR : Visible R)

include hR

theorem agree_reply (r : Reaction) (proxy target : Handle) :
    Agree R R (r.reply proxy target) (r.reply proxy target) := by
  simp only [reply]
  split
  · apply Agree.bind (Agree.bind (hR.agree_onStore _) fun _ => .pure _)
    intro _
    exact .pure _
  · apply Agree.bind (Agree.bind (hR.agree_onHeap _) fun _ => .pure _)
    intro _
    exact .pure _
  · exact .pure _

omit hR in
theorem agree_ofRead {a : Effect TrapOwner Scene (Status × Value)} (h : Agree R R a a) :
    Agree R R (ofRead a) (ofRead a) := by
  apply Agree.bind h
  intro answer
  exact .pure _

omit hR in
theorem agree_ofWrite {a : Effect TrapOwner Scene Status} (h : Agree R R a a) (r : Reaction) :
    Agree R R (r.ofWrite a) (r.ofWrite a) := by
  simp only [ofWrite]
  split
  · apply Agree.bind h
    intro status
    exact .pure _
  · exact .pure _

omit hR in
theorem agree_ofSite {a : Effect TrapOwner Scene (Except Status Status)} (h : Agree R R a a)
    (r : Reaction) : Agree R R (r.ofSite a) (r.ofSite a) := by
  apply Agree.bind h
  intro answer
  cases answer with
  | ok status => exact .pure _
  | error status => exact .pure _

/-- A reaction does to related worlds what the accesses at call sites do that its traps
come back with. -/
theorem agree_react_succ (hledger : ∀ {w w'}, R w w' → w.outer.other = w'.outer.other) {depth : Nat}
    (hget : ∀ name target key receiver, Agree R R (Site.get (react depth) name target key receiver)
      (Site.get (react depth) name target key receiver))
    (hset : ∀ name target key v receiver,
      Agree R R (Site.set (react depth) name target key v receiver)
        (Site.set (react depth) name target key v receiver))
    (call : TrapCall TrapOwner) :
    Agree R R (react (depth + 1) call) (react (depth + 1) call) := by
  apply Agree.bind (Q := R)
  · intro w w' hw
    rw [onOuter_apply, onOuter_apply, hledger hw]
    exact .some ⟨rfl, hw⟩
  · intro rs
    cases call with
    | get owner target receiver k =>
      simp only
      split
      · exact agree_ofRead (hR.agree_onHeap _)
      · exact agree_ofRead (hR.agree_onHeap _)
      · apply Agree.bind (hget _ _ _ _)
        intro answer
        cases answer with
        | ok answer => exact .pure _
        | error status => exact .pure _
      · exact .pure _
      · exact agree_reply hR _ _ _
    | set owner target receiver k v =>
      simp only
      split
      · exact agree_ofWrite (hR.agree_onHeap _) _
      · exact agree_ofWrite (hR.agree_onHeap _) _
      · exact agree_ofSite (hset _ _ _ _ _) _
      · exact agree_reply hR _ _ _
    | define owner target k v =>
      simp only
      split
      · exact agree_ofWrite (hR.agree_onHeap _) _
      · exact agree_ofSite (hset _ _ _ _ _) _
      · exact agree_reply hR _ _ _

end Agreement

theorem steady_react (depth : Nat) : (react depth).Steady Alike Alike := by
  induction depth with
  | zero => exact ⟨alike_visible, alike_visible, fun _ _ hw => hw, fun _ _ _ _ => .none⟩
  | succ depth ih =>
    exact ⟨alike_visible, alike_visible, fun _ _ hw => hw,
      agree_react_succ alike_visible (fun hw => hw.outer.other) (Site.agree_get ih)
        (Site.agree_set ih)⟩

end Reaction

end InlineCache
