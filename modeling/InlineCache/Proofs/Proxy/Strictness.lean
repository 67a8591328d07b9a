import InlineCache.Proofs.Heap.Integrity
import InlineCache.Proofs.Proxy.Forwarding

/-! Strict and sloppy assignments.
Whether an assignment is rejected, and what it leaves, is settled before it is asked
whether it is strict. A strict one then tells of the rejection and a sloppy one passes
over it, on objects and through proxies alike. -/

namespace InlineCache

variable {τ ω α σ : Type}

/-- The same state, and the same status but for a type error that is passed over. -/
def Relaxes (sloppy strict : Status × σ) : Prop :=
  sloppy.2 = strict.2 ∧ (sloppy.1 = strict.1 ∨ sloppy.1 = .ok ∧ strict.1 = .typeError)

theorem Relaxes.refl (r : Status × σ) : Relaxes r r := ⟨rfl, .inl rfl⟩

namespace Object

theorem assign_cases (o : Object) (t : HeapTally) (p : Place) (v : Value)
    (inherited? : Option Property) :
    (∃ w, ∀ strict, o.assign t p v strict inherited? = w) ∨
      ∃ o' : Object, ∀ strict, o.assign t p v strict inherited? = o'.refuse t strict := by
  simp only [assign]
  cases o.own? p with
  | none =>
    simp only
    split
    · exact .inl ⟨_, fun _ => rfl⟩
    · exact .inr ⟨_, fun _ => rfl⟩
  | some q =>
    cases p with
    | element i | name k =>
      simp only
      split
      · exact .inl ⟨_, fun _ => rfl⟩
      · exact .inr ⟨_, fun _ => rfl⟩

theorem Grown.assign_sloppy {o : Object} (ho : o.Grown) (t : HeapTally) (p : Place) (v : Value)
    (inherited? : Option Property) : (o.assign t p v false inherited?).status = .ok := by
  cases hd : o.assigned? p v inherited? with
  | some d => exact (assign_takes ho.names hd t false).status
  | none => exact (assign_declines ho.elements hd t false).status

end Object

namespace Heap

variable {h : Heap}

theorem assignAt_relaxes (h : Heap) (x : Handle) (p : Place) (v : Value) :
    Relaxes (h.assignAt x p v false) (h.assignAt x p v true) := by
  simp only [assignAt]
  cases h.storage? x with
  | none => exact .refl _
  | some o =>
    simp only
    rcases o.assign_cases h.tally p v (h.inherited? o p) with ⟨w, hw⟩ | ⟨o', ho'⟩
    · rw [hw, hw]
      exact .refl _
    · rw [ho', ho']
      exact ⟨rfl, .inr ⟨rfl, rfl⟩⟩

theorem setIndexed_relaxes (h : Heap) (x : Handle) (i : Nat) (v : Value) :
    Relaxes (h.setIndexed x i v false) (h.setIndexed x i v true) := by
  simp only [setIndexed]
  split
  · exact h.assignAt_relaxes x _ v
  · exact .refl _

theorem Reached.assignAt_sloppy (hr : h.Reached) (x : Handle) (p : Place) (v : Value) :
    (h.assignAt x p v false).1 ≠ .typeError := by
  cases hx : h.storage? x with
  | none => simp [assignAt, hx]
  | some o =>
    have hgrown := (hr.formed (storage?_eq_some.1 hx).1).toGrown
    rw [assignAt_of_storage? hx, leave, hgrown.assign_sloppy]
    simp

theorem Reached.setIndexed_sloppy (hr : h.Reached) (x : Handle) (i : Nat) (v : Value) :
    (h.setIndexed x i v false).1 ≠ .typeError := by
  simp only [setIndexed]
  split
  · exact hr.assignAt_sloppy x _ v
  · simp

end Heap

open Effect

theorem Effect.relaxes_bind (a : Effect τ ω α) {f f' : α → Effect τ ω Status}
    (hf : ∀ x w, Option.Rel Relaxes (f x w) (f' x w)) (w : World τ ω) :
    Option.Rel Relaxes ((a >>= f) w) ((a >>= f') w) := by
  rw [bind_apply, bind_apply]
  cases a w with
  | none => exact .none
  | some r => exact hf r.1 r.2

namespace Proxy

theorem settle_relaxes (reply : TrapReply) (w : World τ ω) :
    Option.Rel Relaxes (settle reply false w) (settle reply true w) := by
  simp only [settle]
  split
  · exact .some (.refl _)
  · split
    · exact .some (.refl _)
    · exact .some ⟨rfl, .inr ⟨rfl, rfl⟩⟩

theorem invokeSet_relaxes (run : Handler τ ω) (x receiver : Handle) (k : PropertyKey) (v : Value)
    (w : World τ ω) :
    Option.Rel Relaxes (invokeSet run x receiver k v false w)
      (invokeSet run x receiver k v true w) := by
  refine relaxes_bind _ (fun landing w => ?_) w
  cases landing with
  | refused status => exact .some (.refl _)
  | trapped trap target => exact relaxes_bind _ (fun reply w => settle_relaxes reply w) w
  | object target =>
    obtain ⟨hheap, hstatus⟩ := w.store.heap.assignAt_relaxes target k.place v
    refine .some ⟨?_, hstatus⟩
    exact congrArg (fun heap => ({ w with store := { w.store with heap } } : World τ ω)) hheap

end Proxy

/-- Strictness shows in the status alone: the heap, the registry, the trap calls and what
the traps have done are the same. -/
theorem strictness_shows_in_status (τ ω : Type) :
    (∀ (h : Heap) x k v, Relaxes (h.setNamed x k v false) (h.setNamed x k v true)) ∧
      (∀ (h : Heap) x i v, Relaxes (h.setIndexed x i v false) (h.setIndexed x i v true)) ∧
      (∀ (run : Handler τ ω) (w : World τ ω) x receiver k v,
        Option.Rel Relaxes (Proxy.invokeSet run x receiver k v false w)
          (Proxy.invokeSet run x receiver k v true w)) ∧
      ∀ h : Heap, h.Reached → ∀ x k i v,
        (h.setNamed x k v false).1 ≠ .typeError ∧ (h.setIndexed x i v false).1 ≠ .typeError := by
  refine ⟨fun h x k v => h.assignAt_relaxes x k.place v, Heap.setIndexed_relaxes, ?_, ?_⟩
  · intro run w x receiver k v
    exact Proxy.invokeSet_relaxes run x receiver k v w
  · intro h hr x k i v
    exact ⟨hr.assignAt_sloppy x k.place v, hr.setIndexed_sloppy x i v⟩

namespace Demonstration

def readOnly : Heap :=
  .after [.create [97] .null, .define ⟨0, 1⟩ (.name [107]) ⟨.int32 1, false, true, true⟩]

end Demonstration

open Demonstration in
theorem Heap.rejection_passed_over :
    readOnly.Reached ∧
      (readOnly.setNamed ⟨0, 1⟩ (.name [107]) .null true).1 = .typeError ∧
      (readOnly.setNamed ⟨0, 1⟩ (.name [107]) .null false).1 ≠ .typeError ∧
      (readOnly.setNamed ⟨0, 1⟩ (.name [107]) .null false).2 =
        (readOnly.setNamed ⟨0, 1⟩ (.name [107]) .null true).2 := by
  have hr : readOnly.Reached := ⟨_, rfl⟩
  obtain ⟨hnamed, -, -, hsloppy⟩ := strictness_shows_in_status Unit Unit
  exact ⟨hr, by decide +kernel, (hsloppy _ hr ⟨0, 1⟩ (.name [107]) 0 .null).1,
    (hnamed readOnly ⟨0, 1⟩ (.name [107]) .null).1⟩

end InlineCache
