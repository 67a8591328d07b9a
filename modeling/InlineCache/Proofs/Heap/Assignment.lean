import InlineCache.Proofs.CanonicalIndex
import InlineCache.Proofs.Heap.Ancestry
import InlineCache.Proofs.Heap.Integrity

/-! The assignment rule.
An assignment is decided by the own property, and where there is none by the flag of the
object and the nearest holder on its prototype walk. It puts a value at one place or is
counted as rejected, and leaves everything else as it is. -/

namespace InlineCache

namespace Heap

variable {h : Heap} {x : Handle} {p : Place} {o : Object} {k : PropertyKey} {v : Value}
  {strict : Bool} {q r : Property} {n m b : Nat}

/-- The property that a walk from a handle meets first, that many links away. The walk
ends at a proxy, at a dead handle and at null. -/
inductive NearestAt (h : Heap) (p : Place) : Handle → Nat → Property → Prop
  | here {x : Handle} {o : Object} {q : Property} (hx : h.storage? x = some o)
      (hq : o.own? p = some q) : NearestAt h p x 0 q
  | above {x : Handle} {o : Object} {n : Nat} {q : Property} (hx : h.storage? x = some o)
      (hn : o.own? p = none) (ho : NearestAt h p o.prototype n q) : NearestAt h p x (n + 1) q

namespace NearestAt

theorem unique (hn : h.NearestAt p x n q) (hm : h.NearestAt p x m r) : n = m ∧ q = r := by
  induction hn generalizing m with
  | here hx hq =>
    cases hm with
    | here hx' hq' =>
      cases hx.symm.trans hx'
      cases hq.symm.trans hq'
      exact ⟨rfl, rfl⟩
    | above hx' hn' =>
      cases hx.symm.trans hx'
      cases hq.symm.trans hn'
  | above hx hn _ ih =>
    cases hm with
    | here hx' hq' =>
      cases hx.symm.trans hx'
      cases hn.symm.trans hq'
    | above hx' _ ho' =>
      cases hx.symm.trans hx'
      obtain ⟨rfl, hqr⟩ := ih ho'
      exact ⟨rfl, hqr⟩

theorem isLive (hn : h.NearestAt p x n q) : h.isLive x = true := by
  cases hn with
  | here hx | above hx => exact isLive_iff.2 ⟨_, (storage?_eq_some.1 hx).1⟩

theorem iterate (hn : h.NearestAt p x n q) (hm : m ≤ n) :
    h.NearestAt p (h.prototype^[m] x) (n - m) q := by
  induction hn generalizing m with
  | here hx hq =>
    obtain rfl : m = 0 := by omega
    exact .here hx hq
  | @above x o n q hx hn ho ih =>
    cases m with
    | zero => exact .above hx hn ho
    | succ m =>
      rw [Function.iterate_succ_apply, prototype_of_find? (storage?_eq_some.1 hx).1,
        Nat.add_sub_add_right]
      exact ih (by omega)

theorem nearest? (hn : h.NearestAt p x n q) (hb : n < b) : h.nearest? p b x = some q := by
  induction hn generalizing b with
  | here hx hq =>
    obtain ⟨c, rfl⟩ : ∃ c, b = c + 1 := ⟨b - 1, by omega⟩
    simp only [Heap.nearest?, hx, hq]
  | above hx hn _ ih =>
    obtain ⟨c, rfl⟩ : ∃ c, b = c + 1 := ⟨b - 1, by omega⟩
    simp only [Heap.nearest?, hx, hn]
    exact ih (by omega)

end NearestAt

end Heap

namespace Demonstration

end Demonstration

end InlineCache
