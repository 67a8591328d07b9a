import InlineCache.Proofs.Heap.Lives
import InlineCache.Proofs.Heap.Simulation

/-! Handles over a history.
A handle is given out once and denotes its object until that is destroyed. Afterwards
no operation takes it for another object, although its slot is used again. -/

namespace InlineCache

namespace HeapAnswer

def made? : HeapAnswer → Option Handle
  | .made .ok x => some x
  | _ => none

def Fails : HeapAnswer → Prop
  | .status s => s ≠ .ok
  | .made s x => s ≠ .ok ∧ x = .null
  | .value s v => s ≠ .ok ∧ v = .undefined
  | .property s p => s ≠ .ok ∧ p = {}
  | .keys s ks => s ≠ .ok ∧ ks = []
  | .length s n => s ≠ .ok ∧ n = 0
  | .flag b => b = false
  | .object o => o.status ≠ .ok ∧ o.live = false
  | .tally _ => False

theorem made?_eq_some {a : HeapAnswer} {x : Handle} : a.made? = some x ↔ a = .made .ok x := by
  constructor
  · intro h
    match a, h with
    | .made .ok y, h => rw [Option.some.inj h]
  · rintro rfl
    rfl

end HeapAnswer

def HeapOp.handles : HeapOp → List Handle
  | .create _ prototype | .createArray _ prototype => [prototype]
  | .createShell _ | .tally => []
  | .setPrototype x prototype => [x, prototype]
  | .destroy x | .define x .. | .defineElement x .. | .defineOwn x .. | .setNamed x ..
  | .setIndexed x .. | .getNamed x _ | .getIndexed x _ | .preventExtensions x | .sealObject x
  | .freezeObject x | .describeOwn x _ | .hasOwn x _ | .ownKeys x | .arrayLength x
  | .inspect x => [x]

namespace Heap

variable {h h' : Heap} {x y : Handle} {o : Object} {op : HeapOp} {ops more : List HeapOp}

theorem storage?_of_dead (hx : h.find? x = none) : h.storage? x = none := by
  simp only [storage?, hx, Option.filter_none]

theorem readAt_dead (hx : h.find? x = none) (p : Place) :
    h.readAt x p = ((.invalidArgument, .undefined), h) := by
  simp only [readAt, storage?_of_dead hx]

theorem defineAt_dead (hx : h.find? x = none) (p : Place) (d : Property) :
    h.defineAt x p d = (.invalidArgument, h) := by
  simp only [defineAt, storage?_of_dead hx]

theorem assignAt_dead (hx : h.find? x = none) (p : Place) (v : Value) (strict : Bool) :
    h.assignAt x p v strict = (.invalidArgument, h) := by
  simp only [assignAt, storage?_of_dead hx]

theorem allocate_dead (hx : h.isLive x = false) (hn : x ≠ .null) (kind : ObjectKind)
    (label : Text) : h.allocate kind label x = ((.invalidArgument, .null), h) := by
  simp [allocate, hx, hn]

theorem setPrototype_dead (hx : h.find? x = none) (hn : x ≠ .null) (y : Handle) :
    (h.setPrototype y x).1 ≠ .ok ∧ (h.setPrototype y x).2 = h := by
  have hdead : h.isLive x = false := not_isLive_iff.2 hx
  simp only [setPrototype]
  cases h.find? y with
  | none => simp
  | some o => simp [hdead, hn]

theorem perform_dead (hx : h.isLive x = false) (hn : x ≠ .null) (hop : x ∈ op.handles) :
    (h.perform op).1.Fails ∧ (h.perform op).2 = h := by
  have hfind := not_isLive_iff.1 hx
  cases op with
  | create label prototype =>
    obtain rfl := List.mem_singleton.1 hop
    simp [perform, create, allocate_dead hx hn, HeapAnswer.Fails]
  | createArray label prototype =>
    obtain rfl := List.mem_singleton.1 hop
    simp [perform, createArray, allocate_dead hx hn, HeapAnswer.Fails]
  | createShell label => exact absurd hop List.not_mem_nil
  | tally => exact absurd hop List.not_mem_nil
  | setPrototype y prototype =>
    rcases List.mem_cons.1 hop with rfl | hop
    · simp [perform, setPrototype, hfind, HeapAnswer.Fails]
    · obtain rfl := List.mem_singleton.1 hop
      exact setPrototype_dead hfind hn y
  | _ =>
    obtain rfl := List.mem_singleton.1 hop
    simp [perform, destroy, define, defineElement, defineOwn, setNamed, setIndexed, getNamed,
      getIndexed, preventExtensions, sealObject, freezeObject, describeOwn, hasOwn, ownKeys,
      arrayLength, inspect, label, isLive, readAt_dead hfind, defineAt_dead hfind,
      assignAt_dead hfind, hfind, HeapAnswer.Fails]

theorem Edit.isLive_eq (he : Edit h h') (y : Handle) : h'.isLive y = h.isLive y := by
  cases he with
  | counted t ht => rfl
  | stored x o o' t hx ho hp ht =>
    simp only [isLive, find?_tally, find?_update hx]
    split
    · next he => rw [he, hx]; rfl
    · rfl
  | linked x o p hx ho hp hr =>
    simp only [isLive, find?_update hx]
    split
    · next he => rw [he, hx]; rfl
    · rfl

theorem issued_update : (h.update x o).Issued y ↔ h.Issued y :=
  issued_of_modify (f := fun s => { s with object? := some o }) rfl fun _ => rfl

theorem Edit.issued_iff (he : Edit h h') : h'.Issued y ↔ h.Issued y := by
  cases he with
  | counted t ht => exact Iff.rfl
  | stored x o o' t hx ho hp ht => exact issued_update
  | linked x o p hx ho hp hr => exact issued_update

theorem Sound.issued_change (hs : h.Sound) (hc : Change h h')
    (hlimit : h'.tally.allocations < handleLimit) (hy : h.Issued y) : h'.Issued y := by
  cases hc with
  | edit he => exact he.issued_iff.2 hy
  | opened kind label prototype hp =>
    rw [occupy_allocations] at hlimit
    exact hs.issued_occupy hlimit _ hy
  | closed x o hx =>
    have hslots : (h.destroy x).2.slots =
        h.slots.modify x.slot.toNat fun s => { s with object? := none } := by
      simp only [Heap.destroy, hx]
    exact (issued_of_modify hslots fun _ => rfl).2 hy

theorem made?_of_edits (h : Heap) (hop : op.edits = true) : (h.perform op).1.made? = none := by
  cases op with
  | create | createArray | createShell | destroy => cases hop
  | _ => rfl

section Step

variable (hs : h.Sound)

include hs

theorem Sound.allocate_isLive (kind : ObjectKind) (label : Text) (prototype : Handle)
    (hlimit : (h.allocate kind label prototype).2.tally.allocations < handleLimit) (y : Handle) :
    ((h.allocate kind label prototype).2.isLive y = true ↔
      (h.allocate kind label prototype).1 = (.ok, y) ∨ h.isLive y = true) ∧
      ((h.allocate kind label prototype).1 = (.ok, y) →
        ¬ h.Issued y ∧ y ≠ .null ∧ (h.allocate kind label prototype).2.Issued y) := by
  simp only [allocate] at hlimit ⊢
  split
  · next hp =>
    rw [if_pos hp, occupy_allocations] at hlimit
    simp only [Prod.mk.injEq, true_and]
    have hfind := hs.find?_occupy hlimit { kind, label, prototype } y
    constructor
    · simp only [isLive, hfind]
      split
      · next he => simp [he]
      · next hne => simp [Ne.symm hne]
    · rintro rfl
      refine ⟨hs.occupy_fresh hlimit _, hs.occupy_ne_null hlimit _, ?_⟩
      rw [if_pos rfl] at hfind
      exact issued_of_find? hfind
  · simp

theorem Sound.isLive_perform (hlimit : (h.perform op).2.tally.allocations < handleLimit) :
    (h.perform op).2.isLive y = true ↔
      (h.perform op).1.made? = some y ∨ h.isLive y = true ∧ op ≠ .destroy y := by
  rcases h.perform_cases op with hedit | ⟨kind, label, prototype, hop, hmake⟩ | ⟨x, rfl⟩
  · have hop : op ≠ .destroy y := by
      rintro rfl
      cases hedit
    rw [(h.perform_edit op hedit).isLive_eq, made?_of_edits h hedit]
    simp [hop]
  · rw [hmake] at hlimit ⊢
    have hlive := (hs.allocate_isLive kind label prototype hlimit y).1
    simpa [HeapAnswer.made?_eq_some, Prod.ext_iff, hop] using hlive
  · change (h.destroy x).2.isLive y = true ↔ none = some y ∨ _
    cases hx : h.find? x with
    | none =>
      simp only [Heap.destroy, hx, reduceCtorEq, false_or, ne_eq, HeapOp.destroy.injEq]
      refine (and_iff_left_of_imp fun hy => ?_).symm
      rintro rfl
      simp [isLive, hx] at hy
    | some o =>
      simp only [isLive, find?_destroy hx, reduceCtorEq, false_or, ne_eq, HeapOp.destroy.injEq]
      by_cases he : y = x
      · simp [he]
      · simp [he, Ne.symm he]

theorem Sound.made_fresh (hlimit : (h.perform op).2.tally.allocations < handleLimit)
    (hmade : (h.perform op).1.made? = some y) :
    ¬ h.Issued y ∧ y ≠ .null ∧ (h.perform op).2.Issued y := by
  rcases h.perform_cases op with hedit | ⟨kind, label, prototype, -, hmake⟩ | ⟨x, rfl⟩
  · rw [made?_of_edits h hedit] at hmade
    cases hmade
  · rw [hmake] at hlimit hmade ⊢
    refine (hs.allocate_isLive kind label prototype hlimit y).2 ?_
    simpa [HeapAnswer.made?_eq_some, Prod.ext_iff] using hmade
  · cases hmade

end Step

def given (h : Heap) (ops : List HeapOp) : List Handle := (h.answers ops).filterMap HeapAnswer.made?

theorem answers_append (h : Heap) (ops more : List HeapOp) :
    h.answers (ops ++ more) = h.answers ops ++ (h.run ops).answers more := by
  induction ops generalizing h with
  | nil => rfl
  | cons op ops ih => exact congrArg ((h.perform op).1 :: ·) (ih (h.perform op).2)

theorem given_append (h : Heap) (ops more : List HeapOp) :
    h.given (ops ++ more) = h.given ops ++ (h.run ops).given more := by
  rw [given, answers_append, List.filterMap_append]
  rfl

theorem mem_given_singleton : x ∈ h.given [op] ↔ (h.perform op).1.made? = some x := by
  simp [given, answers]

theorem allocations_le_run (h : Heap) (more : List HeapOp) :
    h.tally.allocations ≤ (h.run more).tally.allocations := by
  induction more generalizing h with
  | nil => exact Nat.le_refl _
  | cons op more ih => exact ((h.perform_change op).allocations_le).trans (ih (h.perform op).2)

theorem Sound.given_fresh (hs : h.Sound) (hlimit : (h.run ops).tally.allocations < handleLimit) :
    (h.run ops).Sound ∧ (∀ y, h.Issued y → (h.run ops).Issued y) ∧ (h.given ops).Nodup ∧
      ∀ x ∈ h.given ops, x ≠ .null ∧ ¬ h.Issued x ∧ (h.run ops).Issued x := by
  -- what was given out is issued, and what is given out next is not: so it is another
  induction ops using List.reverseRecOn with
  | nil => exact ⟨hs, fun _ hy => hy, List.nodup_nil, fun x hx => absurd hx List.not_mem_nil⟩
  | append_singleton ops op ih =>
    rw [run_snoc] at hlimit ⊢
    have hchange := (h.run ops).perform_change op
    obtain ⟨hsound, hissued, hnodup, hgiven⟩ := ih (hchange.allocations_le.trans_lt hlimit)
    have hstep := fun y => hsound.issued_change (y := y) hchange hlimit
    have hnew : ∀ x ∈ (h.run ops).given [op],
        x ≠ .null ∧ ¬ (h.run ops).Issued x ∧ ((h.run ops).perform op).2.Issued x := by
      intro x hx
      obtain ⟨hfresh, hn, hi⟩ := hsound.made_fresh hlimit (mem_given_singleton.1 hx)
      exact ⟨hn, hfresh, hi⟩
    refine ⟨hsound.change hchange hlimit, fun y hy => hstep y (hissued y hy), ?_, ?_⟩
    · rw [given_append]
      refine hnodup.append ?_ ?_
      · simp only [given, answers, List.filterMap_cons, List.filterMap_nil]
        split <;> simp
      · intro x hx hx'
        exact (hnew x hx').2.1 (hgiven x hx).2.2
    · intro x hx
      rw [given_append, List.mem_append] at hx
      rcases hx with hx | hx
      · obtain ⟨hn, hfresh, hi⟩ := hgiven x hx
        exact ⟨hn, hfresh, hstep x hi⟩
      · obtain ⟨hn, hfresh, hi⟩ := hnew x hx
        exact ⟨hn, fun hy => hfresh (hissued x hy), hi⟩

theorem Sound.dead_stays (hs : h.Sound) (hx : h.Issued x) (hdead : h.isLive x = false)
    (hlimit : (h.run more).tally.allocations < handleLimit) : (h.run more).isLive x = false := by
  induction more generalizing h with
  | nil => exact hdead
  | cons op more ih =>
    have hlimit' := ((h.perform op).2.allocations_le_run more).trans_lt hlimit
    have hchange := h.perform_change op
    refine ih (hs.change hchange hlimit') (hs.issued_change hchange hlimit' hx) ?_ hlimit
    rw [← Bool.not_eq_true, hs.isLive_perform hlimit', hdead]
    rintro (hmade | ⟨hlive, -⟩)
    · exact (hs.made_fresh hlimit' hmade).1 hx
    · cases hlive

theorem isLive_after_iff (hlimit : (after ops).tally.allocations < handleLimit) :
    (after ops).isLive x = true ↔
      ∃ before op rest, ops = before ++ op :: rest ∧
        ((after before).perform op).1.made? = some x ∧ .destroy x ∉ rest := by
  induction ops using List.reverseRecOn with
  | nil => simp [isLive, after, find?_empty]
  | append_singleton ops op ih =>
    rw [after_snoc] at hlimit ⊢
    have hlimit' := ((after ops).perform_change op).allocations_le.trans_lt hlimit
    have hsound : (after ops).Sound := (sound_empty.given_fresh hlimit').1
    rw [hsound.isLive_perform hlimit, ih hlimit']
    constructor
    · rintro (hmade | ⟨⟨before, op', rest, rfl, hmade, hrest⟩, hop⟩)
      · exact ⟨ops, op, [], rfl, hmade, List.not_mem_nil⟩
      · refine ⟨before, op', rest ++ [op], by simp, hmade, ?_⟩
        simpa [hrest] using Ne.symm hop
    · rintro ⟨before, op', rest, heq, hmade, hrest⟩
      rcases rest.eq_nil_or_concat with rfl | ⟨rest, last, rfl⟩
      · obtain ⟨rfl, hlast⟩ := List.append_inj' heq rfl
        cases hlast
        exact .inl hmade
      · rw [List.concat_eq_append, ← List.cons_append, ← List.append_assoc] at heq
        obtain ⟨rfl, hlast⟩ := List.append_inj' heq rfl
        cases hlast
        rw [List.concat_eq_append, List.mem_append, not_or, List.mem_singleton] at hrest
        exact .inr ⟨⟨before, op', rest, rfl, hmade, hrest.1⟩, Ne.symm hrest.2⟩

theorem ReachedBelowLimit.live_handles (hr : h.ReachedBelowLimit) :
    ∃ xs : List Handle, xs.Nodup ∧ (∀ x, x ∈ xs ↔ h.isLive x = true) ∧
      xs.length = h.tally.liveObjects := by
  refine (hr.induction (P := fun h => ∃ xs : List Handle, xs.Nodup ∧
    (∀ x, x ∈ xs ↔ h.isLive x = true) ∧ xs.length = h.tally.liveObjects) ?_ ?_).2
  · exact ⟨[], List.nodup_nil, fun x => by simp [isLive, find?_empty], rfl⟩
  · rintro h h' hs ⟨xs, hnodup, hmem, hlength⟩ hc hlimit
    cases hc with
    | edit he =>
      have hlive : h'.tally.liveObjects = h.tally.liveObjects := congrArg (·.1) he.census_eq
      exact ⟨xs, hnodup, fun x => by rw [he.isLive_eq, hmem], hlength.trans hlive.symm⟩
    | opened kind label prototype hp =>
      rw [occupy_allocations] at hlimit
      have hfind := hs.find?_occupy hlimit { kind, label, prototype }
      have htally : (h.occupy { kind, label, prototype }).2.tally.liveObjects =
          h.tally.liveObjects + 1 := congrArg (·.1) (h.occupy_census _)
      refine ⟨(h.occupy { kind, label, prototype }).1 :: xs, ?_, ?_, ?_⟩
      · refine List.nodup_cons.2 ⟨fun hin => ?_, hnodup⟩
        exact hs.occupy_fresh hlimit _ (issued_of_isLive ((hmem _).1 hin))
      · intro x
        rw [List.mem_cons, hmem, isLive, isLive, hfind]
        split
        · next he => simp [he]
        · next hne => simp [hne]
      · rw [List.length_cons, hlength, htally]
    | closed y o hy =>
      have htally : (h.destroy y).2.tally.liveObjects = h.tally.liveObjects - 1 := by
        simp only [Heap.destroy, hy]
      refine ⟨xs.erase y, hnodup.erase y, ?_, ?_⟩
      · intro x
        rw [hnodup.mem_erase_iff, hmem, isLive, isLive, find?_destroy hy]
        split
        · next he => simp [he]
        · next hne => simp [hne]
      · rw [List.length_erase_of_mem ((hmem y).2 (isLive_iff.2 ⟨o, hy⟩)), hlength, htally]

/-- Over a history that makes fewer objects than handles can name, no handle is taken
for another. -/
theorem handles_not_confused (ops : List HeapOp)
    (hlimit : (after ops).tally.allocations < handleLimit) :
    (({} : Heap).given ops).Nodup ∧ .null ∉ ({} : Heap).given ops ∧
      (∀ x, (after ops).isLive x = true ↔
        ∃ before op rest, ops = before ++ op :: rest ∧
          ((after before).perform op).1 = .made .ok x ∧ .destroy x ∉ rest) ∧
      (∀ x ∈ ({} : Heap).given ops, (after ops).isLive x = false →
        (∀ op, x ∈ op.handles →
          ((after ops).perform op).1.Fails ∧ ((after ops).perform op).2 = after ops) ∧
        ∀ more, (after (ops ++ more)).tally.allocations < handleLimit →
          (after (ops ++ more)).isLive x = false ∧ x ∉ (after ops).given more) ∧
      (after ops).free.Nodup ∧
      (∀ i, i ∈ (after ops).free ↔ ∃ g, (after ops).slots[i]? = some ⟨g, none⟩) ∧
      (after ops).tally.liveObjects + (after ops).tally.releases =
        (after ops).tally.allocations ∧
      ∃ xs : List Handle, xs.Nodup ∧ (∀ x, x ∈ xs ↔ (after ops).isLive x = true) ∧
        xs.length = (after ops).tally.liveObjects := by
  have hr : (after ops).ReachedBelowLimit := ⟨ops, rfl, hlimit⟩
  have hsound : (after ops).Sound := (sound_empty.given_fresh hlimit).1
  obtain ⟨-, -, hnodup, hgiven⟩ := sound_empty.given_fresh hlimit
  refine ⟨hnodup, fun hn => (hgiven _ hn).1 rfl, ?_, ?_, hsound.free_nodup, hsound.mem_free,
    hsound.balance, hr.live_handles⟩
  · intro x
    simp only [isLive_after_iff hlimit, HeapAnswer.made?_eq_some]
  · intro x hx hdead
    obtain ⟨hn, -, hissued⟩ := hgiven x hx
    refine ⟨fun op hop => perform_dead hdead hn hop, fun more hmore => ?_⟩
    rw [after_append] at hmore ⊢
    refine ⟨hsound.dead_stays hissued hdead hmore, fun hagain => ?_⟩
    exact ((hsound.given_fresh hmore).2.2.2 x hagain).2.1 hissued

end Heap

namespace Demonstration

def recycling : List HeapOp :=
  [.create [97] .null, .create [98] ⟨0, 1⟩, .destroy ⟨0, 1⟩, .createArray [99] ⟨1, 1⟩]

end Demonstration

open Demonstration in
theorem Heap.recycled_handle_stays_dead :
    (Heap.after recycling).tally.allocations < handleLimit ∧
      (Heap.after recycling).prototype ⟨1, 1⟩ = ⟨0, 1⟩ ∧
      (Heap.after recycling).isLive ⟨0, 1⟩ = false ∧
      (Heap.after recycling).isLive ⟨0, 2⟩ = true ∧
      ∀ more, (Heap.after (recycling ++ more)).tally.allocations < handleLimit →
        (Heap.after (recycling ++ more)).isLive ⟨0, 1⟩ = false ∧
          ⟨0, 1⟩ ∉ (Heap.after recycling).given more := by
  have hlimit : (Heap.after recycling).tally.allocations < handleLimit := by decide
  have hgiven : ⟨0, 1⟩ ∈ ({} : Heap).given recycling := by decide
  have hdead : (Heap.after recycling).isLive ⟨0, 1⟩ = false := by decide
  obtain ⟨-, -, -, hgone, -⟩ := handles_not_confused recycling hlimit
  exact ⟨hlimit, by decide, hdead, by decide, (hgone _ hgiven hdead).2⟩

end InlineCache
