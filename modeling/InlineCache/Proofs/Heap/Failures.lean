import InlineCache.Proofs.Heap.Handles
import InlineCache.Proofs.Heap.Integrity

/-! Operations that fail.
A write may make room for a name or move elements before it is refused. Neither shows,
and no failure takes or frees a slot: whatever is asked of any handle afterwards is
answered as before, and new objects come under the handles they would have had. -/

namespace InlineCache

def HeapAnswer.status? : HeapAnswer → Option Status
  | .status s | .made s _ | .value s _ | .property s _ | .keys s _ | .length s _ => some s
  | .object o => some o.status
  | .flag _ | .tally _ => none

def Slot.outline (s : Slot) : UInt32 × Bool := (s.generation, s.object?.isSome)

namespace Heap

variable {h h' h'' : Heap} {x : Handle} {p : Place} {o o' : Object} {d : Property} {v : Value}
  {strict : Bool} {op : HeapOp} {s : Status}

structure Tracks (h h' : Heap) : Prop where
  free : h'.free = h.free
  slots : h'.slots.map Slot.outline = h.slots.map Slot.outline

theorem isLive_eq_outline (h : Heap) (x : Handle) :
    h.isLive x = (decide (x ≠ .null) && (h.slots[x.slot.toNat]?.map Slot.outline).any
      fun a => decide (a.1 = x.generation) && a.2) := by
  simp only [isLive, find?]
  by_cases hn : x = .null
  · simp [hn]
  · cases h.slots[x.slot.toNat]? with
    | none => simp [hn]
    | some s => by_cases hg : s.generation = x.generation <;> simp [hn, hg, Slot.outline]

theorem tracks_update (hx : h.find? x = some o) (o' : Object) : h.Tracks (h.update x o') where
  free := rfl
  slots := by
    apply Array.ext_getElem?
    intro i
    simp only [update, Array.getElem?_map, Array.getElem?_modify]
    split
    · next hi =>
      rw [← hi, (find?_eq_some.1 hx).2]
      rfl
    · rfl

theorem Edit.tracks (he : Edit h h') : h.Tracks h' := by
  cases he with
  | counted t ht => exact ⟨rfl, rfl⟩
  | stored x o o' t hx ho hp ht =>
    obtain ⟨hfree, hslots⟩ := tracks_update hx o'
    exact ⟨hfree, hslots⟩
  | linked x o p hx ho hp hr => exact tracks_update hx _

theorem outline_filled (slots : Array Slot) (i : Nat) (o : Object) :
    (slots.modify i fun s => { s with object? := some o }).map Slot.outline =
      (slots.map Slot.outline).modify i fun a => (a.1, true) := by
  apply Array.ext_getElem?
  intro j
  simp only [Array.getElem?_map, Array.getElem?_modify]
  split
  · simp only [Option.map_map]
    rfl
  · rfl

namespace Tracks

theorem symm (ht : h.Tracks h') : h'.Tracks h := ⟨ht.free.symm, ht.slots.symm⟩

theorem trans (ht : h.Tracks h') (ht' : h'.Tracks h'') : h.Tracks h'' :=
  ⟨ht'.free.trans ht.free, ht'.slots.trans ht.slots⟩

theorem outline_eq (ht : h.Tracks h') (i : Nat) :
    h'.slots[i]?.map Slot.outline = h.slots[i]?.map Slot.outline := by
  rw [← Array.getElem?_map, ht.slots, Array.getElem?_map]

theorem isLive_eq (ht : h.Tracks h') (x : Handle) : h'.isLive x = h.isLive x := by
  rw [isLive_eq_outline, isLive_eq_outline, ht.outline_eq]

theorem occupy (ht : h.Tracks h') (o o' : Object) :
    (h'.occupy o').1 = (h.occupy o).1 ∧ (h.occupy o).2.Tracks (h'.occupy o').2 := by
  have hsize : h'.slots.size = h.slots.size := by simpa using congrArg Array.size ht.slots
  simp only [Heap.occupy, ht.free]
  cases h.free with
  | nil =>
    have hpushed : (h'.slots.push ⟨1, some o'⟩).map Slot.outline =
        (h.slots.push ⟨1, some o⟩).map Slot.outline := by
      simp only [Array.map_push, ht.slots, Slot.outline, Option.isSome_some]
    have hgeneration : ∀ i : Nat, ((h'.slots.push ⟨1, some o'⟩)[i]?.elim 1 Slot.generation) =
        (h.slots.push ⟨1, some o⟩)[i]?.elim 1 Slot.generation := by
      intro i
      have houtline := congrArg (fun slots => slots[i]?.elim 1 Prod.fst) hpushed
      simp only [Array.getElem?_map, Option.elim_map] at houtline
      exact houtline
    refine ⟨by simp only [hsize, hgeneration], rfl, ?_⟩
    simp only [outline_filled, hpushed, hsize]
  | cons i free =>
    have hgeneration : (h'.slots[i]?.elim 0 (·.generation)) =
        h.slots[i]?.elim 0 (·.generation) := by
      have houtline := congrArg (fun a => a.elim 0 Prod.fst) (ht.outline_eq i)
      simp only [Option.elim_map] at houtline
      exact houtline
    refine ⟨by simp only [hgeneration], rfl, ?_⟩
    simp only [Array.map_setIfInBounds, ht.slots, hgeneration]
    rfl

theorem allocate (ht : h.Tracks h') (kind : ObjectKind) (label : Text) (prototype : Handle) :
    (h'.allocate kind label prototype).1 = (h.allocate kind label prototype).1 ∧
      (h.allocate kind label prototype).2.Tracks (h'.allocate kind label prototype).2 := by
  simp only [Heap.allocate, ht.isLive_eq]
  split
  · obtain ⟨hmade, hnext⟩ := ht.occupy { kind, label, prototype } { kind, label, prototype }
    exact ⟨by rw [hmade], hnext⟩
  · exact ⟨rfl, ht⟩

theorem destroy (ht : h.Tracks h') (x : Handle) : (h.destroy x).2.Tracks (h'.destroy x).2 := by
  have hlive := ht.isLive_eq x
  simp only [isLive] at hlive
  simp only [Heap.destroy]
  cases hx : h.find? x with
  | none =>
    rw [hx, Option.isSome_none, Option.isSome_eq_false_iff, Option.isNone_iff_eq_none] at hlive
    rw [hlive]
    exact ht
  | some o =>
    rw [hx, Option.isSome_some, Option.isSome_iff_exists] at hlive
    obtain ⟨o', hx'⟩ := hlive
    rw [hx']
    refine ⟨congrArg (x.slot.toNat :: ·) ht.free, ?_⟩
    apply Array.ext_getElem?
    intro i
    simp only [Array.getElem?_map, Array.getElem?_modify]
    split
    · have hemptied := congrArg (Option.map fun a => (a.1, false)) (ht.outline_eq i)
      simp only [Option.map_map] at hemptied ⊢
      exact hemptied
    · exact ht.outline_eq i

theorem perform (ht : h.Tracks h') (op : HeapOp) :
    (h'.perform op).1.made? = (h.perform op).1.made? ∧
      (h.perform op).2.Tracks (h'.perform op).2 := by
  have hmake : ∀ kind label prototype,
      ((h'.allocate kind label prototype).map (fun a => HeapAnswer.made a.1 a.2) id).1.made? =
          ((h.allocate kind label prototype).map (fun a => HeapAnswer.made a.1 a.2) id).1.made? ∧
        (h.allocate kind label prototype).2.Tracks (h'.allocate kind label prototype).2 := by
    intro kind label prototype
    obtain ⟨hmade, hnext⟩ := ht.allocate kind label prototype
    exact ⟨by rw [Prod.map_fst, Prod.map_fst, hmade], hnext⟩
  cases op with
  | create label prototype => exact hmake .ordinary label prototype
  | createArray label prototype => exact hmake .array label prototype
  | createShell label => exact hmake .proxy label .null
  | destroy x => exact ⟨rfl, ht.destroy x⟩
  | _ =>
    exact ⟨rfl, (h.perform_edit _ rfl).tracks.symm.trans (ht.trans (h'.perform_edit _ rfl).tracks)⟩

/-- Later objects come under the same handles, whatever else is done. -/
theorem answers_made (ht : h.Tracks h') (more : List HeapOp) :
    (h'.answers more).map HeapAnswer.made? = (h.answers more).map HeapAnswer.made? := by
  induction more generalizing h h' with
  | nil => rfl
  | cons op more ih =>
    obtain ⟨hmade, hnext⟩ := ht.perform op
    simp only [answers, List.map_cons, hmade, ih hnext]

end Tracks

structure Unseen (h h' : Heap) : Prop where
  objects : ∀ x, Option.Rel Object.Resembles (h.find? x) (h'.find? x)
  slots : h.Tracks h'

theorem Unseen.refl (h : Heap) : h.Unseen h where
  objects x := by
    cases h.find? x with
    | none => exact .none
    | some o => exact .some (.refl o)
  slots := ⟨rfl, rfl⟩

theorem unseen_counted (h : Heap) (t : HeapTally) : h.Unseen { h with tally := t } where
  objects := (Unseen.refl h).objects
  slots := ⟨rfl, rfl⟩

theorem unseen_leave (hx : h.find? x = some o) {w : Written} (ho : o.Resembles w.object) :
    h.Unseen (h.leave x w).2 where
  objects y := by
    rw [find?_leave hx]
    split
    · next he =>
      rw [he, hx]
      exact .some ho
    · exact (Unseen.refl h).objects y
  slots := by
    obtain ⟨hfree, hslots⟩ := tracks_update hx w.object
    exact ⟨hfree, hslots⟩

namespace Unseen

theorem inspect_eq (hu : h.Unseen h') (x : Handle) : h'.inspect x = h.inspect x := by
  have hobjects := hu.objects x
  simp only [inspect, label, isLive, kindOf, isProxy, prototype, isExtensible, isFrozen]
  generalize h.find? x = o?, h'.find? x = o?' at hobjects
  cases hobjects with
  | none => rfl
  | some ho =>
    have hframe := ho.frame
    simp only [Object.frame, Object.mk.injEq, and_true] at hframe
    obtain ⟨hkind, hlabel, hprototype, hextensible, -, hfrozen⟩ := hframe
    simp [hkind, hlabel, hprototype, hextensible, hfrozen]

theorem arrayLength_eq (hu : h.Unseen h') (x : Handle) : h'.arrayLength x = h.arrayLength x := by
  have hobjects := hu.objects x
  simp only [arrayLength]
  generalize h.find? x = o?, h'.find? x = o?' at hobjects
  cases hobjects with
  | none => rfl
  | some ho =>
    have hkind := congrArg Object.kind ho.frame
    simp only [ho.length]
    exact if_congr (hkind ▸ Iff.rfl) rfl rfl

theorem ownKeys_eq (hu : h.Unseen h') (x : Handle) : h'.ownKeys x = h.ownKeys x := by
  have hobjects := hu.objects x
  simp only [ownKeys]
  generalize h.find? x = o?, h'.find? x = o?' at hobjects
  cases hobjects with
  | none => rfl
  | some ho => simp only [ho.keys]

theorem describeOwn_eq (hu : h.Unseen h') (x : Handle) (k : PropertyKey) :
    h'.describeOwn x k = h.describeOwn x k := by
  have hobjects := hu.objects x
  simp only [describeOwn]
  generalize h.find? x = o?, h'.find? x = o?' at hobjects
  cases hobjects with
  | none => rfl
  | some ho => simp only [ho.own]

end Unseen

theorem allocate_failed (kind : ObjectKind) (label : Text) (prototype : Handle)
    (hfail : (h.allocate kind label prototype).1.1 ≠ .ok) :
    (h.allocate kind label prototype).2 = h := by
  revert hfail
  simp only [allocate]
  split
  · exact fun hfail => absurd rfl hfail
  · exact fun _ => rfl

theorem destroy_failed (hfail : (h.destroy x).1 ≠ .ok) : (h.destroy x).2 = h := by
  revert hfail
  simp only [destroy]
  cases h.find? x with
  | none => exact fun _ => rfl
  | some o => exact fun hfail => absurd rfl hfail

theorem setPrototype_failed {prototype : Handle} (hfail : (h.setPrototype x prototype).1 ≠ .ok) :
    (h.setPrototype x prototype).2 = h := by
  revert hfail
  simp only [setPrototype]
  cases h.find? x with
  | none => exact fun _ => rfl
  | some o =>
    simp only
    split
    · exact fun _ => rfl
    · split
      · exact fun _ => rfl
      · split
        · exact fun _ => rfl
        · exact fun hfail => absurd rfl hfail

theorem preventExtensions_failed (hfail : (h.preventExtensions x).1 ≠ .ok) :
    (h.preventExtensions x).2 = h := by
  revert hfail
  simp only [preventExtensions]
  cases h.find? x with
  | none => exact fun _ => rfl
  | some o => exact fun hfail => absurd rfl hfail

theorem sealObject_failed (hfail : (h.sealObject x).1 ≠ .ok) : (h.sealObject x).2 = h := by
  revert hfail
  simp only [sealObject]
  cases h.find? x with
  | none => exact fun _ => rfl
  | some o =>
    simp only
    split <;> exact fun hfail => absurd rfl hfail

theorem freezeObject_failed (hfail : (h.freezeObject x).1 ≠ .ok) : (h.freezeObject x).2 = h := by
  revert hfail
  simp only [freezeObject]
  cases h.find? x with
  | none => exact fun _ => rfl
  | some o =>
    simp only
    split <;> exact fun hfail => absurd rfl hfail

theorem readAt_unseen (h : Heap) (x : Handle) (p : Place) : h.Unseen (h.readAt x p).2 := by
  simp only [readAt]
  cases h.storage? x with
  | none => exact .refl h
  | some o =>
    simp only
    cases o.own? p with
    | some q => exact h.unseen_counted _
    | none =>
      simp only
      cases h.inherited? o p with
      | some q => exact h.unseen_counted _
      | none => exact h.unseen_counted _

theorem Reached.defineAt_failed (hr : h.Reached) (hfail : (h.defineAt x p d).1 ≠ .ok) :
    h.Unseen (h.defineAt x p d).2 := by
  cases hx : h.storage? x with
  | none =>
    simp only [defineAt, hx]
    exact .refl h
  | some o =>
    have hfind := (storage?_eq_some.1 hx).1
    have hnames := (hr.formed hfind).names
    rw [defineAt_of_storage? hx] at hfail ⊢
    cases hyes : o.accepts (o.own? p) d with
    | true => exact absurd (Object.define_takes hnames hyes h.tally).status hfail
    | false => exact unseen_leave hfind (Object.define_declines hnames hyes h.tally).object

theorem Reached.assignAt_failed (hr : h.Reached) (hfail : (h.assignAt x p v strict).1 ≠ .ok) :
    h.Unseen (h.assignAt x p v strict).2 := by
  cases hx : h.storage? x with
  | none =>
    simp only [assignAt, hx]
    exact .refl h
  | some o =>
    have hfind := (storage?_eq_some.1 hx).1
    have hformed := hr.formed hfind
    rw [assignAt_of_storage? hx] at hfail ⊢
    cases hd : o.assigned? p v (h.inherited? o p) with
    | some d => exact absurd (Object.assign_takes hformed.names hd h.tally strict).status hfail
    | none =>
      exact unseen_leave hfind (Object.assign_declines hformed.elements hd h.tally strict).object

theorem Reached.defineElement_failed {i : Nat} (hr : h.Reached)
    (hfail : (h.defineElement x i d).1 ≠ .ok) : h.Unseen (h.defineElement x i d).2 := by
  revert hfail
  simp only [defineElement]
  split
  · exact hr.defineAt_failed
  · exact fun _ => .refl h

theorem Reached.setIndexed_failed {i : Nat} (hr : h.Reached)
    (hfail : (h.setIndexed x i v strict).1 ≠ .ok) : h.Unseen (h.setIndexed x i v strict).2 := by
  revert hfail
  simp only [setIndexed]
  split
  · exact hr.assignAt_failed
  · exact fun _ => .refl h

theorem Reached.perform_failed (hr : h.Reached) (hs : (h.perform op).1.status? = some s)
    (hfail : s ≠ .ok) : h.Unseen (h.perform op).2 := by
  have hsame : (h.perform op).2 = h → h.Unseen (h.perform op).2 := fun he => he.symm ▸ .refl h
  have hfail : ∀ s', (h.perform op).1.status? = some s' → s' ≠ .ok := by
    intro s' hs' hok
    exact hfail (Option.some.inj (hs.symm.trans (hs'.trans (congrArg some hok))))
  cases op with
  | create label prototype =>
    exact hsame (allocate_failed .ordinary label prototype (hfail _ rfl))
  | createArray label prototype =>
    exact hsame (allocate_failed .array label prototype (hfail _ rfl))
  | createShell label => exact hsame (allocate_failed .proxy label .null (hfail _ rfl))
  | destroy x => exact hsame (destroy_failed (hfail _ rfl))
  | define x k d => exact hr.defineAt_failed (hfail _ rfl)
  | defineElement x i d => exact hr.defineElement_failed (hfail _ rfl)
  | defineOwn x k v => exact hr.defineAt_failed (hfail _ rfl)
  | setNamed x k v strict => exact hr.assignAt_failed (hfail _ rfl)
  | setIndexed x i v strict => exact hr.setIndexed_failed (hfail _ rfl)
  | getNamed x k => exact h.readAt_unseen x _
  | getIndexed x i => exact h.readAt_unseen x _
  | setPrototype x prototype => exact hsame (setPrototype_failed (hfail _ rfl))
  | preventExtensions x => exact hsame (preventExtensions_failed (hfail _ rfl))
  | sealObject x => exact hsame (sealObject_failed (hfail _ rfl))
  | freezeObject x => exact hsame (freezeObject_failed (hfail _ rfl))
  | _ => exact .refl h

/-- An operation that fails is not seen by any handle, and does not move the handles that
later objects get. -/
theorem Reached.failure_unseen (hr : h.Reached) (hs : (h.perform op).1.status? = some s)
    (hfail : s ≠ .ok) :
    (∀ x, (h.perform op).2.inspect x = h.inspect x ∧
      (h.perform op).2.arrayLength x = h.arrayLength x ∧
      (h.perform op).2.ownKeys x = h.ownKeys x ∧
      ∀ k, (h.perform op).2.describeOwn x k = h.describeOwn x k) ∧
    ∀ more, ((h.perform op).2.answers more).map HeapAnswer.made? =
      (h.answers more).map HeapAnswer.made? := by
  have hu := hr.perform_failed hs hfail
  exact ⟨fun x => ⟨hu.inspect_eq x, hu.arrayLength_eq x, hu.ownKeys_eq x, hu.describeOwn_eq x⟩,
    hu.slots.answers_made⟩

end Heap

namespace Demonstration

def crowded : Heap :=
  .after [.create [97] .null, .define ⟨0, 1⟩ (.name [107]) ⟨.int32 1, false, true, false⟩,
    .defineOwn ⟨0, 1⟩ (.name [108]) .null, .defineOwn ⟨0, 1⟩ (.name [109]) .null,
    .defineOwn ⟨0, 1⟩ (.name [110]) .null]

end Demonstration

open Demonstration in
theorem Heap.refused_definition_unseen :
    crowded.Reached ∧
      (crowded.perform (.defineOwn ⟨0, 1⟩ (.name [107]) .null)).1.status? = some .typeError ∧
      (crowded.perform (.defineOwn ⟨0, 1⟩ (.name [107]) .null)).2.slots ≠ crowded.slots ∧
      (∀ k, (crowded.perform (.defineOwn ⟨0, 1⟩ (.name [107]) .null)).2.describeOwn ⟨0, 1⟩ k =
        crowded.describeOwn ⟨0, 1⟩ k) ∧
      ∀ more, ((crowded.perform (.defineOwn ⟨0, 1⟩ (.name [107]) .null)).2.answers more).map
        HeapAnswer.made? = (crowded.answers more).map HeapAnswer.made? := by
  have hr : crowded.Reached := ⟨_, rfl⟩
  have hs : (crowded.perform (.defineOwn ⟨0, 1⟩ (.name [107]) .null)).1.status? =
      some .typeError := by decide +kernel
  obtain ⟨hseen, hmade⟩ := hr.failure_unseen hs nofun
  exact ⟨hr, hs, by decide +kernel, (hseen ⟨0, 1⟩).2.2.2, hmade⟩

end InlineCache
