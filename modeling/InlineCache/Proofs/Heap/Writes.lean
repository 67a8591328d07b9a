import InlineCache.Proofs.Heap.Change
import InlineCache.Proofs.Heap.Elements
import InlineCache.Proofs.Heap.Rebuilding

/-! What a write makes of its object.
A granted write leaves its property at its place, and every other place keeps what it
has as long as the buckets have room for all names. The written property itself is
found again even where they have not. -/

namespace InlineCache

namespace Object

variable {o o' : Object} {t : HeapTally} {p p' : Place} {k : PropertyKey} {d q : Property}
  {v : Value} {strict : Bool} {inherited? : Option Property}

theorem defineName_object (o : Object) (t : HeapTally) (k : PropertyKey) (d : Property) :
    (o.defineName t k d).object = { o with
      names := if o.accepts (o.names.roomy.lookup? k) d then o.names.roomy.file k d
        else o.names.roomy } := by
  by_cases h : o.accepts (o.names.roomy.lookup? k) d = true
  · rw [if_pos h]
    exact congrArg Written.object (if_pos h)
  · rw [if_neg h]
    exact congrArg Written.object (if_neg h)

theorem defineElement_object (o : Object) (t : HeapTally) (i : Nat) (d : Property) :
    (o.defineElement t i d).object =
      if o.accepts (o.elements.lookup? i) d then
        { o with
          elements := (o.elements.settle i).put i d
          length := if o.kind = .array then max o.length (i + 1) else o.length }
      else o := by
  by_cases h : o.accepts (o.elements.lookup? i) d = true
  · rw [if_pos h]
    exact congrArg Written.object (if_pos h)
  · rw [if_neg h]
    exact congrArg Written.object (if_neg h)

/-- What is new at a place still fits the most buckets there can be. -/
def Room (o : Object) (p : Place) (o' : Object) : Prop :=
  ∀ k, p = .name k → o.own? p = none →
    o'.names.entries.size ≤ max NameTable.maxBuckets o.names.entries.size

theorem assign_none (hq : o.own? p = none) (t : HeapTally) (v : Value) (strict : Bool)
    (inherited? : Option Property) :
    o.assign t p v strict inherited? =
      if inherited?.all (·.writable) && o.extensible then o.define t p (.plain v)
      else o.refuse t strict := by
  simp only [assign, hq]

def assigned? (o : Object) (p : Place) (v : Value) (inherited? : Option Property) :
    Option Property :=
  match o.own? p with
  | some q => if q.writable then some { q with value := v } else none
  | none => if inherited?.all (·.writable) && o.extensible then some (.plain v) else none

theorem value_of_assigned? (h : o.assigned? p v inherited? = some d) : d.value = v := by
  simp only [assigned?] at h
  split at h
  · split at h
    · cases h
      rfl
    · cases h
  · split at h
    · cases h
      rfl
    · cases h

theorem assignName_object (hq : o.own? (.name k) = some q) (t : HeapTally) (v : Value) :
    (o.assignName t k q v).object = { o with names := o.names.file k { q with value := v } } := by
  simp only [own?, NameTable.lookup?] at hq
  simp only [assignName, NameTable.file]
  cases hp : (o.names.locate k).position? with
  | none =>
    rw [hp] at hq
    cases hq
  | some i => rfl

/-- The write puts `d` at `p`. Other places keep theirs where there is room. -/
structure Takes (o : Object) (t : HeapTally) (p : Place) (d : Property) (w : Written) :
    Prop where
  status : w.status = .ok
  count : w.tally.rejectedWrites = t.rejectedWrites
  frame : w.object.frame = o.frame
  own : w.object.own? p = some d
  others : o.Room p w.object → ∀ p' ≠ p, w.object.own? p' = o.own? p'

theorem Takes.own_eq {w : Written} (ht : o.Takes t p d w) (hroom : o.Room p w.object)
    (p' : Place) : w.object.own? p' = if p' = p then some d else o.own? p' := by
  split
  · next he => rw [he, ht.own]
  · next hne => exact ht.others hroom p' hne

structure Resembles (o o' : Object) : Prop where
  frame : o'.frame = o.frame
  length : o'.length = o.length
  own : ∀ p, o'.own? p = o.own? p
  keys : o'.enumerableKeys = o.enumerableKeys

structure Declines (o : Object) (t : HeapTally) (s : Status) (w : Written) : Prop where
  status : w.status = s
  count : w.tally.rejectedWrites = t.rejectedWrites + 1
  object : o.Resembles w.object

theorem Resembles.refl (o : Object) : o.Resembles o := ⟨rfl, rfl, fun _ => rfl, rfl⟩

theorem Resembles.trans {o'' : Object} (h : o.Resembles o') (h' : o'.Resembles o'') :
    o.Resembles o'' where
  frame := h'.frame.trans h.frame
  length := h'.length.trans h.length
  own p := (h'.own p).trans (h.own p)
  keys := h'.keys.trans h.keys

theorem resembles_roomy (ho : o.names.Grown) :
    o.Resembles { o with names := o.names.roomy } where
  frame := rfl
  length := rfl
  own p := by
    cases p with
    | element i => rfl
    | name k => exact ho.lookup?_roomy k
  keys := by simp only [enumerableKeys, NameTable.toList_roomy]

theorem resembles_settle (ho : o.elements.Ordered) (i : Nat) :
    o.Resembles { o with elements := o.elements.settle i } where
  frame := rfl
  length := rfl
  own p := by
    cases p with
    | element j => exact o.elements.lookup?_settle i j
    | name k => rfl
  keys := by simp only [enumerableKeys, ho.toList_settle]

theorem countChange_rejectedWrites (t : HeapTally) (own? : Option Property) :
    (countChange t own?).rejectedWrites = t.rejectedWrites := by
  simp only [countChange]
  split <;> rfl

theorem define_takes (ho : o.names.Grown) (h : o.accepts (o.own? p) d = true) (t : HeapTally) :
    o.Takes t p d (o.define t p d) := by
  cases p with
  | element i =>
    have hyes : o.accepts (o.elements.lookup? i) d = true := h
    have hwritten : o.define t (.element i) d = ⟨.ok, _, _⟩ := if_pos hyes
    rw [hwritten]
    refine ⟨rfl, countChange_rejectedWrites t _, rfl, ?_, ?_⟩
    · rw [own?, ElementStore.lookup?_put, if_pos rfl]
    · intro _ p' hp
      cases p' with
      | element j =>
        rw [own?, ElementStore.lookup?_put, if_neg (fun he => hp (congrArg _ he)),
          ElementStore.lookup?_settle, own?]
      | name k' => rfl
  | name k =>
    have hyes : o.accepts (o.names.roomy.lookup? k) d = true := by rwa [ho.lookup?_roomy]
    have hwritten : o.define t (.name k) d =
        ⟨.ok, { o with names := o.names.roomy.file k d }, _⟩ := if_pos hyes
    rw [hwritten]
    refine ⟨rfl, countChange_rejectedWrites _ _, rfl, ?_, ?_⟩
    · exact NameTable.lookup?_file_self ho.roomy.pos
    · intro hroom p' hp
      cases p' with
      | element j => rfl
      | name k' =>
        have hfits : o.names.lookup? k = none →
            (o.names.roomy.file k d).entries.size ≤ NameTable.maxBuckets := by
          intro hnone
          have hle := hroom k rfl hnone
          rw [← ho.lookup?_roomy] at hnone
          simp only [NameTable.size_file_of_lost hnone, NameTable.size_roomy] at hle ⊢
          omega
        rw [own?, ho.lookup?_file hfits, if_neg (fun he => hp (congrArg _ he)), own?]

theorem define_declines (ho : o.names.Grown) (h : o.accepts (o.own? p) d = false)
    (t : HeapTally) : o.Declines t .typeError (o.define t p d) := by
  cases p with
  | element i =>
    have hno : ¬ o.accepts (o.elements.lookup? i) d = true := Bool.eq_false_iff.1 h
    have hwritten : o.define t (.element i) d = o.refuse t true := if_neg hno
    rw [hwritten]
    exact ⟨rfl, rfl, .refl o⟩
  | name k =>
    have hno : ¬ o.accepts (o.names.roomy.lookup? k) d = true := by
      rw [ho.lookup?_roomy]
      exact Bool.eq_false_iff.1 h
    have hwritten : o.define t (.name k) d =
        Object.refuse { o with names := o.names.roomy } _ true := if_neg hno
    rw [hwritten]
    exact ⟨rfl, rfl, resembles_roomy ho⟩

theorem assign_takes (ho : o.names.Grown) (h : o.assigned? p v inherited? = some d)
    (t : HeapTally) (strict : Bool) : o.Takes t p d (o.assign t p v strict inherited?) := by
  cases hq : o.own? p with
  | none =>
    simp only [assigned?, hq, Option.ite_none_right_eq_some, Option.some.injEq] at h
    obtain ⟨hyes, rfl⟩ := h
    have hwritten : o.assign t p v strict inherited? = o.define t p (.plain v) := by
      rw [assign_none hq, if_pos hyes]
    rw [hwritten]
    apply o.define_takes ho
    rw [hq]
    exact (Bool.and_eq_true_iff.1 hyes).2
  | some q =>
    simp only [assigned?, hq, Option.ite_none_right_eq_some, Option.some.injEq] at h
    obtain ⟨hw, rfl⟩ := h
    cases p with
    | element i =>
      simp only [assign, hq, if_pos hw]
      refine ⟨rfl, rfl, rfl, ?_, ?_⟩
      · rw [own?, ElementStore.lookup?_put, if_pos rfl]
      · intro _ p' hp
        cases p' with
        | element j =>
          rw [own?, ElementStore.lookup?_put, if_neg (fun he => hp (congrArg _ he)),
            ElementStore.lookup?_settle, own?]
        | name k' => rfl
    | name k =>
      simp only [assign, hq, if_pos hw]
      refine ⟨rfl, rfl, rfl, ?_, ?_⟩
      · rw [assignName_object hq, own?, NameTable.lookup?_file_of_found hq, if_pos rfl]
      · intro _ p' hp
        cases p' with
        | element j => rfl
        | name k' =>
          rw [assignName_object hq, own?, NameTable.lookup?_file_of_found hq,
            if_neg (fun he => hp (congrArg _ he)), own?]

theorem assign_declines (ho : o.elements.Ordered) (h : o.assigned? p v inherited? = none)
    (t : HeapTally) (strict : Bool) :
    o.Declines t (if strict then .typeError else .ok) (o.assign t p v strict inherited?) := by
  cases hq : o.own? p with
  | none =>
    simp only [assigned?, hq, ite_eq_right_iff, reduceCtorEq, imp_false] at h
    rw [assign_none hq, if_neg h]
    exact ⟨rfl, rfl, .refl o⟩
  | some q =>
    simp only [assigned?, hq, ite_eq_right_iff, reduceCtorEq, imp_false] at h
    cases p with
    | element i =>
      simp only [assign, hq, if_neg h]
      exact ⟨rfl, rfl, resembles_settle ho i⟩
    | name k =>
      simp only [assign, hq, if_neg h]
      exact ⟨rfl, rfl, .refl o⟩

theorem toSealed_own (o : Object) (p : Place) :
    o.toSealed.own? p = (o.own? p).map Property.sealed := by
  cases p with
  | element i => exact o.elements.lookup?_map Property.sealed i
  | name k => exact o.names.lookup?_map Property.sealed k

theorem toFrozen_own (o : Object) (p : Place) :
    o.toFrozen.own? p = (o.own? p).map Property.frozen := by
  cases p with
  | element i => exact o.elements.lookup?_map Property.frozen i
  | name k => exact o.names.lookup?_map Property.frozen k

theorem define_revision (o : Object) (t : HeapTally) (hp : p.Proper) (d : Property) :
    o.names.Revision (o.define t p d).object.names := by
  cases p with
  | element i =>
    simp only [define, defineElement_object]
    split <;> exact .same
  | name k =>
    simp only [define, defineName_object]
    split
    · exact .filed k d hp
    · exact .roomy

theorem assign_revision (o : Object) (t : HeapTally) (hp : p.Proper) (v : Value)
    (strict : Bool) (inherited? : Option Property) :
    o.names.Revision (o.assign t p v strict inherited?).object.names := by
  cases hq : o.own? p with
  | none =>
    rw [assign_none hq]
    split
    · exact o.define_revision t hp _
    · exact .same
  | some q =>
    cases p with
    | element i =>
      simp only [assign, hq]
      split <;> exact .same
    | name k =>
      simp only [assign, hq]
      split
      · rw [assignName_object hq]
        exact .refiled k _ q hq
      · exact .same

theorem Step.revision (hs : o.Step o') : o.names.Revision o'.names := by
  cases hs with
  | defined t p d hp => exact o.define_revision t hp d
  | assigned t p v strict inherited? hp => exact o.assign_revision t hp v strict inherited?
  | linked p hp => exact .same
  | closed => exact .same
  | sealed => exact .mapped Property.sealed
  | frozen => exact .mapped Property.frozen

theorem define_ordered (ho : o.elements.Ordered) (t : HeapTally) (p : Place) (d : Property) :
    (o.define t p d).object.elements.Ordered := by
  cases p with
  | element i =>
    simp only [define, defineElement_object]
    split
    · exact (ho.settle i).put i d
    · exact ho
  | name k =>
    simp only [define, defineName_object]
    exact ho

theorem assign_ordered (ho : o.elements.Ordered) (t : HeapTally) (p : Place) (v : Value)
    (strict : Bool) (inherited? : Option Property) :
    (o.assign t p v strict inherited?).object.elements.Ordered := by
  cases hq : o.own? p with
  | none =>
    rw [assign_none hq]
    split
    · exact define_ordered ho t p _
    · exact ho
  | some q =>
    cases p with
    | element i =>
      simp only [assign, hq]
      split
      · exact (ho.settle i).put i _
      · exact ho.settle i
    | name k =>
      simp only [assign, hq]
      split <;> exact ho

structure Grown (o : Object) : Prop where
  names : o.names.Grown
  elements : o.elements.Ordered

theorem Grown.step (ho : o.Grown) (hs : o.Step o') : o'.Grown where
  names := hs.revision.grown ho.names
  elements := by
    cases hs with
    | defined t p d => exact define_ordered ho.elements t p d
    | assigned t p v strict inherited? =>
      exact assign_ordered ho.elements t p v strict inherited?
    | linked p hp => exact ho.elements
    | closed => exact ho.elements
    | sealed => exact ho.elements.map Property.sealed
    | frozen => exact ho.elements.map Property.frozen

end Object

end InlineCache
