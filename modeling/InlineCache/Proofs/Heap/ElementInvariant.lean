import InlineCache.Proofs.Heap.Integrity

/-! The elements of every object.
An element is written below the greatest index, the dense run ends where a write has
reached, and an array ends right behind its last element. Making a dense cell moves
sparse elements, which no lookup and no listing can tell. -/

namespace InlineCache

namespace ElementStore

variable {s : ElementStore} {i n : Nat} {q : Property}

theorem size_settle_le (hs : s.dense.size ≤ n) (hi : i < n) : (s.settle i).dense.size ≤ n := by
  simp only [settle]
  split
  · simp only [extend, Array.size_append, List.size_toArray, List.length_map, List.length_range']
    omega
  · exact hs

theorem size_put (s : ElementStore) (i : Nat) (p : Property) :
    (s.put i p).dense.size = s.dense.size := by
  simp only [put]
  split
  · exact Array.size_setIfInBounds
  · rfl

theorem lookup?_settle_put (s : ElementStore) (i j : Nat) (p : Property) :
    ((s.settle i).put i p).lookup? j = if j = i then some p else s.lookup? j := by
  rw [lookup?_put, lookup?_settle]

theorem Ordered.mem_toList (hs : s.Ordered) : (i, q) ∈ s.toList ↔ s.lookup? i = some q := by
  rw [← hs.lookup_toList]
  exact (IndexMap.find?_eq_some (m := hs.indexMap)).symm

theorem Ordered.lookup?_of_sparse (hs : s.Ordered) {e : Nat × Property} (he : e ∈ s.sparse) :
    s.lookup? e.1 = some e.2 :=
  hs.mem_toList.1 (List.mem_append_right _ he)

end ElementStore

namespace Object

variable {o o' : Object} {p : Place} {d : Property} {i : Nat}

structure Measured (o : Object) : Prop where
  within : ∀ i, (o.elements.lookup? i).isSome = true → i ≤ maxIndex
  run : o.elements.dense.size ≤ maxIndex + 1
  covered : o.kind = .array → ∀ i, (o.elements.lookup? i).isSome = true → i < o.length
  reached : o.kind = .array → 0 < o.length → (o.elements.lookup? (o.length - 1)).isSome = true
  unmeasured : o.kind ≠ .array → o.length = 0

theorem measured_new (kind : ObjectKind) (label : Text) (prototype : Handle) :
    Measured { kind, label, prototype } where
  within i hi := by cases hi
  run := Nat.zero_le _
  covered _ i hi := by cases hi
  reached _ hlength := absurd hlength (Nat.lt_irrefl 0)
  unmeasured _ := rfl

theorem Measured.congr (ho : o.Measured) (hkind : o'.kind = o.kind) (hlength : o'.length = o.length)
    (hsame : ∀ i, (o'.elements.lookup? i).isSome = (o.elements.lookup? i).isSome)
    (hrun : o'.elements.dense.size ≤ maxIndex + 1) : o'.Measured where
  within i hi := ho.within i (hsame i ▸ hi)
  run := hrun
  covered hk i hi := hlength ▸ ho.covered (hkind ▸ hk) i (hsame i ▸ hi)
  reached hk hpos := by
    rw [hlength] at hpos ⊢
    rw [hsame]
    exact ho.reached (hkind ▸ hk) hpos
  unmeasured hk := hlength.trans (ho.unmeasured (hkind ▸ hk))

theorem Measured.settle (ho : o.Measured) (hi : i ≤ maxIndex) :
    Measured { o with elements := o.elements.settle i } :=
  ho.congr rfl rfl (fun j => by rw [ElementStore.lookup?_settle])
    (ElementStore.size_settle_le ho.run (Nat.lt_succ_of_le hi))

theorem Measured.put (ho : o.Measured) (hi : i ≤ maxIndex) (d : Property) :
    Measured { o with
      elements := (o.elements.settle i).put i d
      length := if o.kind = .array then max o.length (i + 1) else o.length } where
  within j hj := by
    rw [ElementStore.lookup?_settle_put] at hj
    split at hj
    · next he => exact he ▸ hi
    · exact ho.within j hj
  run := by
    simp only [ElementStore.size_put]
    exact ElementStore.size_settle_le ho.run (Nat.lt_succ_of_le hi)
  covered hk j hj := by
    simp only [ElementStore.lookup?_settle_put] at hj
    simp only [if_pos hk]
    split at hj
    · omega
    · have := ho.covered hk j hj
      omega
  reached hk hpos := by
    simp only [if_pos hk, ElementStore.lookup?_settle_put] at hpos ⊢
    split
    · rfl
    · next hne =>
      rw [Nat.max_eq_left (by omega)]
      exact ho.reached hk (by omega)
  unmeasured hk := by
    simp only [if_neg hk]
    exact ho.unmeasured hk

theorem Measured.rewrite (ho : o.Measured) (hi : i ≤ maxIndex)
    (hpresent : (o.elements.lookup? i).isSome = true) (d : Property) :
    Measured { o with elements := (o.elements.settle i).put i d } := by
  refine ho.congr rfl rfl (fun j => ?_) ?_
  · simp only [ElementStore.lookup?_settle_put]
    split
    · next he => exact (he ▸ hpresent).symm
    · rfl
  · simp only [ElementStore.size_put]
    exact ElementStore.size_settle_le ho.run (Nat.lt_succ_of_le hi)

theorem Measured.define (ho : o.Measured) (t : HeapTally) (hp : p.Proper) (d : Property) :
    (o.define t p d).object.Measured := by
  cases p with
  | element i =>
    simp only [Object.define, defineElement_object]
    split
    · exact ho.put hp d
    · exact ho
  | name k =>
    simp only [Object.define, defineName_object]
    exact ho.congr rfl rfl (fun _ => rfl) ho.run

theorem Measured.assign (ho : o.Measured) (t : HeapTally) (hp : p.Proper) (v : Value)
    (strict : Bool) (inherited? : Option Property) :
    (o.assign t p v strict inherited?).object.Measured := by
  cases hq : o.own? p with
  | none =>
    rw [assign_none hq]
    split
    · exact ho.define t hp _
    · exact ho
  | some q =>
    cases p with
    | element i =>
      have hpresent : (o.elements.lookup? i).isSome = true := Option.isSome_of_eq_some hq
      simp only [Object.assign, hq]
      split
      · exact ho.rewrite hp hpresent _
      · exact ho.settle hp
    | name k =>
      simp only [Object.assign, hq]
      split
      · exact ho.congr rfl rfl (fun _ => rfl) ho.run
      · exact ho

theorem Measured.map (ho : o.Measured) (f : Property → Property) (hkind : o'.kind = o.kind)
    (hlength : o'.length = o.length) (helements : o'.elements = o.elements.map f) :
    o'.Measured := by
  refine ho.congr hkind hlength (fun i => ?_) ?_
  · rw [helements, ElementStore.lookup?_map, Option.isSome_map]
  · rw [helements, ElementStore.map, Array.size_map]
    exact ho.run

theorem Measured.step (ho : o.Measured) (hs : o.Step o') : o'.Measured := by
  cases hs with
  | defined t p d hp => exact ho.define t hp d
  | assigned t p v strict inherited? hp => exact ho.assign t hp v strict inherited?
  | linked p hp => exact ho.congr rfl rfl (fun _ => rfl) ho.run
  | closed => exact ho.congr rfl rfl (fun _ => rfl) ho.run
  | sealed => exact ho.map Property.sealed rfl rfl rfl
  | frozen => exact ho.map Property.frozen rfl rfl rfl

theorem lookup?_of_defineElement {t : HeapTally} (h : (o.defineElement t i d).status = .ok)
    (j : Nat) :
    (o.defineElement t i d).object.elements.lookup? j =
      if j = i then some d else o.elements.lookup? j := by
  have hyes : o.accepts (o.elements.lookup? i) d = true := by
    by_contra hno
    have hrefused : o.defineElement t i d = o.refuse t true := if_neg hno
    rw [hrefused] at h
    cases h
  rw [defineElement_object, if_pos hyes]
  exact o.elements.lookup?_settle_put i j d

end Object

namespace Heap

variable {h : Heap} {x : Handle} {o : Object}

theorem Reached.measured (hr : h.Reached) (hx : h.find? x = some o) : o.Measured :=
  hr.object Object.measured_new (fun _ _ ho hs => ho.step hs) hx

/-- Sparse elements stand beyond the dense run, and the length of an array is one past its
last element. Making a dense cell changes no element, a definition changes one, and the
listing gives all of them in ascending order. -/
theorem Reached.elements_in_order (hr : h.Reached) (hx : h.find? x = some o) :
    let s := o.elements
    (∀ e ∈ s.sparse, s.dense.size ≤ e.1 ∧ s.lookup? e.1 = some e.2) ∧
      s.dense.size < 2 ^ 32 ∧
      (∀ i q, s.lookup? i = some q → i + 1 < 2 ^ 32) ∧
      (o.kind = .array →
        (∀ i q, s.lookup? i = some q → i < o.length) ∧
        (0 < o.length → ∃ q, s.lookup? (o.length - 1) = some q)) ∧
      (o.kind ≠ .array → o.length = 0) ∧
      (∀ i j, (s.settle i).lookup? j = s.lookup? j) ∧
      (∀ t i d, (o.defineElement t i d).status = .ok → ∀ j,
        (o.defineElement t i d).object.elements.lookup? j =
          if j = i then some d else s.lookup? j) ∧
      s.toList.Pairwise (·.1 < ·.1) ∧ ∀ i q, (i, q) ∈ s.toList ↔ s.lookup? i = some q := by
  intro s
  have hordered : s.Ordered := (hr.formed hx).elements
  have hmeasured := hr.measured hx
  have hlimit : maxIndex + 1 < 2 ^ 32 := by decide
  refine ⟨fun e he => ⟨hordered.beyond e he, hordered.lookup?_of_sparse he⟩,
    Nat.lt_of_le_of_lt hmeasured.run hlimit, fun i q hq => ?_, fun hk => ⟨fun i q hq => ?_,
    fun hpos => ?_⟩, hmeasured.unmeasured, s.lookup?_settle, fun t i d hok j =>
    Object.lookup?_of_defineElement hok j, hordered.toList_ascending, fun i q =>
    hordered.mem_toList⟩
  · have := hmeasured.within i (Option.isSome_of_eq_some hq)
    omega
  · exact hmeasured.covered hk i (Option.isSome_of_eq_some hq)
  · exact Option.isSome_iff_exists.1 (hmeasured.reached hk hpos)

theorem sparse_element_moved :
    ∃ (h : Heap) (o : Object), h.Reached ∧ h.find? ⟨0, 1⟩ = some o ∧ o.kind = .array ∧
      o.elements.sparse.length = 2 ∧ (o.elements.settle 120).sparse.length = 1 ∧
      (o.elements.settle 120).lookup? 100 = o.elements.lookup? 100 ∧
      o.length = 301 ∧ ∃ q, o.elements.lookup? 300 = some q := by
  obtain ⟨ops, hops⟩ : ∃ ops : List HeapOp, ops = .createArray [] .null ::
      [300, 100, 60].map fun i => .setIndexed ⟨0, 1⟩ i .null true := ⟨_, rfl⟩
  have hfound : ((after ops).find? ⟨0, 1⟩).any (fun o => o.kind = .array ∧
      o.elements.sparse.length = 2 ∧ (o.elements.settle 120).sparse.length = 1 ∧
      o.length = 301) = true := by
    rw [hops]
    decide +kernel
  obtain ⟨o, hx, ho⟩ := (Option.any_eq_true ..).1 hfound
  obtain ⟨hkind, hsparse, hmoved, hlength⟩ := of_decide_eq_true ho
  obtain ⟨-, -, -, harray, -, hsettle, -⟩ := Reached.elements_in_order ⟨ops, rfl⟩ hx
  have hlast := (harray hkind).2 (hlength ▸ Nat.succ_pos 300)
  rw [hlength] at hlast
  exact ⟨after ops, o, ⟨ops, rfl⟩, hx, hkind, hsparse, hmoved, hsettle 120 100, hlength, hlast⟩

end Heap

end InlineCache
