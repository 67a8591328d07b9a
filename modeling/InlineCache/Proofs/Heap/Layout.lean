import InlineCache.Proofs.CanonicalIndex
import InlineCache.Proofs.Heap.Elements
import InlineCache.Proofs.Heap.Probing

/-! One object and the plain object it shows.
What shows is the entries in order and what the indices give. Buckets, room for
more names, and where an element is kept do not show. -/

namespace InlineCache

theorem filterMap_if {α β : Type} (b : α → Bool) (f : α → β) (l : List α) :
    (l.filterMap fun a => if b a then some (f a) else none) = (l.filter b).map f := by
  induction l with
  | nil => rfl
  | cons a l ih => cases hb : b a <;> simp [hb, ih]

namespace Object

structure Shows (o : Object) (q : PlainObject) : Prop where
  kind : q.kind = o.kind
  label : q.label = o.label
  prototype : q.prototype = o.prototype
  extensible : q.extensible = o.extensible
  sealed : q.sealed = o.sealed
  frozen : q.frozen = o.frozen
  names : q.names.entries = o.names.toList
  elements : ∀ i, q.elements.find? i = o.elements.lookup? i
  length : o.kind = .array → o.length = q.elements.span
  indexed : o.names.Indexed
  ordered : o.elements.Ordered
  placed : ∀ k ∈ o.names.keys, k.place = .name k
  within : ∀ i p, q.elements.find? i = some p → i ≤ maxIndex

variable {o : Object} {q : PlainObject} {p : Place} {d : Property}

namespace Shows

theorem fresh (kind : ObjectKind) (label : Text) (prototype : Handle) :
    Shows { kind, label, prototype } { kind, label, prototype } where
  kind := rfl
  label := rfl
  prototype := rfl
  extensible := rfl
  sealed := rfl
  frozen := rfl
  names := rfl
  elements i := by simp [IndexMap.find?, ElementStore.lookup?]
  length _ := rfl
  indexed := NameTable.indexed_empty
  ordered := ElementStore.ordered_empty
  placed k hk := absurd hk List.not_mem_nil
  within i p hp := by simp [IndexMap.find?] at hp

theorem own?_eq (h : o.Shows q) (p : Place) : q.own? p = o.own? p := by
  cases p with
  | element i => exact h.elements i
  | name k =>
    simp only [PlainObject.own?, NameList.find?, Object.own?, h.names]
    exact (h.indexed.lookup?_eq k).symm

theorem elements_eq (h : o.Shows q) : q.elements.entries = o.elements.toList := by
  have he : q.elements = h.ordered.indexMap := by
    apply IndexMap.ext_find?
    intro i
    rw [h.elements, ← h.ordered.lookup_toList]
    rfl
  rw [he]
  rfl

theorem enumerableKeys_eq (h : o.Shows q) : q.enumerableKeys = o.enumerableKeys := by
  simp only [PlainObject.enumerableKeys, Object.enumerableKeys, h.elements_eq, h.names]

theorem roomy (h : o.Shows q) : Shows { o with names := o.names.roomy } q :=
  { h with
    names := by rw [NameTable.toList_roomy, h.names]
    indexed := h.indexed.roomy
    placed := by rw [NameTable.keys_roomy]; exact h.placed }

theorem settle (h : o.Shows q) (i : Nat) :
    Shows { o with elements := o.elements.settle i } q :=
  { h with
    elements := fun j => by rw [ElementStore.lookup?_settle, h.elements]
    ordered := h.ordered.settle i }

theorem putElement (h : o.Shows q) {i : Nat} (hi : i ≤ maxIndex) (d : Property) {n : Nat}
    (hn : o.kind = .array → n = max o.length (i + 1)) :
    Shows { o with elements := (o.elements.settle i).put i d, length := n }
      (q.store (.element i) d) :=
  { h with
    elements := fun j => by
      simp only [PlainObject.store, IndexMap.find?_put, ElementStore.lookup?_put,
        ElementStore.lookup?_settle, h.elements]
    length := fun ha => by
      simp only [PlainObject.store, IndexMap.span_put, ← h.length ha]
      exact hn ha
    ordered := (h.ordered.settle i).put i d
    within := fun j p hj => by
      simp only [PlainObject.store, IndexMap.find?_put] at hj
      split at hj
      · next he => exact he ▸ hi
      · exact h.within j p hj }

theorem setName (h : o.Shows q) {i : Nat} {k : PropertyKey} (hk : o.names.keys[i]? = some k)
    (d : Property) :
    Shows { o with names := o.names.setAt i d } (q.store (.name k) d) :=
  { h with
    names := by simp only [PlainObject.store, NameList.put, h.names, h.indexed.toList_setAt hk]
    indexed := h.indexed.setAt i d
    placed := by rw [NameTable.keys_setAt]; exact h.placed }

theorem addName (h : o.Shows q) {k : PropertyKey} (hk : k ∉ o.names.keys)
    (hplace : k.place = .name k)
    (hload : 5 * (o.names.entries.size + 1) ≤ 3 * o.names.buckets.size) (d : Property) :
    Shows { o with names := o.names.insertAt (o.names.locate k).bucket k d }
      (q.store (.name k) d) :=
  { h with
    names := by simp only [PlainObject.store, NameList.put, h.names, NameTable.toList_insertAt hk]
    indexed := h.indexed.insertAt hk hload d
    placed := by
      intro k' hk'
      rw [NameTable.keys_insertAt, List.mem_append, List.mem_singleton] at hk'
      rcases hk' with hk' | rfl
      · exact h.placed k' hk'
      · exact hplace }

theorem define_eq (h : o.Shows q) (p : Place) (d : Property) :
    q.define p d = if o.accepts (o.own? p) d then (.ok, q.store p d) else (.typeError, q) := by
  simp only [PlainObject.define, h.own?_eq, Object.accepts, h.extensible]
  rfl

theorem defineElement (h : o.Shows q) (t : HeapTally) {i : Nat} (hi : i ≤ maxIndex)
    (d : Property) :
    (o.defineElement t i d).status = (q.define (.element i) d).1 ∧
      (o.defineElement t i d).object.Shows (q.define (.element i) d).2 := by
  rw [h.define_eq]
  simp only [Object.defineElement]
  by_cases ha : o.accepts (o.own? (.element i)) d = true
  · have ha' : o.accepts (o.elements.lookup? i) d = true := ha
    rw [if_pos ha, if_pos ha']
    exact ⟨rfl, h.putElement hi d fun hk => if_pos hk⟩
  · have ha' : ¬ o.accepts (o.elements.lookup? i) d = true := ha
    rw [if_neg ha, if_neg ha']
    exact ⟨rfl, h⟩

/-- The bound on the names concerns the object that is left, so it matters only where
a name is added. -/
theorem defineName (h : o.Shows q) (t : HeapTally) {k : PropertyKey} (hk : k.place = .name k)
    (d : Property)
    (hlimit : (o.defineName t k d).object.names.entries.size ≤ NameTable.nameLimit) :
    (o.defineName t k d).status = (q.define (.name k) d).1 ∧
      (o.defineName t k d).object.Shows (q.define (.name k) d).2 := by
  have hroomy := h.roomy
  rw [hroomy.define_eq]
  simp only [Object.defineName] at hlimit ⊢
  by_cases ha : Object.accepts { o with names := o.names.roomy }
      (Object.own? { o with names := o.names.roomy } (.name k)) d = true
  · have ha' : o.accepts ((o.names.roomy.locate k).position?.bind
        o.names.roomy.propertyAt?) d = true := ha
    rw [if_pos ha'] at hlimit ⊢
    rw [if_pos ha]
    refine ⟨rfl, ?_⟩
    by_cases hmem : k ∈ o.names.roomy.keys
    · obtain ⟨i, hi⟩ := List.mem_iff_getElem?.1 hmem
      simp only [hroomy.indexed.locate_of_mem hi]
      exact hroomy.setName hi d
    · simp only [(NameTable.locate_of_not_mem hmem).1] at hlimit ⊢
      have hsize : o.names.entries.size + 1 ≤ NameTable.nameLimit := by
        have hkeys := congrArg List.length o.names.keys_roomy
        rw [NameTable.length_keys, NameTable.length_keys] at hkeys
        simpa only [NameTable.insertAt, Array.size_push, hkeys] using hlimit
      exact hroomy.addName hmem hk (h.indexed.roomy_load hsize) d
  · have ha' : ¬ o.accepts ((o.names.roomy.locate k).position?.bind
        o.names.roomy.propertyAt?) d = true := ha
    rw [if_neg ha', if_neg ha]
    exact ⟨rfl, hroomy⟩

theorem define (h : o.Shows q) (t : HeapTally) (hp : p.Proper) (d : Property)
    (hlimit : (o.define t p d).object.names.entries.size ≤ NameTable.nameLimit) :
    (o.define t p d).status = (q.define p d).1 ∧
      (o.define t p d).object.Shows (q.define p d).2 := by
  cases p with
  | element i => exact h.defineElement t hp d
  | name k => exact h.defineName t hp d hlimit

theorem assignName (h : o.Shows q) (t : HeapTally) {k : PropertyKey} {r : Property}
    (hr : o.own? (.name k) = some r) (v : Value) :
    (o.assignName t k r v).object.Shows (q.store (.name k) { r with value := v }) := by
  have hmem : k ∈ o.names.keys := by
    by_contra hk
    simp only [Object.own?, NameTable.lookup?, (NameTable.locate_of_not_mem hk).1] at hr
    cases hr
  obtain ⟨i, hi⟩ := List.mem_iff_getElem?.1 hmem
  simp only [Object.assignName, h.indexed.locate_of_mem hi]
  exact h.setName hi _

theorem assign (h : o.Shows q) (t : HeapTally) (hp : p.Proper) (v : Value) (strict : Bool)
    (inherited? : Option Property)
    (hlimit : (o.assign t p v strict inherited?).object.names.entries.size ≤
      NameTable.nameLimit) :
    (o.assign t p v strict inherited?).status = (q.assign p v strict inherited?).1 ∧
      (o.assign t p v strict inherited?).object.Shows (q.assign p v strict inherited?).2 := by
  simp only [PlainObject.assign, h.own?_eq, h.extensible]
  simp only [Object.assign] at hlimit ⊢
  cases hown : o.own? p with
  | none =>
    simp only [hown] at hlimit ⊢
    by_cases ha : (inherited?.all (·.writable) && o.extensible) = true
    · rw [if_pos ha] at hlimit ⊢
      rw [if_pos ha]
      exact h.define t hp _ hlimit
    · rw [if_neg ha, if_neg ha]
      exact ⟨rfl, h⟩
  | some r =>
    cases p with
    | element i =>
      simp only
      by_cases hw : r.writable = true
      · rw [if_pos hw, if_pos hw]
        refine ⟨rfl, h.putElement hp _ fun hk => ?_⟩
        have hspan := IndexMap.lt_span (h.own?_eq (.element i) ▸ hown : q.own? (.element i) = _)
        rw [h.length hk]
        omega
      · rw [if_neg hw, if_neg hw]
        exact ⟨rfl, h.settle i⟩
    | name k =>
      simp only
      by_cases hw : r.writable = true
      · rw [if_pos hw, if_pos hw]
        exact ⟨rfl, h.assignName t hown v⟩
      · rw [if_neg hw, if_neg hw]
        exact ⟨rfl, h⟩

theorem mapAll (h : o.Shows q) (f : Property → Property) :
    Shows { o with names := o.names.map f, elements := o.elements.map f }
      { q with names := q.names.map f, elements := q.elements.map f } :=
  { h with
    names := by
      simp only [NameList.map, h.names, NameTable.toList, NameTable.map, Array.toList_map]
    elements := fun i => by
      rw [IndexMap.find?_map, ElementStore.lookup?_map, h.elements]
    length := fun hk => by rw [IndexMap.span_map, h.length hk]
    indexed := h.indexed.map f
    ordered := h.ordered.map f
    placed := by rw [NameTable.keys_map]; exact h.placed
    within := fun i p hp => by
      rw [IndexMap.find?_map, Option.map_eq_some_iff] at hp
      obtain ⟨r, hr, -⟩ := hp
      exact h.within i r hr }

theorem toSealed (h : o.Shows q) : o.toSealed.Shows q.toSealed :=
  { h.mapAll Property.sealed with extensible := rfl, sealed := rfl }

theorem toFrozen (h : o.Shows q) : o.toFrozen.Shows q.toFrozen :=
  { h.mapAll Property.frozen with extensible := rfl, sealed := rfl, frozen := rfl }

theorem nodup_enumerableKeys (h : o.Shows q) : o.enumerableKeys.Nodup := by
  rw [← h.enumerableKeys_eq]
  simp only [PlainObject.enumerableKeys, filterMap_if]
  apply List.Nodup.append
  · have hindices : ((q.elements.entries.filter (·.2.enumerable)).map (·.1)).Nodup :=
      q.elements.distinct.sublist (List.filter_sublist.map _)
    have hname : Function.Injective fun i => PropertyKey.name (Text.decimal i) := by
      intro i j he
      exact Text.decimal_injective (PropertyKey.name.inj he)
    have hnames := hindices.map hname
    rw [List.map_map] at hnames
    exact hnames
  · exact q.names.distinct.sublist (List.filter_sublist.map _)
  · intro k hk hk'
    obtain ⟨e, he, rfl⟩ := List.mem_map.1 hk
    obtain ⟨e', he', hkey⟩ := List.mem_map.1 hk'
    have hindex := h.within e.1 e.2 (IndexMap.find?_eq_some.2 (List.mem_filter.1 he).1)
    have hmem : e'.1 ∈ o.names.keys := by
      rw [NameTable.keys, ← h.names]
      exact List.mem_map_of_mem (List.mem_filter.1 he').1
    have hplace := h.placed e'.1 hmem
    rw [hkey, PropertyKey.place_decimal hindex] at hplace
    cases hplace

theorem mem_enumerableKeys (h : o.Shows q) (k : PropertyKey) :
    k ∈ o.enumerableKeys ↔ ∃ r, o.own? k.place = some r ∧ r.enumerable = true := by
  rw [← h.enumerableKeys_eq, ← h.own?_eq]
  simp only [PlainObject.enumerableKeys, filterMap_if, List.mem_append, List.mem_map,
    List.mem_filter]
  constructor
  · rintro (⟨e, ⟨he, hen⟩, rfl⟩ | ⟨e, ⟨he, hen⟩, rfl⟩)
    · have hfind := IndexMap.find?_eq_some.2 he
      rw [PropertyKey.place_decimal (h.within _ _ hfind)]
      exact ⟨e.2, hfind, hen⟩
    · have hmem : e.1 ∈ o.names.keys := by
        rw [NameTable.keys, ← h.names]
        exact List.mem_map_of_mem he
      rw [h.placed e.1 hmem]
      exact ⟨e.2, (lookup_eq_some_iff_mem q.names.distinct).2 he, hen⟩
  · rintro ⟨r, hown, hen⟩
    rcases k.place_cases with hk | ⟨i, -, rfl, hk⟩
    · rw [hk] at hown
      exact .inr ⟨(k, r), ⟨(lookup_eq_some_iff_mem q.names.distinct).1 hown, hen⟩, rfl⟩
    · rw [hk] at hown
      exact .inl ⟨(i, r), ⟨IndexMap.find?_eq_some.1 hown, hen⟩, rfl⟩

end Shows

end Object

end InlineCache
