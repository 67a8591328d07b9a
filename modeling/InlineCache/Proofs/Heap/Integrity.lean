import InlineCache.Proofs.Heap.Overfull
import InlineCache.Proofs.SameValue

/-! Integrity levels.
Every step of an object takes each of its properties to one that it permits, and gives
it a new property only while it is extensible. What a property that is not configurable
permits can be followed through any number of steps: its attributes can only be taken
away, and a read-only value stays the same up to rounding. -/

namespace InlineCache

namespace Property

variable {q q' r : Property}

theorem permits_iff {q d : Property} :
    q.permits d = true ↔
      (q.configurable = false →
        d.configurable = false ∧ d.enumerable = q.enumerable ∧
          (q.writable = false → d.writable = false ∧ q.value.sameValue d.value = true)) := by
  simp only [permits]
  cases q.configurable <;> cases q.writable <;> simp [and_assoc]

theorem permits_assigned (hw : q.writable = true) (v : Value) :
    q.permits { q with value := v } = true := by
  rw [permits_iff]
  intro hc
  refine ⟨hc, rfl, fun hnw => ?_⟩
  rw [hw] at hnw
  cases hnw

theorem permits_refl (q : Property) : q.permits q = true := by
  rw [permits_iff]
  exact fun hc => ⟨hc, rfl, fun hw => ⟨hw, Value.sameValue_refl q.value⟩⟩

theorem permits_sealed (q : Property) : q.permits q.sealed = true := by
  rw [permits_iff]
  exact fun _ => ⟨rfl, rfl, fun hw => ⟨hw, Value.sameValue_refl q.value⟩⟩

theorem permits_frozen (q : Property) : q.permits q.frozen = true := by
  rw [permits_iff]
  exact fun _ => ⟨rfl, rfl, fun _ => ⟨rfl, Value.sameValue_refl q.value⟩⟩

def Keeps (q q' : Property) : Prop :=
  q.configurable = false →
    q'.configurable = false ∧ q'.enumerable = q.enumerable ∧
      (q.writable = false → q'.writable = false ∧ q'.value.rounded = q.value.rounded)

theorem keeps_refl (q : Property) : q.Keeps q :=
  fun hc => ⟨hc, rfl, fun hw => ⟨hw, rfl⟩⟩

theorem Keeps.permits (hk : q.Keeps q') (hp : q'.permits r = true) : q.Keeps r := by
  intro hc
  obtain ⟨hc', he', hw'⟩ := hk hc
  obtain ⟨hc'', he'', hw''⟩ := permits_iff.1 hp hc'
  refine ⟨hc'', he''.trans he', fun hw => ?_⟩
  obtain ⟨hnw, hround⟩ := hw' hw
  obtain ⟨hnw', hsame⟩ := hw'' hnw
  exact ⟨hnw', (Value.rounded_eq_of_sameValue hsame).symm.trans hround⟩

end Property

namespace Object

variable {o o' : Object} {p : Place} {q d : Property} {P : Property → Prop}

/-- Every property satisfies `P`, whether or not a probe still finds it. -/
structure Holds (P : Property → Prop) (o : Object) : Prop where
  names : ∀ e ∈ o.names.entries, P e.2
  elements : ∀ i q, o.elements.lookup? i = some q → P q

theorem Holds.own (ho : o.Holds P) (hq : o.own? p = some q) : P q := by
  cases p with
  | element i => exact ho.elements i q hq
  | name k =>
    obtain ⟨i, -, hi⟩ := Option.bind_eq_some_iff.1 hq
    obtain ⟨e, he, rfl⟩ := Option.map_eq_some_iff.1 hi
    exact ho.names e (Array.mem_of_getElem? he)

theorem Holds.imp {Q : Property → Prop} (ho : o.Holds P) (h : ∀ q, P q → Q q) : o.Holds Q :=
  ⟨fun e he => h e.2 (ho.names e he), fun i q hq => h q (ho.elements i q hq)⟩

theorem entries_roomy (t : NameTable) : t.roomy.entries = t.entries := by
  simp only [NameTable.roomy]
  split <;> rfl

theorem forall_entries_file {t : NameTable} {k : PropertyKey} (ht : ∀ e ∈ t.entries, P e.2)
    (hq : t.lookup? k = some q) (hd : P d) : ∀ e ∈ (t.file k d).entries, P e.2 := by
  simp only [NameTable.lookup?] at hq
  simp only [NameTable.file]
  cases hp : (t.locate k).position? with
  | none =>
    rw [hp] at hq
    cases hq
  | some i =>
    intro e he
    obtain ⟨j, hj⟩ := Array.mem_iff_getElem?.1 he
    simp only [NameTable.setAt, Array.getElem?_modify] at hj
    split at hj
    · obtain ⟨r, -, rfl⟩ := Option.map_eq_some_iff.1 hj
      exact hd
    · exact ht e (Array.mem_of_getElem? hj)

theorem holds_map {f : Property → Property} (hf : ∀ e ∈ o.names.entries, P (f e.2))
    (hf' : ∀ i q, o.elements.lookup? i = some q → P (f q)) :
    Holds P { o with names := o.names.map f, elements := o.elements.map f } where
  names e he := by
    obtain ⟨r, hr, rfl⟩ := Array.mem_map.1 he
    exact hf r hr
  elements i q hq := by
    simp only [ElementStore.lookup?_map] at hq
    obtain ⟨r, hr, rfl⟩ := Option.map_eq_some_iff.1 hq
    exact hf' i r hr

theorem Holds.putElement (ho : o.Holds P) (hd : P d) (i : Nat) :
    ∀ j q, ((o.elements.settle i).put i d).lookup? j = some q → P q := by
  intro j q hq
  rw [ElementStore.lookup?_put, ElementStore.lookup?_settle] at hq
  split at hq
  · cases hq
    exact hd
  · exact ho.elements j q hq

theorem Holds.define (ho : o.Holds P) (hP : ∀ q d, P q → q.permits d = true → P d)
    (hext : o.extensible = false) (t : HeapTally) (p : Place) (d : Property) :
    (o.define t p d).object.Holds P := by
  have hpermits : ∀ own? : Option Property, o.accepts own? d = true →
      ∃ q, own? = some q ∧ q.permits d = true := by
    intro own? h
    cases own? with
    | none =>
      rw [accepts, hext] at h
      cases h
    | some q => exact ⟨q, rfl, h⟩
  cases p with
  | element i =>
    simp only [Object.define, defineElement_object]
    split
    · next h =>
      obtain ⟨q, hq, hd⟩ := hpermits _ h
      exact ⟨ho.names, ho.putElement (hP q d (ho.elements i q hq) hd) i⟩
    · exact ho
  | name k =>
    simp only [Object.define, defineName_object]
    have hroomy : Holds P { o with names := o.names.roomy } :=
      ⟨by simpa only [entries_roomy] using ho.names, ho.elements⟩
    split
    · next h =>
      obtain ⟨q, hq, hd⟩ := hpermits _ h
      have hPd := hP q d (hroomy.own (p := .name k) hq) hd
      exact ⟨forall_entries_file hroomy.names hq hPd, ho.elements⟩
    · exact hroomy

theorem Holds.assign (ho : o.Holds P) (hP : ∀ q d, P q → q.permits d = true → P d)
    (hext : o.extensible = false) (t : HeapTally) (p : Place) (v : Value) (strict : Bool)
    (inherited? : Option Property) : (o.assign t p v strict inherited?).object.Holds P := by
  cases hq : o.own? p with
  | none =>
    rw [assign_none hq]
    split
    · exact ho.define hP hext t p _
    · exact ho
  | some q =>
    have hPv : q.writable = true → P { q with value := v } :=
      fun hw => hP q _ (ho.own hq) (Property.permits_assigned hw v)
    cases p with
    | element i =>
      simp only [Object.assign, hq]
      split
      · next hw => exact ⟨ho.names, ho.putElement (hPv hw) i⟩
      · refine ⟨ho.names, fun j r hr => ho.elements j r ?_⟩
        rwa [← ElementStore.lookup?_settle o.elements i]
    | name k =>
      simp only [Object.assign, hq]
      split
      · next hw =>
        rw [assignName_object hq]
        exact ⟨forall_entries_file ho.names hq (hPv hw), ho.elements⟩
      · exact ho

/-- While it is not extensible, an object has no property but those its properties
permit. -/
theorem Step.holds (hs : o.Step o') (hP : ∀ q d, P q → q.permits d = true → P d)
    (hext : o.extensible = false) (ho : o.Holds P) : o'.Holds P := by
  cases hs with
  | defined t p d => exact ho.define hP hext t p d
  | assigned t p v strict inherited? => exact ho.assign hP hext t p v strict inherited?
  | linked p hp => exact ⟨ho.names, ho.elements⟩
  | closed => exact ⟨ho.names, ho.elements⟩
  | sealed =>
    obtain ⟨hn, he⟩ := holds_map (o := o) (f := Property.sealed)
      (fun e he => hP e.2 _ (ho.names e he) e.2.permits_sealed)
      fun i q hq => hP q _ (ho.elements i q hq) q.permits_sealed
    exact ⟨hn, he⟩
  | frozen =>
    obtain ⟨hn, he⟩ := holds_map (o := o) (f := Property.frozen)
      (fun e he => hP e.2 _ (ho.names e he) e.2.permits_frozen)
      fun i q hq => hP q _ (ho.elements i q hq) q.permits_frozen
    exact ⟨hn, he⟩

theorem Step.frame_cases (hs : o.Step o') :
    o'.frame = o.frame ∨
      (∃ p, (o.extensible = true ∨ p = o.prototype) ∧ o' = { o with prototype := p }) ∨
      o' = { o with extensible := false } ∨ o' = o.toSealed ∨ o' = o.toFrozen := by
  cases hs with
  | defined t p d => exact .inl (o.define_frame t p d)
  | assigned t p v strict inherited? => exact .inl (o.assign_frame t p v strict inherited?)
  | linked p hp => exact .inr (.inl ⟨p, hp, rfl⟩)
  | closed => exact .inr (.inr (.inl rfl))
  | sealed => exact .inr (.inr (.inr (.inl rfl)))
  | frozen => exact .inr (.inr (.inr (.inr rfl)))

theorem Step.closed_stays (hs : o.Step o') (ho : o.extensible = false) :
    o'.extensible = false ∧ o'.prototype = o.prototype := by
  rcases hs.frame_cases with hf | ⟨p, hp, rfl⟩ | rfl | rfl | rfl
  · have he := congrArg Object.extensible hf
    have hp := congrArg Object.prototype hf
    exact ⟨he.trans ho, hp⟩
  · exact ⟨ho, hp.resolve_left (by simp [ho])⟩
  · exact ⟨rfl, rfl⟩
  · exact ⟨rfl, rfl⟩
  · exact ⟨rfl, rfl⟩

theorem Step.sealed_cases (hs : o.Step o') :
    o'.sealed = o.sealed ∨ o' = o.toSealed ∨ o' = o.toFrozen := by
  rcases hs.frame_cases with hf | ⟨p, -, rfl⟩ | rfl | h
  · have hf' := congrArg Object.sealed hf
    exact .inl hf'
  · exact .inl rfl
  · exact .inl rfl
  · exact .inr h

theorem Step.frozen_cases (hs : o.Step o') : o'.frozen = o.frozen ∨ o' = o.toFrozen := by
  rcases hs.frame_cases with hf | ⟨p, -, rfl⟩ | rfl | rfl | h
  · have hf' := congrArg Object.frozen hf
    exact .inl hf'
  · exact .inl rfl
  · exact .inl rfl
  · exact .inl rfl
  · exact .inr h

def Settled (q : Property) : Prop := q.configurable = false

def Fixed (q : Property) : Prop := q.configurable = false ∧ q.writable = false

theorem settled_of_permits (q d : Property) (hq : Settled q) (hd : q.permits d = true) :
    Settled d :=
  (Property.permits_iff.1 hd hq).1

theorem fixed_of_permits (q d : Property) (hq : Fixed q) (hd : q.permits d = true) : Fixed d := by
  obtain ⟨hc, -, hw⟩ := Property.permits_iff.1 hd hq.1
  exact ⟨hc, (hw hq.2).1⟩

theorem holds_toSealed (o : Object) : o.toSealed.Holds Settled := by
  obtain ⟨hn, he⟩ := holds_map (o := o) (f := Property.sealed) (P := Settled)
    (fun _ _ => rfl) fun _ _ _ => rfl
  exact ⟨hn, he⟩

theorem holds_toFrozen (o : Object) : o.toFrozen.Holds Fixed := by
  obtain ⟨hn, he⟩ := holds_map (o := o) (f := Property.frozen) (P := Fixed)
    (fun _ _ => ⟨rfl, rfl⟩) fun _ _ _ => ⟨rfl, rfl⟩
  exact ⟨hn, he⟩

structure Formed (o : Object) : Prop extends Grown o where
  sealed : o.sealed = true → o.extensible = false ∧ o.Holds Settled
  frozen : o.frozen = true → o.sealed = true ∧ o.Holds Fixed

theorem formed_new (kind : ObjectKind) (label : Text) (prototype : Handle) :
    Formed { kind, label, prototype } where
  names := NameTable.grown_empty
  elements := ElementStore.ordered_empty
  sealed h := nomatch h
  frozen h := nomatch h

theorem Formed.step (ho : o.Formed) (hs : o.Step o') : o'.Formed where
  toGrown := ho.toGrown.step hs
  sealed h := by
    rcases hs.sealed_cases with he | rfl | rfl
    · obtain ⟨hext, hall⟩ := ho.sealed (he ▸ h)
      exact ⟨(hs.closed_stays hext).1, hs.holds settled_of_permits hext hall⟩
    · exact ⟨rfl, o.holds_toSealed⟩
    · exact ⟨rfl, o.holds_toFrozen.imp fun _ => And.left⟩
  frozen h := by
    rcases hs.frozen_cases with he | rfl
    · obtain ⟨hsealed, hall⟩ := ho.frozen (he ▸ h)
      refine ⟨?_, hs.holds fixed_of_permits (ho.sealed hsealed).1 hall⟩
      rcases hs.sealed_cases with he' | rfl | rfl
      · exact he'.trans hsealed
      · rfl
      · rfl
    · exact ⟨rfl, o.holds_toFrozen⟩

/-- What can become of the property at a place: it goes over to one that it permits, and
an absent one appears only where the object is extensible. -/
structure Allows (extensible : Bool) (own? own?' : Option Property) : Prop where
  present : ∀ q, own? = some q → ∃ q', own?' = some q' ∧ q.permits q' = true
  absent : extensible = false → own? = none → own?' = none

theorem allows_refl (extensible : Bool) (own? : Option Property) :
    Allows extensible own? own? where
  present q hq := ⟨q, hq, q.permits_refl⟩
  absent _ h := h

theorem allows_map {f : Property → Property} (hf : ∀ q : Property, q.permits (f q) = true)
    (extensible : Bool) (own? : Option Property) : Allows extensible own? (own?.map f) where
  present q hq := ⟨f q, by rw [hq, Option.map_some], hf q⟩
  absent _ h := by rw [h, Option.map_none]

theorem allows_accepted {own? : Option Property} (h : o.accepts own? d = true) :
    Allows o.extensible own? (some d) where
  present q hq := ⟨d, rfl, by rwa [hq] at h⟩
  absent hext hn := by
    rw [hn, accepts, hext] at h
    cases h

theorem allows_assigned {v : Value} {inherited? : Option Property}
    (h : o.assigned? p v inherited? = some d) : Allows o.extensible (o.own? p) (some d) := by
  cases hq : o.own? p with
  | none =>
    simp only [assigned?, hq, Option.ite_none_right_eq_some] at h
    apply allows_accepted
    exact (Bool.and_eq_true_iff.1 h.1).2
  | some q =>
    simp only [assigned?, hq, Option.ite_none_right_eq_some, Option.some.injEq] at h
    obtain ⟨hw, rfl⟩ := h
    constructor
    · rintro r ⟨⟩
      exact ⟨_, rfl, Property.permits_assigned hw v⟩
    · intro _ h
      cases h

/-- An object that takes no new name has room for those it has, however many they are. -/
theorem room_of_allows {p' : Place} (hd : Allows o.extensible (o.own? p') (some d))
    (hsize : o.extensible = true →
      o'.names.entries.size ≤ max NameTable.maxBuckets o.names.entries.size) :
    o.Room p' o' := by
  intro k _ hnone
  cases hext : o.extensible with
  | true => exact hsize hext
  | false => cases hd.absent hext hnone

theorem Takes.allows {t : HeapTally} {w : Written} {p' : Place} (ht : o.Takes t p' d w)
    (hd : Allows o.extensible (o.own? p') (some d))
    (hsize : o.extensible = true →
      w.object.names.entries.size ≤ max NameTable.maxBuckets o.names.entries.size)
    (p : Place) : Allows o.extensible (o.own? p) (w.object.own? p) := by
  rw [ht.own_eq (room_of_allows hd hsize)]
  split
  · next he => exact he ▸ hd
  · exact allows_refl _ _

theorem Step.allows (hs : o.Step o') (ho : o.Grown)
    (hsize : o.extensible = true →
      o'.names.entries.size ≤ max NameTable.maxBuckets o.names.entries.size) (p : Place) :
    Allows o.extensible (o.own? p) (o'.own? p) := by
  cases hs with
  | defined t p' d =>
    cases hyes : o.accepts (o.own? p') d with
    | true => exact (define_takes ho.names hyes t).allows (allows_accepted hyes) hsize p
    | false =>
      rw [(define_declines ho.names hyes t).object.own]
      exact allows_refl _ _
  | assigned t p' v strict inherited? =>
    cases hd : o.assigned? p' v inherited? with
    | some d => exact (assign_takes ho.names hd t strict).allows (allows_assigned hd) hsize p
    | none =>
      rw [(assign_declines ho.elements hd t strict).object.own]
      exact allows_refl _ _
  | linked p' hp => cases p <;> exact allows_refl _ _
  | closed => cases p <;> exact allows_refl _ _
  | sealed =>
    rw [toSealed_own]
    exact allows_map Property.permits_sealed _ _
  | frozen =>
    rw [toFrozen_own]
    exact allows_map Property.permits_frozen _ _

structure Keeps (o o' : Object) : Prop where
  present : ∀ p q, o.own? p = some q → ∃ q', o'.own? p = some q' ∧ q.Keeps q'
  absent : o.extensible = false → ∀ p, o.own? p = none → o'.own? p = none

abbrev Life : Object → Object → Prop := Relation.ReflTransGen Step

theorem Life.closed_stays (hl : Life o o') (ho : o.extensible = false) :
    o'.extensible = false ∧ o'.prototype = o.prototype := by
  induction hl with
  | refl => exact ⟨ho, rfl⟩
  | tail _ hs ih =>
    obtain ⟨he, hp⟩ := hs.closed_stays ih.1
    exact ⟨he, hp.trans ih.2⟩

theorem Life.formed (hl : Life o o') (ho : o.Formed) : o'.Formed := by
  induction hl with
  | refl => exact ho
  | tail _ hs ih => exact ih.step hs

theorem Life.size_le (hl : Life o o') : o.names.entries.size ≤ o'.names.entries.size := by
  induction hl with
  | refl => exact Nat.le_refl _
  | tail _ hs ih => exact ih.trans hs.revision.size_le

theorem Life.keeps (hl : Life o o') (ho : o.Formed)
    (hsize : o.extensible = true →
      o'.names.entries.size ≤ max NameTable.maxBuckets o.names.entries.size) : o.Keeps o' := by
  induction hl with
  | refl => exact ⟨fun p q hq => ⟨q, hq, q.keeps_refl⟩, fun _ p hp => hp⟩
  | @tail b c hl hs ih =>
    -- tables only grow, so the bound on the last one is a bound on all
    have hgrows := Life.size_le hl
    obtain ⟨hpresent, habsent⟩ := ih fun hext => hs.revision.size_le.trans (hsize hext)
    have hgrown := (Life.formed hl ho).toGrown
    have hopen : b.extensible = true → o.extensible = true := by
      intro hb
      by_contra hext
      have hclosed := (Life.closed_stays hl (Bool.eq_false_iff.2 hext)).1
      exact absurd (hb.symm.trans hclosed) (by decide)
    have hallows := hs.allows hgrown fun hb => by
      have hbound := hsize (hopen hb)
      omega
    constructor
    · intro p q hq
      obtain ⟨q', hq', hk⟩ := hpresent p q hq
      obtain ⟨r, hr, hp⟩ := (hallows p).present q' hq'
      exact ⟨r, hr, hk.permits hp⟩
    · intro hext p hn
      exact (hallows p).absent (Life.closed_stays hl hext).1 (habsent hext p hn)

theorem Life.holds (hl : Life o o') (hP : ∀ q d, P q → q.permits d = true → P d)
    (hext : o.extensible = false) (ho : o.Holds P) : o'.Holds P := by
  induction hl with
  | refl => exact ho
  | tail hl hs ih => exact hs.holds hP (Life.closed_stays hl hext).1 ih

end Object

namespace Heap

variable {h : Heap} {x : Handle} {k : PropertyKey} {o : Object} {q : Property}
  {more : List HeapOp}

theorem Reached.formed (hr : h.Reached) (hx : h.find? x = some o) : o.Formed :=
  hr.object Object.formed_new (fun _ _ ho hs => ho.step hs) hx

theorem Reached.life (hr : h.Reached) (hx : h.find? x = some o) (hmore : .destroy x ∉ more)
    (hslots : h.Numbered (h.run more)) :
    ∃ o', (h.run more).find? x = some o' ∧ o.Formed ∧ Object.Life o o' := by
  obtain ⟨o', ho', hl⟩ := hr.vacant.run_follows hx hmore hslots
  exact ⟨o', ho', hr.formed hx, hl⟩

theorem find?_raised {level : Object → Bool} {o' : Object} (hx : h.find? x = some o)
    (ho : level o' = true) (t : HeapTally) :
    ∃ q, (if level o then (Status.ok, h) else (.ok, { h.update x o' with tally := t })).2.find? x =
      some q ∧ level q = true := by
  split
  · next hl => exact ⟨o, hx, hl⟩
  · refine ⟨o', ?_, ho⟩
    rw [find?_tally, find?_update hx, if_pos rfl]

theorem Reached.sealed_object (hr : h.Reached) (hs : (h.sealObject x).1 = .ok) :
    (h.sealObject x).2.Reached ∧ ∃ o, (h.sealObject x).2.find? x = some o ∧ o.sealed = true := by
  refine ⟨hr.run [.sealObject x], ?_⟩
  simp only [sealObject] at hs ⊢
  cases hx : h.find? x with
  | none =>
    rw [hx] at hs
    cases hs
  | some o => exact find?_raised hx rfl _

theorem Reached.frozen_object (hr : h.Reached) (hf : (h.freezeObject x).1 = .ok) :
    (h.freezeObject x).2.Reached ∧
      ∃ o, (h.freezeObject x).2.find? x = some o ∧ o.frozen = true := by
  refine ⟨hr.run [.freezeObject x], ?_⟩
  simp only [freezeObject] at hf ⊢
  cases hx : h.find? x with
  | none =>
    rw [hx] at hf
    cases hf
  | some o => exact find?_raised hx rfl _

theorem Reached.stays_closed (hr : h.Reached) (hx : h.find? x = some o)
    (hext : o.extensible = false) {P : Property → Prop} (ho : o.Holds P)
    (hP : ∀ q d, P q → q.permits d = true → P d) (hmore : .destroy x ∉ more)
    (hslots : h.Numbered (h.run more)) :
    (h.run more).isExtensible x = false ∧
      ∀ k q, (h.run more).describeOwn x k = (.ok, q) → P q := by
  obtain ⟨o', ho', -, hl⟩ := hr.life hx hmore hslots
  constructor
  · simp only [isExtensible, ho', Option.any_some]
    exact (hl.closed_stays hext).1
  · intro k q hq
    obtain ⟨r, hr', hq⟩ := describeOwn_ok_iff.1 hq
    cases ho'.symm.trans hr'
    exact (hl.holds hP hext ho).own hq

/-- Integrity levels are permanent while every new slot has a number. What an object has
that is not configurable stays as long as its new names fit the most buckets there can be,
and in an object that takes no new name it stays however many there are. -/
theorem Reached.integrity_permanent (hr : h.Reached) (hx : h.isLive x = true)
    (hmore : .destroy x ∉ more) (hslots : h.Numbered (h.run more)) :
    (h.run more).isLive x = true ∧
      (h.isExtensible x = false →
        (h.run more).isExtensible x = false ∧ (h.run more).prototype x = h.prototype x ∧
          ∀ k, (h.run more).hasOwn x k = h.hasOwn x k) ∧
      ((h.isExtensible x = true →
          (h.run more).nameCount x ≤ max NameTable.maxBuckets (h.nameCount x)) →
        ∀ k q, h.describeOwn x k = (.ok, q) → q.configurable = false →
          ∃ q', (h.run more).describeOwn x k = (.ok, q') ∧ q'.configurable = false ∧
            q'.enumerable = q.enumerable ∧ (q.writable = false → q'.writable = false)) ∧
      ((h.sealObject x).1 = .ok →
        (h.sealObject x).2.Numbered ((h.sealObject x).2.run more) →
        ((h.sealObject x).2.run more).isExtensible x = false ∧
          ∀ k q, ((h.sealObject x).2.run more).describeOwn x k = (.ok, q) →
            q.configurable = false) ∧
      ((h.freezeObject x).1 = .ok →
        (h.freezeObject x).2.Numbered ((h.freezeObject x).2.run more) →
        ((h.freezeObject x).2.run more).isExtensible x = false ∧
          ∀ k q, ((h.freezeObject x).2.run more).describeOwn x k = (.ok, q) →
            q.configurable = false ∧ q.writable = false) := by
  obtain ⟨o, ho⟩ := isLive_iff.1 hx
  obtain ⟨o', ho', hformed, hl⟩ := hr.life ho hmore hslots
  refine ⟨isLive_iff.2 ⟨o', ho'⟩, ?_, ?_, ?_, ?_⟩
  · simp only [isExtensible, prototype, hasOwn, ho, ho', Option.any_some, Option.elim_some]
    intro hext
    obtain ⟨hpresent, habsent⟩ := hl.keeps hformed fun h => absurd (h.symm.trans hext) (by decide)
    obtain ⟨hext', hprototype⟩ := hl.closed_stays hext
    refine ⟨hext', hprototype, fun k => ?_⟩
    cases hq : o.own? k.place with
    | none => rw [habsent hext _ hq]
    | some q =>
      obtain ⟨q', hq', -⟩ := hpresent _ q hq
      rw [hq']
      rfl
  · simp only [isExtensible, nameCount, ho, ho', Option.any_some, Option.elim_some]
    intro hsize k q hq hc
    obtain ⟨r, hr', hq⟩ := describeOwn_ok_iff.1 hq
    cases ho.symm.trans hr'
    obtain ⟨q', hq', hk⟩ := (hl.keeps hformed hsize).present _ q hq
    obtain ⟨hc', he', hw'⟩ := hk hc
    exact ⟨q', describeOwn_ok_iff.2 ⟨o', ho', hq'⟩, hc', he', fun hw => (hw' hw).1⟩
  · intro hs hslots'
    obtain ⟨hr', o₁, ho₁, hsealed⟩ := hr.sealed_object hs
    obtain ⟨hext, hall⟩ := (hr'.formed ho₁).sealed hsealed
    exact hr'.stays_closed ho₁ hext hall Object.settled_of_permits hmore hslots'
  · intro hf hslots'
    obtain ⟨hr', o₁, ho₁, hfrozen⟩ := hr.frozen_object hf
    obtain ⟨hsealed, hall⟩ := (hr'.formed ho₁).frozen hfrozen
    have hext := ((hr'.formed ho₁).sealed hsealed).1
    exact hr'.stays_closed ho₁ hext hall Object.fixed_of_permits hmore hslots'

/-- One name too many hides a property that is not configurable, and one object too many
takes the place of an object that is not extensible. -/
theorem integrity_outgrown :
    (∃ (before more : List HeapOp) (x : Handle) (k : PropertyKey),
      .destroy x ∉ more ∧ (after before).Numbered ((after before).run more) ∧
        (after before).describeOwn x k = (.ok, permanent) ∧
        ((after before).run more).nameCount x = NameTable.maxBuckets + 1 ∧
        ((after before).run more).hasOwn x k = false) ∧
      ∃ (before more : List HeapOp) (x : Handle),
        .destroy x ∉ more ∧ ((after before).run more).tally.allocations = handleLimit + 1 ∧
          (after before).isExtensible x = false ∧
          ((after before).run more).nameCount x = 0 ∧
          ((after before).run more).isExtensible x = true := by
  constructor
  · obtain ⟨o, hx, ho, hone⟩ := after_crowding maxBuckets_lt.le
    refine ⟨crowding NameTable.maxBuckets,
      [.define ⟨0, 1⟩ (crowdName NameTable.maxBuckets) permanent], ⟨0, 1⟩, ?_⟩
    obtain ⟨hsame, i, -, hown, hcount, hlost⟩ := ho.define_hides hx permanent
    refine ⟨crowdName i, by simp, ?_, hown, hcount, hlost⟩
    refine (Reached.run ⟨_, rfl⟩ _).vacant.numbered ?_
    rw [hsame, hone]
    decide
  · refine ⟨[.create [] .null, .preventExtensions ⟨0, 1⟩], creations handleLimit, ⟨0, 1⟩, ?_⟩
    have hfree : (after [.create [] .null, .preventExtensions ⟨0, 1⟩]).free = [] := rfl
    have hsize : (after [.create [] .null, .preventExtensions ⟨0, 1⟩]).slots.size = 1 := rfl
    have hone : (after [.create [] .null, .preventExtensions ⟨0, 1⟩]).tally.allocations = 1 := rfl
    have hx : (after [.create [] .null, .preventExtensions ⟨0, 1⟩]).find? ⟨0, 1⟩ =
        some { bare with extensible := false } := rfl
    generalize after [.create [] .null, .preventExtensions ⟨0, 1⟩] = h at hfree hsize hone hx ⊢
    have hnew := creations_take_over hfree hsize hx
    refine ⟨destroy_not_mem_creations _ _, ?_, ?_, ?_, ?_⟩
    · rw [run_creations_allocations, hone, Nat.add_comm]
    · rw [isExtensible, hx, Option.any_some]
    · rw [nameCount, hnew]
      rfl
    · rw [isExtensible, hnew]
      rfl

end Heap

namespace Demonstration

def closed : Heap :=
  .after [.create [97] .null, .define ⟨0, 1⟩ (.name [107]) ⟨.int32 1, true, false, false⟩,
    .defineElement ⟨0, 1⟩ 3 (.plain .null), .preventExtensions ⟨0, 1⟩]

def meddling : List HeapOp :=
  [.create [98] ⟨0, 1⟩, .setPrototype ⟨0, 1⟩ ⟨1, 1⟩, .setNamed ⟨0, 1⟩ (.name [107]) (.int32 2) true,
    .define ⟨0, 1⟩ (.name [107]) ⟨.int32 3, false, false, false⟩,
    .define ⟨0, 1⟩ (.name [107]) ⟨.int32 4, true, true, true⟩,
    .defineElement ⟨0, 1⟩ 40 (.plain .null), .destroy ⟨1, 1⟩,
    .createArray [99] ⟨0, 1⟩, .sealObject ⟨0, 1⟩]

end Demonstration

open Demonstration in
theorem Heap.closed_under_meddling :
    closed.Reached ∧ closed.isLive ⟨0, 1⟩ = true ∧ .destroy ⟨0, 1⟩ ∉ meddling ∧
      closed.Numbered (closed.run meddling) ∧
      (closed.run meddling).isExtensible ⟨0, 1⟩ = false ∧
      (∀ k, (closed.run meddling).hasOwn ⟨0, 1⟩ k = closed.hasOwn ⟨0, 1⟩ k) ∧
      ∃ q, (closed.run meddling).describeOwn ⟨0, 1⟩ (.name [107]) = (.ok, q) ∧
        q.configurable = false ∧ q.enumerable = false := by
  have hr : closed.Reached := ⟨_, rfl⟩
  have hmore : .destroy ⟨0, 1⟩ ∉ meddling := by simp [meddling]
  have hslots : closed.Numbered (closed.run meddling) :=
    (hr.run meddling).vacant.numbered (by decide +kernel)
  have hext : closed.isExtensible ⟨0, 1⟩ = false := by decide +kernel
  have hown : closed.describeOwn ⟨0, 1⟩ (.name [107]) = (.ok, ⟨.int32 1, true, false, false⟩) := by
    decide +kernel
  have hlive : closed.isLive ⟨0, 1⟩ = true := by decide +kernel
  obtain ⟨-, hclosed, hkept, -⟩ := hr.integrity_permanent hlive hmore hslots
  obtain ⟨hext', -, hkeys⟩ := hclosed hext
  obtain ⟨q, hq, hc, he, -⟩ := hkept (fun h => absurd (h.symm.trans hext) (by decide)) _ _ hown rfl
  exact ⟨hr, hlive, hmore, hslots, hext', hkeys, q, hq, hc, he⟩

namespace Heap

variable {h : Heap} {x : Handle} {k : PropertyKey} {q : Property} {more : List HeapOp}

/-- The values of a frozen object stay the same up to rounding while every new slot has a
number. So a value other than an integer of `2 ^ 53` or more in magnitude stays the same
value. -/
theorem Reached.frozen_values_stay (hr : h.Reached) (hf : (h.freezeObject x).1 = .ok)
    (hmore : .destroy x ∉ more)
    (hslots : (h.freezeObject x).2.Numbered ((h.freezeObject x).2.run more))
    (hq : (h.freezeObject x).2.describeOwn x k = (.ok, q)) :
    ∃ q', ((h.freezeObject x).2.run more).describeOwn x k = (.ok, q') ∧
      q'.value.rounded = q.value.rounded ∧
      ((∀ n, q.value.toInt? = some n → n.natAbs < 2 ^ 53) →
        q.value.sameValue q'.value = true) := by
  obtain ⟨hr', o, ho, hfrozen⟩ := hr.frozen_object hf
  obtain ⟨o', ho', hformed, hl⟩ := hr'.life ho hmore hslots
  have hext := (hformed.sealed (hformed.frozen hfrozen).1).1
  obtain ⟨r, hor, hown⟩ := describeOwn_ok_iff.1 hq
  cases ho.symm.trans hor
  obtain ⟨hc, hw⟩ := (hformed.frozen hfrozen).2.own hown
  have hkeeps := hl.keeps hformed fun h => absurd (h.symm.trans hext) (by decide)
  obtain ⟨q', hq', hk⟩ := hkeeps.present _ q hown
  obtain ⟨-, -, hvalue⟩ := hk hc
  have hround := (hvalue hw).2
  exact ⟨q', describeOwn_ok_iff.2 ⟨o', ho', hq'⟩, hround,
    fun hsmall => Value.sameValue_of_rounded_eq hround.symm hsmall⟩

end Heap

namespace Demonstration

def large : Heap :=
  .after [.create [97] .null, .define ⟨0, 1⟩ (.name [107]) (.plain (.int64 9007199254740992))]

def largeDouble : Binary64 := .ofNat 0x4340000000000000

def replacing : List HeapOp :=
  [.define ⟨0, 1⟩ (.name [107]) ⟨.number largeDouble, false, true, false⟩,
    .define ⟨0, 1⟩ (.name [107]) ⟨.int64 9007199254740993, false, true, false⟩]

end Demonstration

open Demonstration in
/-- Rounding is not passed on: a frozen integer can be replaced by the next one, in two
steps through the double that both round to. -/
theorem Heap.frozen_value_replaced :
    (large.freezeObject ⟨0, 1⟩).1 = .ok ∧
      (large.freezeObject ⟨0, 1⟩).2.describeOwn ⟨0, 1⟩ (.name [107]) =
        (.ok, ⟨.int64 9007199254740992, false, true, false⟩) ∧
      ((large.freezeObject ⟨0, 1⟩).2.run replacing).describeOwn ⟨0, 1⟩ (.name [107]) =
        (.ok, ⟨.int64 9007199254740993, false, true, false⟩) ∧
      (Value.int64 9007199254740992).sameValue (.int64 9007199254740993) = false := by
  decide +kernel

open Demonstration in
theorem Heap.frozen_value_rounds_alike :
    large.Reached ∧ .destroy ⟨0, 1⟩ ∉ replacing ∧
      (large.freezeObject ⟨0, 1⟩).2.Numbered ((large.freezeObject ⟨0, 1⟩).2.run replacing) ∧
      ∃ q, ((large.freezeObject ⟨0, 1⟩).2.run replacing).describeOwn ⟨0, 1⟩ (.name [107]) =
          (.ok, q) ∧
        q.value.rounded = .number largeDouble := by
  have hr : large.Reached := ⟨_, rfl⟩
  have hmore : .destroy ⟨0, 1⟩ ∉ replacing := by simp [replacing]
  have hown : (large.freezeObject ⟨0, 1⟩).2.describeOwn ⟨0, 1⟩ (.name [107]) =
      (.ok, ⟨.int64 9007199254740992, false, true, false⟩) := by decide +kernel
  have hslots : (large.freezeObject ⟨0, 1⟩).2.Numbered
      ((large.freezeObject ⟨0, 1⟩).2.run replacing) :=
    ((hr.run [.freezeObject ⟨0, 1⟩]).run replacing).vacant.numbered (by decide +kernel)
  obtain ⟨q, hq, hround, -⟩ := hr.frozen_values_stay (by decide +kernel) hmore hslots hown
  exact ⟨hr, hmore, hslots, q, hq, hround.trans (by decide +kernel)⟩

end InlineCache
