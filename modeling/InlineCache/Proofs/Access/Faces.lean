import InlineCache.Proofs.Lookup
import InlineCache.SiteTable

/-! What of a call site does not depend on its past. Two tables are alike when they
hold the same names, with sites of the same direction, label and flags; chains,
tallies, histories and configurations are left open. -/

namespace InlineCache

namespace Site

structure Face where
  direction : Direction
  label : Text
  flags : Flags
deriving DecidableEq

def face (s : Site) : Face := ⟨s.direction, s.label, s.flags⟩

theorem face_record (s : Site) (outcome : Rewrite) (candidate : Entry) (access : Nat) :
    (s.record outcome candidate access).face = s.face := by
  simp only [record]
  split <;> rfl

theorem face_learn (s : Site) (candidate : Entry) (access : Nat) :
    (s.learn candidate access).face = s.face :=
  face_record _ _ _ _

theorem face_adapt (probe : Probe) (access attempts : Nat) (s : Site) :
    (adapt probe access attempts s).2.face = s.face := by
  induction attempts generalizing s with
  | zero => rfl
  | succ attempts ih =>
    simp only [adapt]
    split
    · exact face_learn _ _ _
    · rw [ih, face_learn]

theorem face_resolve (s : Site) (probe : Probe) : (s.resolve probe).2.face = s.face := by
  simp only [resolve]
  split
  · rfl
  · exact face_adapt _ _ _ _

theorem face_reject (s : Site) : s.reject.face = s.face := rfl

theorem face_complete (s : Site) (status : Status) : (s.complete status).face = s.face := by
  simp only [complete]
  split <;> rfl

theorem face_new (direction : Direction) (label : Text) (flags : Flags) (hint hint' : Hint)
    (config config' : Config) :
    (new direction label flags hint config).face =
      (new direction label flags hint' config').face := by
  have h : ∀ hint config, (new direction label flags hint config).face =
      (new direction label flags .unknown {}).face := by
    intro hint config
    simp only [new]
    cases seed? hint with
    | none => rfl
    | some e =>
      simp only
      split
      · rfl
      · exact face_learn _ _ _
  rw [h hint, h hint']

end Site

namespace SiteTable

theorem find?_modify (t : SiteTable) (name : Text) (f : Site → Site) (name' : Text) :
    (t.modify name f).find? name' =
      if name' = name then (t.find? name').map f else t.find? name' := by
  simp only [find?, modify, lookup_map_at]

theorem names_modify (t : SiteTable) (name : Text) (f : Site → Site) :
    (t.modify name f).names = t.names := by
  simp only [names, modify, List.map_map]
  apply List.map_congr_left
  intro e _
  simp only [Function.comp_apply]
  split <;> rfl

structure Alike (t t' : SiteTable) : Prop where
  names : t.names = t'.names
  faces : ∀ name, (t.find? name).map Site.face = (t'.find? name).map Site.face

theorem Alike.refl (t : SiteTable) : t.Alike t := ⟨rfl, fun _ => rfl⟩

theorem Alike.symm {t t' : SiteTable} (h : t.Alike t') : t'.Alike t :=
  ⟨h.names.symm, fun name => (h.faces name).symm⟩

theorem Alike.trans {t t' t'' : SiteTable} (h : t.Alike t') (h' : t'.Alike t'') : t.Alike t'' :=
  ⟨h.names.trans h'.names, fun name => (h.faces name).trans (h'.faces name)⟩

theorem alike_modify {t : SiteTable} {name : Text} {f : Site → Site}
    (hf : ∀ s, t.find? name = some s → (f s).face = s.face) : (t.modify name f).Alike t := by
  refine ⟨names_modify t name f, fun name' => ?_⟩
  rw [find?_modify]
  split
  · next h =>
    subst h
    cases hs : t.find? name' with
    | none => rfl
    | some s => exact congrArg some (hf s hs)
  · rfl

theorem Alike.modify {t t' : SiteTable} (h : t.Alike t') (name : Text) {f f' : Site → Site}
    (hf : ∀ s, (f s).face = s.face) (hf' : ∀ s, (f' s).face = s.face) :
    (t.modify name f).Alike (t'.modify name f') :=
  (alike_modify fun s _ => hf s).trans (h.trans (alike_modify fun s _ => hf' s).symm)

theorem Alike.typed? {t t' : SiteTable} (h : t.Alike t') (direction : Direction) (name : Text) :
    (∃ s s', t.typed? direction name = .ok s ∧ t'.typed? direction name = .ok s' ∧
      t.find? name = some s ∧ t'.find? name = some s' ∧ s.face = s'.face) ∨
    ∃ status, t.typed? direction name = .error status ∧
      t'.typed? direction name = .error status := by
  have hface := h.faces name
  simp only [SiteTable.typed?]
  cases hs : t.find? name with
  | none =>
    cases hs' : t'.find? name with
    | none => exact .inr ⟨_, rfl, rfl⟩
    | some s' => simp [hs, hs'] at hface
  | some s =>
    cases hs' : t'.find? name with
    | none => simp [hs, hs'] at hface
    | some s' =>
      simp only [hs, hs', Option.map_some] at hface
      have hface := Option.some.inj hface
      have hd : s.direction = s'.direction := congrArg Site.Face.direction hface
      by_cases hdir : s.direction = direction
      · exact .inl ⟨s, s', by simp [hdir], by simp [← hd, hdir], rfl, rfl, hface⟩
      · exact .inr ⟨.invalidArgument, by simp [hdir], by simp [← hd, hdir]⟩

theorem find?_of_typed? {t : SiteTable} {direction : Direction} {name : Text} {s : Site}
    (h : t.typed? direction name = .ok s) : t.find? name = some s := by
  simp only [SiteTable.typed?] at h
  cases hs : t.find? name with
  | none => simp [hs] at h
  | some s' =>
    simp only [hs] at h
    split at h
    · cases h
      rfl
    · cases h

theorem names_insert {l l' : List (Text × Site)} (h : l.map (·.1) = l'.map (·.1)) (name : Text)
    (s s' : Site) : (insert name s l).map (·.1) = (insert name s' l').map (·.1) := by
  induction l generalizing l' with
  | nil =>
    cases l' with
    | nil => rfl
    | cons e' l' => cases h
  | cons e l ih =>
    cases l' with
    | nil => cases h
    | cons e' l' =>
      obtain ⟨he, hl⟩ := List.cons.inj h
      simp only [insert, ← he]
      split
      · simp [he, hl]
      · simp [he, ih hl]

theorem lookup_insert {name : Text} {l : List (Text × Site)} (h : l.lookup name = none) (s : Site)
    (name' : Text) :
    (insert name s l).lookup name' = if name' = name then some s else l.lookup name' := by
  induction l with
  | nil =>
    by_cases hn : name' = name <;> simp [insert, List.lookup_cons, hn, beq_false_of_ne]
  | cons e l ih =>
    obtain ⟨n, t⟩ := e
    have hne : name ≠ n := by
      intro he
      simp [he] at h
    have hl : l.lookup name = none := by
      rwa [List.lookup_cons, beq_false_of_ne hne] at h
    simp only [insert]
    by_cases hn : name' = name
    · subst hn
      split
      · simp
      · simp [List.lookup_cons, beq_false_of_ne hne, ih hl]
    · rw [if_neg hn] at ih ⊢
      split
      · rw [List.lookup_cons, beq_false_of_ne hn]
      · rw [List.lookup_cons, List.lookup_cons, ih hl]

theorem find?_create (t : SiteTable) (direction : Direction) (name : Text) (flags : Flags)
    (hint : Hint) (name' : Text) :
    (t.create direction name flags hint).2.find? name' =
      if name' = name ∧ t.find? name = none then some (.new direction name flags hint t.config)
      else t.find? name' := by
  simp only [create]
  cases hs : t.find? name with
  | some s => simp
  | none => simp only [find?, lookup_insert hs, and_true]

theorem Alike.create {t t' : SiteTable} (h : t.Alike t') (direction : Direction) (name : Text)
    (flags : Flags) (hint hint' : Hint) :
    (t.create direction name flags hint).1 = (t'.create direction name flags hint').1 ∧
      (t.create direction name flags hint).2.Alike (t'.create direction name flags hint').2 := by
  have hface := h.faces name
  simp only [SiteTable.create]
  cases hs : t.find? name with
  | some s =>
    cases hs' : t'.find? name with
    | some s' => exact ⟨rfl, h⟩
    | none => simp [hs, hs'] at hface
  | none =>
    cases hs' : t'.find? name with
    | some s' => simp [hs, hs'] at hface
    | none =>
      refine ⟨rfl, names_insert h.names name _ _, fun name' => ?_⟩
      simp only [find?, lookup_insert hs, lookup_insert hs']
      split
      · exact congrArg some (Site.face_new _ _ _ _ _ _ _)
      · exact h.faces name'

theorem find?_destroy (t : SiteTable) (name name' : Text) :
    (t.destroy name).2.find? name' = if name' = name then none else t.find? name' := by
  simp only [destroy]
  cases hs : t.find? name with
  | some s => simp only [find?, lookup_filter_ne]
  | none =>
    by_cases hn : name' = name
    · rw [if_pos hn, hn]
      exact hs
    · rw [if_neg hn]

theorem Alike.destroy {t t' : SiteTable} (h : t.Alike t') (name : Text) :
    (t.destroy name).1 = (t'.destroy name).1 ∧ (t.destroy name).2.Alike (t'.destroy name).2 := by
  have hface := h.faces name
  simp only [SiteTable.destroy]
  cases hs : t.find? name with
  | none =>
    cases hs' : t'.find? name with
    | none => exact ⟨rfl, h⟩
    | some s' => simp [hs, hs'] at hface
  | some s =>
    cases hs' : t'.find? name with
    | none => simp [hs, hs'] at hface
    | some s' =>
      refine ⟨rfl, ?_, fun name' => ?_⟩
      · have hnames : ∀ l : List (Text × Site),
            (l.filter fun e => decide (e.1 ≠ name)).map (·.1) =
              (l.map (·.1)).filter fun n => decide (n ≠ name) := by
          intro l
          rw [List.filter_map]
          rfl
        have hn : t.sites.map (·.1) = t'.sites.map (·.1) := h.names
        simp only [SiteTable.names, hnames, hn]
      · simp only [find?, lookup_filter_ne]
        split
        · rfl
        · exact h.faces name'

end SiteTable

end InlineCache
