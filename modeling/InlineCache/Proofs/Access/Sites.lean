import InlineCache.Proofs.Access.Agreement
import InlineCache.Proofs.Access.Faces

/-! Worlds that differ in what their call sites have learned. An access at a site
is dispatch in a world with another site table, followed by the bookkeeping of the
site; so traps that keep worlds alike give accesses that do. -/

namespace InlineCache

variable {τ ω β α : Type}

structure Surroundings.Alike (o o' : Surroundings β) : Prop where
  table : o.table.Alike o'.table
  other : o.other = o'.other

namespace World

structure Alike (w w' : World τ (Surroundings β)) : Prop where
  store : w.store = w'.store
  calls : w.calls = w'.calls
  outer : w.outer.Alike w'.outer

theorem alike_visible : Effect.Visible (Alike (τ := τ) (β := β)) where
  store h := h.store
  calls h := h.calls
  putStore h _ := ⟨rfl, h.calls, h.outer⟩
  putCalls h _ := ⟨h.store, rfl, h.outer⟩

def withSite (w : World τ (Surroundings β)) (name : Text) (f : Site → Site) :
    World τ (Surroundings β) :=
  { w with outer := { w.outer with table := w.outer.table.modify name f } }

theorem alike_withSite {w : World τ (Surroundings β)} {name : Text} {f : Site → Site}
    (hf : ∀ s, w.outer.table.find? name = some s → (f s).face = s.face) :
    (w.withSite name f).Alike w :=
  ⟨rfl, rfl, SiteTable.alike_modify hf, rfl⟩

theorem Alike.withSite {w w' : World τ (Surroundings β)} (h : w.Alike w') (name : Text)
    {f f' : Site → Site} (hf : ∀ s, (f s).face = s.face) (hf' : ∀ s, (f' s).face = s.face) :
    (w.withSite name f).Alike (w'.withSite name f') :=
  ⟨h.store, h.calls, h.outer.table.modify name hf hf', h.outer.other⟩

theorem Alike.symm {w w' : World τ (Surroundings β)} (h : w.Alike w') : w'.Alike w :=
  ⟨h.store.symm, h.calls.symm, h.outer.table.symm, h.outer.other.symm⟩

theorem Alike.trans {w w' w'' : World τ (Surroundings β)} (h : w.Alike w') (h' : w'.Alike w'') :
    w.Alike w'' :=
  ⟨h.store.trans h'.store, h.calls.trans h'.calls, h.outer.table.trans h'.outer.table,
    h.outer.other.trans h'.outer.other⟩

def learned (w : World τ (Surroundings β)) (name : Text) (s : Site) (target : Handle)
    (key : Value) : World τ (Surroundings β) :=
  w.withSite name fun _ => (s.resolve (w.store.heap.probe target key)).2

theorem alike_learned {w : World τ (Surroundings β)} {name : Text} {s : Site}
    (hs : w.outer.table.find? name = some s) (target : Handle) (key : Value) :
    (w.learned name s target key).Alike w := by
  apply alike_withSite
  intro s' hs'
  rw [hs] at hs'
  rw [← Option.some.inj hs']
  exact Site.face_resolve _ _

end World

open Effect

theorem agree_onOuter {f : Surroundings β → α × Surroundings β}
    (hf : ∀ o o', Surroundings.Alike o o' → (f o).1 = (f o').1 ∧ (f o).2.Alike (f o').2) :
    Agree (World.Alike (τ := τ)) World.Alike (onOuter f) (onOuter f) := by
  intro w w' hw
  rw [onOuter_apply, onOuter_apply]
  obtain ⟨hx, ho⟩ := hf _ _ hw.outer
  exact .some ⟨hx, hw.store, hw.calls, ho⟩

namespace Site

variable {run : Handler τ (Surroundings β)} {w : World τ (Surroundings β)} {name : Text}
  {s : Site} {target : Handle} {key : Value}

theorem modify_apply (name : Text) (f : Site → Site) (w : World τ (Surroundings β)) :
    modify name f w = some ((), w.withSite name f) := rfl

theorem set_missing {status : Status} (hs : w.outer.table.typed? .write name = .error status)
    (v : Value) (receiver : Handle) :
    set run name target key v receiver w = some (.error status, w) := by
  simp [set, hs]

theorem set_coercion (hs : w.outer.table.typed? .write name = .ok s)
    (hc : key.classify.needsCoercion = true) (v : Value) (receiver : Handle) :
    set run name target key v receiver w = some (.ok .invalidKey, w.withSite name reject) := by
  simp [set, hs, hc, modify_apply]

theorem set_apply (hs : w.outer.table.typed? .write name = .ok s)
    (hc : key.classify.needsCoercion = false) (v : Value) (receiver : Handle) :
    set run name target key v receiver w =
      (Dispatch.set run s.flags target key v receiver (w.learned name s target key)).map
        fun r => (.ok r.1, r.2.withSite name (·.complete r.1)) := by
  have hg := guard_resolve s (w.store.heap.probe target key)
  have he := Entry.set_eq_dispatch run s.flags v (receiver.orElse target)
    (w := w.learned name s target key) hg
  rw [Dispatch.set_orElse] at he
  rw [← he, Option.map_eq_bind]
  simp only [set, hs, hc, choose, modify_apply, World.learned, Bool.false_eq_true, if_false,
    bind_pure_comp, bind_assoc, bind_map_left, bind_apply, map_apply, onOuter_apply,
    readStore_apply, Option.bind_some, Option.map_some]
  rfl

theorem get_missing {status : Status} (hs : w.outer.table.typed? .read name = .error status)
    (receiver : Handle) :
    get run name target key receiver w = some (.error status, w) := by
  simp [get, hs]

theorem get_coercion (hs : w.outer.table.typed? .read name = .ok s)
    (hc : key.classify.needsCoercion = true) (receiver : Handle) :
    get run name target key receiver w =
      some (.ok (.invalidKey, .undefined), w.withSite name reject) := by
  simp [get, hs, hc, modify_apply]

theorem get_apply (hs : w.outer.table.typed? .read name = .ok s)
    (hc : key.classify.needsCoercion = false) (receiver : Handle) :
    get run name target key receiver w =
      (Dispatch.get run target key receiver (w.learned name s target key)).map
        fun r => (.ok r.1, r.2.withSite name (·.complete r.1.1)) := by
  have hg := guard_resolve s (w.store.heap.probe target key)
  have he := Entry.get_eq_dispatch run (receiver.orElse target)
    (w := w.learned name s target key) hg
  rw [Dispatch.get_orElse] at he
  rw [← he, Option.map_eq_bind]
  simp only [get, hs, hc, choose, modify_apply, World.learned, Bool.false_eq_true, if_false,
    bind_pure_comp, bind_assoc, bind_map_left, bind_apply, map_apply, onOuter_apply,
    readStore_apply, Option.bind_some, Option.map_some]
  rfl

/-- The worlds that an access at a site can leave, where `a` dispatches it for the site: there
is no such site, or the key is refused, or the site learns and counts the status. -/
inductive Leaves (a : Site → Effect τ (Surroundings β) α) (status : α → Status) (name : Text)
    (target : Handle) (key : Value) (w : World τ (Surroundings β)) :
    World τ (Surroundings β) → Prop
  | missing : Leaves a status name target key w w
  | refused {s : Site} (hs : w.outer.table.find? name = some s)
      (hc : key.classify.needsCoercion = true) :
      Leaves a status name target key w (w.withSite name reject)
  | served {s : Site} {x : α} {v : World τ (Surroundings β)}
      (hs : w.outer.table.find? name = some s) (hc : key.classify.needsCoercion = false)
      (hv : a s (w.learned name s target key) = some (x, v)) :
      Leaves a status name target key w (v.withSite name (·.complete (status x)))

theorem set_leaves {v : Value} {receiver : Handle}
    {r : Except Status Status × World τ (Surroundings β)}
    (hr : set run name target key v receiver w = some r) :
    Leaves (fun s => Dispatch.set run s.flags target key v receiver) id name target key w r.2 := by
  cases hs : w.outer.table.typed? .write name with
  | error status =>
    rw [set_missing hs] at hr
    cases hr
    exact .missing
  | ok s =>
    have hfind := SiteTable.find?_of_typed? hs
    cases hc : key.classify.needsCoercion with
    | true =>
      rw [set_coercion hs hc] at hr
      cases hr
      exact .refused hfind hc
    | false =>
      rw [set_apply hs hc] at hr
      obtain ⟨⟨status, v⟩, hv, rfl⟩ := Option.map_eq_some_iff.1 hr
      exact .served hfind hc hv

theorem get_leaves {receiver : Handle}
    {r : Except Status (Status × Value) × World τ (Surroundings β)}
    (hr : get run name target key receiver w = some r) :
    Leaves (fun _ => Dispatch.get run target key receiver) Prod.fst name target key w r.2 := by
  cases hs : w.outer.table.typed? .read name with
  | error status =>
    rw [get_missing hs] at hr
    cases hr
    exact .missing
  | ok s =>
    have hfind := SiteTable.find?_of_typed? hs
    cases hc : key.classify.needsCoercion with
    | true =>
      rw [get_coercion hs hc] at hr
      cases hr
      exact .refused hfind hc
    | false =>
      rw [get_apply hs hc] at hr
      obtain ⟨⟨answer, v⟩, hv, rfl⟩ := Option.map_eq_some_iff.1 hr
      exact .served hfind hc hv

theorem alike_learned {w' : World τ (Surroundings β)} {s' : Site} (hw : w.Alike w')
    (hf : w.outer.table.find? name = some s) (hf' : w'.outer.table.find? name = some s')
    (target : Handle) (key : Value) :
    (w.learned name s target key).Alike (w'.learned name s' target key) :=
  (World.alike_learned hf target key).trans (hw.trans (World.alike_learned hf' target key).symm)

theorem alike_completed {r r' : Option (α × World τ (Surroundings β))}
    (hr : Option.Rel (fun r r' => r.1 = r'.1 ∧ r.2.Alike r'.2) r r') (name : Text)
    (status : α → Status) :
    Option.Rel (fun r r' => r.1 = r'.1 ∧ World.Alike r.2 r'.2)
      (r.map fun r =>
        ((Except.ok r.1 : Except Status α), r.2.withSite name (·.complete (status r.1))))
      (r'.map fun r => (.ok r.1, r.2.withSite name (·.complete (status r.1)))) := by
  cases hr with
  | none => exact .none
  | some hr =>
    refine .some ⟨congrArg Except.ok hr.1, hr.2.withSite name ?_ ?_⟩
    · exact fun s => face_complete s _
    · exact fun s => face_complete s _

theorem agree_set (h : run.Steady World.Alike World.Alike) (name : Text) (target : Handle)
    (key v : Value) (receiver : Handle) :
    Agree World.Alike World.Alike (set run name target key v receiver)
      (set run name target key v receiver) := by
  intro w w' hw
  rcases hw.outer.table.typed? .write name with
    ⟨s, s', hs, hs', hf, hf', hface⟩ | ⟨status, hs, hs'⟩
  · have hflags : s.flags = s'.flags := congrArg Face.flags hface
    by_cases hc : key.classify.needsCoercion = true
    · rw [set_coercion hs hc, set_coercion hs' hc]
      exact .some ⟨rfl, hw.withSite name face_reject face_reject⟩
    · have hc' := eq_false_of_ne_true hc
      rw [set_apply hs hc', set_apply hs' hc', hflags]
      have hl := alike_learned hw hf hf' target key
      exact alike_completed (Dispatch.agree_set h _ _ _ _ _ _ _ hl) name id
  · rw [set_missing hs, set_missing hs']
    exact .some ⟨rfl, hw⟩

theorem agree_get (h : run.Steady World.Alike World.Alike) (name : Text) (target : Handle)
    (key : Value) (receiver : Handle) :
    Agree World.Alike World.Alike (get run name target key receiver)
      (get run name target key receiver) := by
  intro w w' hw
  rcases hw.outer.table.typed? .read name with
    ⟨s, s', hs, hs', hf, hf', -⟩ | ⟨status, hs, hs'⟩
  · by_cases hc : key.classify.needsCoercion = true
    · rw [get_coercion hs hc, get_coercion hs' hc]
      exact .some ⟨rfl, hw.withSite name face_reject face_reject⟩
    · have hc' := eq_false_of_ne_true hc
      rw [get_apply hs hc', get_apply hs' hc']
      have hl := alike_learned hw hf hf' target key
      exact alike_completed (Dispatch.agree_get h _ _ _ _ _ hl) name Prod.fst
  · rw [get_missing hs, get_missing hs']
    exact .some ⟨rfl, hw⟩

end Site

end InlineCache
