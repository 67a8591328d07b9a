import InlineCache.Proofs.Access.Lives
import InlineCache.Proofs.Proxy.Records
import InlineCache.Proofs.Site.Table

/-! Call sites beside the one that is accessed. An access is a pair of events at its own
site, and between the two what traps do; to every other site it is what traps do there. -/

namespace InlineCache

variable {τ β α : Type}

namespace SiteTable

variable {t t' : SiteTable} {P Q : SiteOp → Prop} {name other : Text}

def Evolves (P : SiteOp → Prop) (t t' : SiteTable) : Prop :=
  t.Ordered → ∃ ops, (∀ op ∈ ops, P op) ∧ t' = t.run ops

instance : IsPreorder SiteTable (Evolves P) where
  refl t _ := ⟨[], nofun, rfl⟩
  trans t t' t'' h h' ht := by
    obtain ⟨ops, hops, rfl⟩ := h ht
    obtain ⟨more, hmore, rfl⟩ := h' (ht.run ops)
    exact ⟨ops ++ more, List.forall_mem_append.2 ⟨hops, hmore⟩, (t.run_append ops more).symm⟩

/-- An access at a site: events there, and in between what traps do, of which `P` holds. -/
def Accessed (P : SiteOp → Prop) (name : Text) (t t' : SiteTable) : Prop :=
  ∃ arrival inner answer, (∀ op ∈ arrival ++ answer, ∃ e, op = .event name e) ∧
    (∀ op ∈ inner, P op) ∧ t' = t.run (arrival ++ inner ++ answer) ∧
    ∀ other ≠ name, t'.find? other = (t.run inner).find? other

theorem find?_run_events {ops : List SiteOp} (hops : ∀ op ∈ ops, ∃ e, op = .event name e)
    (hother : other ≠ name) (t : SiteTable) : (t.run ops).find? other = t.find? other := by
  refine t.find?_run_apart fun op hop => ?_
  obtain ⟨e, rfl⟩ := hops op hop
  exact fun hname => hother (Option.some.inj hname).symm

theorem config_run_events {ops : List SiteOp} (hops : ∀ op ∈ ops, ∃ e, op = .event name e)
    (t : SiteTable) : (t.run ops).config = t.config := by
  have hnone : ops.filterMap SiteOp.config? = [] := by
    refine List.filterMap_eq_nil_iff.2 fun op hop => ?_
    obtain ⟨e, rfl⟩ := hops op hop
    rfl
  rw [config_run, inForce, hnone]
  rfl

theorem accessed_of_run (arrival inner answer : List SiteOp)
    (hown : ∀ op ∈ arrival ++ answer, ∃ e, op = .event name e) (hinner : ∀ op ∈ inner, P op)
    (ht : t' = t.run (arrival ++ inner ++ answer)) : t.Accessed P name t' := by
  obtain ⟨harrival, hanswer⟩ := List.forall_mem_append.1 hown
  refine ⟨arrival, inner, answer, hown, hinner, ht, fun other hother => ?_⟩
  rw [ht, run_append, find?_run_events hanswer hother, run_append]
  exact find?_run_congr (config_run_events harrival t) (find?_run_events harrival hother t) inner

theorem Accessed.evolves (h : t.Accessed P name t') (hP : ∀ op, P op → Q op)
    (hname : ∀ e, Q (.event name e)) : t.Evolves Q t' := by
  obtain ⟨arrival, inner, answer, hown, hinner, ht, -⟩ := h
  refine fun _ => ⟨arrival ++ inner ++ answer, fun op hop => ?_, ht⟩
  have hmem : op ∈ arrival ++ answer ∨ op ∈ inner := by
    simp only [List.mem_append] at hop ⊢
    exact hop.elim (fun h => h.elim (.inl ∘ .inl) .inr) (.inl ∘ .inr)
  rcases hmem with hop | hop
  · obtain ⟨e, rfl⟩ := hown op hop
    exact hname e
  · exact hP op (hinner op hop)

theorem Accessed.find?_apart (h : t.Accessed P name t') (hother : other ≠ name)
    (hP : ∀ op, P op → op.name? ≠ some other) : t'.find? other = t.find? other := by
  obtain ⟨arrival, inner, answer, -, hinner, -, hfind⟩ := h
  exact (hfind other hother).trans (t.find?_run_apart fun op hop => hP op (hinner op hop))

end SiteTable

open Effect

namespace Site

variable {P : SiteOp → Prop} {run : Handler τ (Surroundings β)} {w : World τ (Surroundings β)}
  {name : Text} {s : Site} {target : Handle} {key : Value}

theorem learned_table (target : Handle) (hw : w.outer.table.Ordered)
    (hs : w.outer.table.find? name = some s) (hc : key.classify.needsCoercion = false) :
    (w.learned name s target key).outer.table =
      w.outer.table.run [.event name (.access (w.store.heap.probe target key))] :=
  hw.modify_congr hs (fun _ => (s.resolve (w.store.heap.probe target key)).2)
    (·.step (.access (w.store.heap.probe target key)))
    (step_access (p := w.store.heap.probe target key) hc).symm

theorem rejected_table (w : World τ (Surroundings β)) (name : Text) (target : Handle)
    (hc : key.classify.needsCoercion = true) :
    (w.withSite name reject).outer.table =
      w.outer.table.run [.event name (.access (w.store.heap.probe target key))] := by
  have hstep : reject = (·.step (.access (w.store.heap.probe target key))) :=
    funext fun _ => (step_refused (p := w.store.heap.probe target key) hc).symm
  rw [hstep]
  rfl

theorem Leaves.accessed {a : Site → Effect τ (Surroundings β) α} {status : α → Status}
    {w' : World τ (Surroundings β)} (h : Leaves a status name target key w w')
    (hw : w.outer.table.Ordered) (ha : ∀ s, Moves (SiteTable.Evolves P) (a s)) :
    w.outer.table.Accessed P name w'.outer.table := by
  cases h with
  | missing => exact SiteTable.accessed_of_run [] [] [] nofun nofun rfl
  | refused hs hc =>
    have htable := rejected_table w name target hc
    refine SiteTable.accessed_of_run [.event name (.access (w.store.heap.probe target key))] []
      [] ?_ nofun htable
    simp
  | @served s x v hs hc hv =>
    have harrival := learned_table target hw hs hc
    obtain ⟨inner, hinner, hrun⟩ := ha s _ _ hv (harrival ▸ hw.run _)
    refine SiteTable.accessed_of_run [.event name (.access (w.store.heap.probe target key))] inner
      [.event name (.answer (status x))] ?_ hinner ?_
    · simp
    · rw [SiteTable.run_append, SiteTable.run_append, ← harrival, ← hrun]
      rfl

theorem set_accessed (hrun : run.Moves (SiteTable.Evolves P)) (hw : w.outer.table.Ordered)
    {v : Value} {receiver : Handle} {r : Except Status Status × World τ (Surroundings β)}
    (hr : set run name target key v receiver w = some r) :
    w.outer.table.Accessed P name r.2.outer.table :=
  (set_leaves hr).accessed hw fun s => Dispatch.moves_set hrun s.flags target key v receiver

theorem get_accessed (hrun : run.Moves (SiteTable.Evolves P)) (hw : w.outer.table.Ordered)
    {receiver : Handle} {r : Except Status (Status × Value) × World τ (Surroundings β)}
    (hr : get run name target key receiver w = some r) :
    w.outer.table.Accessed P name r.2.outer.table :=
  (get_leaves hr).accessed hw fun _ => Dispatch.moves_get hrun target key receiver

end Site

/-- After any history, whether a name can be created and what is found under it is decided
by the operations on it alone, and an access at one site is, to the others, what its traps
do there. -/
theorem SiteTable.history_decides (config : Config) (ops : List SiteOp) :
    let t := after config ops
    t.Shows config ops ∧
      ∀ (w : World τ (Surroundings β)) (run : Handler τ (Surroundings β)) (P : SiteOp → Prop),
        w.outer.table = t → run.Moves (Evolves P) → ∀ name target key receiver t',
          (∃ v r, Site.set run name target key v receiver w = some r ∧ r.2.outer.table = t') ∨
            (∃ r, Site.get run name target key receiver w = some r ∧ r.2.outer.table = t') →
          t.Accessed P name t' ∧
            ∀ other ≠ name, (∀ op, P op → op.name? ≠ some other) →
              t'.find? other = t.find? other := by
  intro t
  refine ⟨after_shows config ops, fun w run P hw hrun name target key receiver t' ht' => ?_⟩
  have hordered : w.outer.table.Ordered := hw ▸ ordered_after config ops
  have haccessed : t.Accessed P name t' := by
    rw [← hw]
    rcases ht' with ⟨v, r, hr, rfl⟩ | ⟨r, hr, rfl⟩
    · exact Site.set_accessed hrun hordered hr
    · exact Site.get_accessed hrun hordered hr
  exact ⟨haccessed, fun other hother hP => haccessed.find?_apart hother hP⟩

namespace Demonstration

def recreation : List SiteOp :=
  [.create .write [98] {} .unknown, .create .write [97] {} .indexLike,
    .event [98] (.access ⟨.string [120], false⟩), .create .read [98] {} .unknown,
    .reconfigure { maxDepth := 3 }, .destroy [98],
    .create .read [98] { definitionOnly := true } .unknown, .create .read [99] {} .unknown]

def renamed : World Unit (Surroundings Unit) where
  store := .after [.heap (.create [111] .null), .createProxy ⟨0, 1⟩ (some ()) none none]
  outer := { table := .after {} recreation, other := () }

def prying : Handler Unit (Surroundings Unit) := fun _ => do
  let _ ← Site.get (fun _ _ => none) [99] ⟨0, 1⟩ (.string [120]) .null
  return { status := .ok }

def renamed.read : World Unit (Surroundings Unit) :=
  ((Site.get prying [98] ⟨1, 1⟩ (.string [120]) .null renamed).map (·.2)).getD renamed

end Demonstration

open Demonstration

theorem SiteTable.recreated_name_read :
    renamed.outer.table.Shows {} recreation ∧ renamed.outer.table.names = [[97], [98], [99]] ∧
      (∃ c, Created {} recreation [98] c ∧ c.direction = .read ∧ c.config = { maxDepth := 3 }) ∧
      Site.get prying [98] ⟨1, 1⟩ (.string [120]) .null renamed =
        some (.ok (.ok, .undefined), renamed.read) ∧
      renamed.outer.table.Accessed (fun op => ∃ e, op = .event [99] e) [98]
        renamed.read.outer.table ∧
      renamed.read.outer.table.find? [97] = renamed.outer.table.find? [97] ∧
      (renamed.read.outer.table.find? [99]).map (·.tally.accesses) = some 1 := by
  obtain ⟨hshows, haccess⟩ := @SiteTable.history_decides Unit Unit {} recreation
  have hstuck : Handler.Moves (Evolves fun _ => False)
      (fun _ _ => none : Handler Unit (Surroundings Unit)) := fun _ _ _ hr => nomatch hr
  have hget : Effect.Moves (Evolves fun op => ∃ e, op = .event [99] e)
      (Site.get (fun _ _ => none) [99] ⟨0, 1⟩ (.string [120]) .null :
        Effect Unit (Surroundings Unit) _) := fun w r hr hw =>
    (Site.get_accessed hstuck hw hr).evolves (fun _ => False.elim) (fun e => ⟨e, rfl⟩) hw
  have hprying : prying.Moves (Evolves fun op => ∃ e, op = .event [99] e) := fun call =>
    Effect.moves_iff.2 fun t => Effect.Agree.bind (Effect.moves_iff.1 hget t) fun _ => .pure _
  have hread : Site.get prying [98] ⟨1, 1⟩ (.string [120]) .null renamed =
      some (.ok (.ok, .undefined), renamed.read) := rfl
  obtain ⟨haccessed, hapart⟩ := haccess renamed prying _ rfl hprying [98] ⟨1, 1⟩ (.string [120])
    .null _ (.inr ⟨_, hread, rfl⟩)
  have hothers : ∀ op : SiteOp, (∃ e, op = .event [99] e) → op.name? ≠ some [97] := by
    rintro _ ⟨e, rfl⟩
    simp [SiteOp.name?]
  have hlast : (.destroy [98] : SiteOp) ∉ [.create .read [99] {} .unknown] := by decide
  exact ⟨hshows, by decide,
    ⟨⟨.read, { definitionOnly := true }, .unknown, { maxDepth := 3 }, []⟩,
      ⟨recreation.take 6, [_], rfl, not_live_destroy [98] (recreation.take 5), hlast, rfl, rfl⟩,
      rfl, rfl⟩,
    hread, haccessed, hapart [97] (by decide) hothers, by decide⟩

end InlineCache
