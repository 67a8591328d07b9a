import InlineCache.Proofs.Access.Faces
import InlineCache.Proofs.Site.Life
import Mathlib.Data.List.Induction

/-! The table of call sites over its whole history.
Sites of both directions share one space of names. A name is live from a creation until
it is destroyed; a creation under a live name is refused. Of all that happens, a site sees
the configuration in force when it was created and the events at its name since then. -/

namespace InlineCache

/-- What a table goes through: the operations on it, and events at its sites. -/
inductive SiteOp where
  | create (direction : Direction) (name : Text) (flags : Flags) (hint : Hint)
  | destroy (name : Text)
  | reconfigure (config : Config)
  | event (name : Text) (e : Site.Event)
deriving DecidableEq

namespace SiteOp

def name? : SiteOp → Option Text
  | .create _ name _ _ | .destroy name | .event name _ => some name
  | .reconfigure _ => none

def isEvent : SiteOp → Bool
  | .event .. => true
  | _ => false

def config? : SiteOp → Option Config
  | .reconfigure config => some config
  | _ => none

def eventAt? (name : Text) : SiteOp → Option Site.Event
  | .event name' e => if name' = name then some e else none
  | _ => none

end SiteOp

namespace Site

theorem face_step (s : Site) (e : Event) : (s.step e).face = s.face := by
  cases e with
  | access p =>
    simp only [step]
    split
    · exact s.face_reject
    · exact s.face_resolve p
  | answer status => exact s.face_complete status

theorem face_run (s : Site) (events : List Event) : (s.run events).face = s.face := by
  induction events generalizing s with
  | nil => rfl
  | cons e events ih => exact (ih (s.step e)).trans (s.face_step e)

theorem face_new_eq (direction : Direction) (label : Text) (flags : Flags) (hint : Hint)
    (config : Config) :
    (new direction label flags hint config).face = (blank direction label flags config).face :=
  face_new direction label flags hint .unknown config config

end Site

namespace SiteTable

variable {t t' : SiteTable} {name : Text} {s : Site} {config : Config} {ops more : List SiteOp}
  {op : SiteOp}

def perform (t : SiteTable) : SiteOp → SiteTable
  | .create direction name flags hint => (t.create direction name flags hint).2
  | .destroy name => (t.destroy name).2
  | .reconfigure config => t.reconfigure config
  | .event name e => t.modify name (·.step e)

def run (t : SiteTable) (ops : List SiteOp) : SiteTable := ops.foldl perform t

def after (config : Config) (ops : List SiteOp) : SiteTable := run { config } ops

def inForce (config : Config) (ops : List SiteOp) : Config :=
  (ops.filterMap SiteOp.config?).getLastD config

def eventsAt (name : Text) (ops : List SiteOp) : List Site.Event :=
  ops.filterMap (SiteOp.eventAt? name)

def Live (name : Text) (ops : List SiteOp) : Prop :=
  ∃ before direction flags hint after,
    ops = before ++ .create direction name flags hint :: after ∧ .destroy name ∉ after

structure Creation where
  direction : Direction
  flags : Flags
  hint : Hint
  config : Config
  events : List Site.Event

def Creation.site (c : Creation) (name : Text) : Site :=
  (Site.new c.direction name c.flags c.hint c.config).run c.events

/-- The creation that a live name is due to: the first since the name was last destroyed. -/
def Created (config : Config) (ops : List SiteOp) (name : Text) (c : Creation) : Prop :=
  ∃ before after, ops = before ++ .create c.direction name c.flags c.hint :: after ∧
    ¬ Live name before ∧ .destroy name ∉ after ∧
    c.config = inForce config before ∧ c.events = eventsAt name after

theorem run_append (t : SiteTable) (ops more : List SiteOp) :
    t.run (ops ++ more) = (t.run ops).run more :=
  List.foldl_append ..

theorem config_perform (t : SiteTable) (op : SiteOp) :
    (t.perform op).config = op.config?.getD t.config := by
  cases op with
  | create direction name flags hint =>
    simp only [perform, create]
    split <;> rfl
  | destroy name =>
    simp only [perform, destroy]
    split <;> rfl
  | reconfigure | event => rfl

theorem config_run (t : SiteTable) (ops : List SiteOp) :
    (t.run ops).config = inForce t.config ops := by
  induction ops generalizing t with
  | nil => rfl
  | cons op ops ih =>
    have hrun : t.run (op :: ops) = (t.perform op).run ops := rfl
    rw [hrun, ih, config_perform, inForce, inForce, List.filterMap_cons]
    cases op.config? with
    | none => rfl
    | some config => exact List.getLastD_cons.symm

theorem find?_perform (t : SiteTable) (op : SiteOp) (name : Text) :
    (t.perform op).find? name = match op with
      | .create direction name' flags hint =>
        if name = name' ∧ t.find? name = none then
          some (.new direction name flags hint t.config)
        else t.find? name
      | .destroy name' => if name = name' then none else t.find? name
      | .reconfigure _ => t.find? name
      | .event name' e => if name = name' then (t.find? name).map (·.step e) else t.find? name := by
  cases op with
  | create direction name' flags hint =>
    simp only [perform, find?_create]
    by_cases hn : name = name'
    · subst hn
      rfl
    · simp only [hn, false_and, if_false]
  | destroy name' => exact t.find?_destroy name' name
  | reconfigure config => rfl
  | event name' e => exact t.find?_modify name' _ name

theorem find?_run (hs : t.find? name = some s) (hops : .destroy name ∉ ops) :
    (t.run ops).find? name = some (s.run (eventsAt name ops)) := by
  induction ops generalizing t s with
  | nil => exact hs
  | cons op ops ih =>
    obtain ⟨hop, hrest⟩ := not_or.1 (mt List.mem_cons.2 hops)
    have hrun : t.run (op :: ops) = (t.perform op).run ops := rfl
    have hperform := t.find?_perform op name
    rw [hrun, eventsAt, List.filterMap_cons]
    cases op with
    | create direction name' flags hint =>
      simp only [hs, reduceCtorEq, and_false, if_false] at hperform
      exact ih hperform hrest
    | destroy name' =>
      have hn : name ≠ name' := fun hn => hop (congrArg SiteOp.destroy hn)
      simp only [if_neg hn, hs] at hperform
      exact ih hperform hrest
    | reconfigure config => exact ih (hperform.trans hs) hrest
    | event name' e =>
      by_cases hn : name = name'
      · subst hn
        simp only [if_true, hs, Option.map_some] at hperform
        simp only [SiteOp.eventAt?, if_true]
        exact ih hperform hrest
      · simp only [if_neg hn, hs] at hperform
        simp only [SiteOp.eventAt?, if_neg (Ne.symm hn)]
        exact ih hperform hrest

theorem find?_run_congr (hconfig : t.config = t'.config) (hs : t.find? name = t'.find? name)
    (ops : List SiteOp) : (t.run ops).find? name = (t'.run ops).find? name := by
  induction ops generalizing t t' with
  | nil => exact hs
  | cons op ops ih =>
    refine ih ?_ ?_
    · rw [config_perform, config_perform, hconfig]
    · rw [find?_perform, find?_perform, hs, hconfig]

theorem find?_run_apart (t : SiteTable) (hops : ∀ op ∈ ops, op.name? ≠ some name) :
    (t.run ops).find? name = t.find? name := by
  induction ops generalizing t with
  | nil => rfl
  | cons op ops ih =>
    obtain ⟨hop, hops⟩ := List.forall_mem_cons.1 hops
    have hperform := t.find?_perform op name
    refine (ih (t.perform op) hops).trans (hperform.trans ?_)
    cases op with
    | reconfigure config => rfl
    | create _ name' | destroy name' | event name' =>
      have hn : name ≠ name' := fun hn => hop (congrArg some hn.symm)
      simp only [hn, false_and, if_false]

theorem Live.append (h : Live name ops) (hmore : .destroy name ∉ more) :
    Live name (ops ++ more) := by
  obtain ⟨before, direction, flags, hint, after, rfl, hafter⟩ := h
  refine ⟨before, direction, flags, hint, after ++ more, by simp, ?_⟩
  exact fun hmem => (List.mem_append.1 hmem).elim hafter hmore

theorem not_live_destroy (name : Text) (ops : List SiteOp) :
    ¬ Live name (ops ++ [.destroy name]) := by
  rintro ⟨before, direction, flags, hint, after, heq, hafter⟩
  have hlast : (SiteOp.create direction name flags hint :: after).getLast? =
      some (.destroy name) := by
    rw [← List.getLast?_append_cons before, ← heq, List.getLast?_concat]
  rcases List.mem_cons.1 (List.mem_of_getLast? hlast) with hcreate | hmem
  · cases hcreate
  · exact hafter hmem

theorem live_of_append (h : Live name (ops ++ [op])) :
    Live name ops ∨ ∃ direction flags hint, op = .create direction name flags hint := by
  obtain ⟨before, direction, flags, hint, after, heq, hafter⟩ := h
  rcases List.eq_nil_or_concat after with rfl | ⟨after, last, rfl⟩
  · obtain ⟨-, hop⟩ := List.append_inj' heq rfl
    exact .inr ⟨direction, flags, hint, List.head_eq_of_cons_eq hop⟩
  · rw [List.concat_eq_append, ← List.cons_append, ← List.append_assoc] at heq
    obtain ⟨hops, -⟩ := List.append_inj' heq rfl
    exact .inl ⟨before, direction, flags, hint, after, hops,
      fun hmem => hafter (by simp [hmem])⟩

theorem Created.append {c : Creation} (h : Created config ops name c)
    (hmore : .destroy name ∉ more) :
    Created config (ops ++ more) name { c with events := c.events ++ eventsAt name more } := by
  obtain ⟨before, after, rfl, hbefore, hafter, hconfig, hevents⟩ := h
  refine ⟨before, after ++ more, by simp, hbefore, ?_, hconfig, ?_⟩
  · exact fun hmem => (List.mem_append.1 hmem).elim hafter hmore
  · simp only [hevents, eventsAt, List.filterMap_append]

theorem Live.created (config : Config) (h : Live name ops) :
    ∃ c, Created config ops name c := by
  induction ops using List.reverseRecOn with
  | nil =>
    obtain ⟨before, _, _, _, after, heq, -⟩ := h
    cases (List.append_eq_nil_iff.1 heq.symm).2
  | append_singleton ops op ih =>
    -- a creation under a live name is refused, so the older one stands
    by_cases hlive : Live name ops
    · obtain ⟨c, hc⟩ := ih hlive
      have hop : .destroy name ∉ [op] := by
        intro hmem
        rw [← List.mem_singleton.1 hmem] at h
        exact not_live_destroy name ops h
      exact ⟨_, hc.append hop⟩
    · obtain ⟨direction, flags, hint, rfl⟩ := (live_of_append h).resolve_left hlive
      exact ⟨⟨direction, flags, hint, inForce config ops, []⟩, ops, [], rfl, hlive, nofun, rfl,
        rfl⟩

theorem find?_of_not_live (config : Config) (h : ¬ Live name ops) :
    (after config ops).find? name = none := by
  induction ops using List.reverseRecOn with
  | nil => rfl
  | append_singleton ops op ih =>
    have hrun : after config (ops ++ [op]) = (after config ops).perform op := run_append _ ops [op]
    have hperform := (after config ops).find?_perform op name
    by_cases hop : op = .destroy name
    · subst hop
      simp only [if_true] at hperform
      rw [hrun, hperform]
    · -- nothing but a creation brings a name to life
      have hnone := ih fun hlive => h (hlive.append (by simpa using Ne.symm hop))
      rw [hrun, hperform]
      cases op with
      | create direction name' flags hint =>
        have hn : name ≠ name' := by
          rintro rfl
          exact h ⟨ops, direction, flags, hint, [], rfl, nofun⟩
        simp only [hn, false_and, if_false, hnone]
      | destroy name' => simp only [hnone, ite_self]
      | reconfigure config => exact hnone
      | event name' e => simp only [hnone, Option.map_none, ite_self]

theorem Created.find? {c : Creation} (h : Created config ops name c) :
    (after config ops).find? name = some (c.site name) := by
  obtain ⟨before, after', rfl, hbefore, hafter, hconfig, hevents⟩ := h
  have hcreate := (after config before).find?_perform
    (.create c.direction name c.flags c.hint) name
  simp only [find?_of_not_live config hbefore, and_self, if_true] at hcreate
  have hrun : after config (before ++ .create c.direction name c.flags c.hint :: after') =
      ((after config before).perform (.create c.direction name c.flags c.hint)).run after' :=
    run_append _ before _
  rw [hrun, find?_run hcreate hafter, Creation.site, hevents, hconfig]
  congr 3
  exact config_run { config } before

/-- The sites of a table are those of the live names, each as its creation and the events
at it have made it. -/
theorem find?_after : (after config ops).find? name = some s ↔
    ∃ c, Created config ops name c ∧ c.site name = s := by
  constructor
  · intro hs
    by_cases hlive : Live name ops
    · obtain ⟨c, hc⟩ := hlive.created config
      exact ⟨c, hc, Option.some.inj (hc.find?.symm.trans hs)⟩
    · rw [find?_of_not_live config hlive] at hs
      cases hs
  · rintro ⟨c, hc, rfl⟩
    exact hc.find?

theorem find?_eq_none_iff : (after config ops).find? name = none ↔ ¬ Live name ops := by
  refine ⟨fun hnone hlive => ?_, find?_of_not_live config⟩
  obtain ⟨c, hc⟩ := hlive.created config
  rw [hc.find?] at hnone
  cases hnone

namespace Creation

variable (c : Creation) (name : Text)

theorem site_face : (c.site name).face = (Site.blank c.direction name c.flags c.config).face :=
  (Site.face_run _ _).trans (Site.face_new_eq ..)

theorem site_direction : (c.site name).direction = c.direction :=
  congrArg Site.Face.direction (c.site_face name)

theorem site_label : (c.site name).label = name :=
  congrArg Site.Face.label (c.site_face name)

theorem site_flags : (c.site name).flags =
    if c.direction = .read then { c.flags with definitionOnly := false } else c.flags := by
  have hflags : (c.site name).flags = (Site.blank c.direction name c.flags c.config).flags :=
    congrArg Site.Face.flags (c.site_face name)
  rw [hflags]
  cases c.direction <;> rfl

theorem site_config : (c.site name).config = c.config := by
  rw [site, (Site.new_sound ..).run_config, Site.new_config]

theorem site_maxDepth : (c.site name).chain.maxDepth = c.config.maxDepth.toNat :=
  Site.maxDepth_run_new ..

end Creation

theorem exists_site_iff (p : Direction → Prop) :
    (∃ s, (after config ops).find? name = some s ∧ p s.direction) ↔
      ∃ c, Created config ops name c ∧ p c.direction := by
  constructor
  · rintro ⟨s, hs, hp⟩
    obtain ⟨c, hc, rfl⟩ := find?_after.1 hs
    exact ⟨c, hc, c.site_direction name ▸ hp⟩
  · rintro ⟨c, hc, hp⟩
    exact ⟨c.site name, hc.find?, (c.site_direction name).symm ▸ hp⟩

section Searches

variable {direction : Direction}

theorem typed?_eq_ok_iff :
    t.typed? direction name = .ok s ↔ t.find? name = some s ∧ s.direction = direction := by
  simp only [typed?]
  cases t.find? name with
  | none => simp
  | some s' =>
    by_cases hd : s'.direction = direction
    · simp only [hd, if_true, Except.ok.injEq, Option.some.injEq]
      exact ⟨fun h => ⟨h, h ▸ hd⟩, And.left⟩
    · simp only [hd, if_false, reduceCtorEq, Option.some.injEq, false_iff]
      exact fun h => hd (h.1 ▸ h.2)

theorem typed?_eq_invalidArgument_iff : t.typed? direction name = .error .invalidArgument ↔
    ∃ s, t.find? name = some s ∧ s.direction ≠ direction := by
  simp only [typed?]
  cases t.find? name with
  | none => simp
  | some s =>
    by_cases hd : s.direction = direction <;> simp [hd]

theorem typed?_eq_notFound_iff :
    t.typed? direction name = .error .notFound ↔ t.find? name = none := by
  simp only [typed?]
  cases t.find? name with
  | none => simp
  | some s =>
    by_cases hd : s.direction = direction <;> simp [hd]

end Searches

def Ordered (t : SiteTable) : Prop := t.names.Pairwise (· < ·)

theorem mem_names : name ∈ t.names ↔ ∃ s, t.find? name = some s := mem_keys_iff

theorem mem_insert {name' : Text} {l : List (Text × Site)} :
    name' ∈ (insert name s l).map (·.1) ↔ name' = name ∨ name' ∈ l.map (·.1) := by
  induction l with
  | nil => simp [insert]
  | cons e l ih =>
    simp only [insert]
    split
    · exact List.mem_cons
    · rw [List.map_cons, List.mem_cons, ih, List.map_cons, List.mem_cons, or_left_comm]

theorem pairwise_insert {l : List (Text × Site)} (h : (l.map (·.1)).Pairwise (· < ·))
    (hname : name ∉ l.map (·.1)) : ((insert name s l).map (·.1)).Pairwise (· < ·) := by
  induction l with
  | nil => exact List.pairwise_singleton _ name
  | cons e l ih =>
    obtain ⟨he, hl⟩ := List.pairwise_cons.1 h
    simp only [insert]
    split
    · next hlt =>
      refine List.pairwise_cons.2 ⟨fun n hn => ?_, h⟩
      rcases List.mem_cons.1 hn with rfl | hn
      · exact hlt
      · exact List.lt_trans hlt (he n hn)
    · next hlt =>
      obtain ⟨hne, hname⟩ := not_or.1 (mt List.mem_cons.2 hname)
      refine List.pairwise_cons.2 ⟨fun n hn => ?_, ih hl hname⟩
      rcases mem_insert.1 hn with rfl | hn
      · exact Std.lt_of_le_of_ne (List.not_lt.1 hlt) (Ne.symm hne)
      · exact he n hn

theorem Ordered.perform (h : t.Ordered) (op : SiteOp) : (t.perform op).Ordered := by
  cases op with
  | create direction name flags hint =>
    simp only [SiteTable.perform, create]
    cases hs : t.find? name with
    | some s => exact h
    | none =>
      refine pairwise_insert h fun hmem => ?_
      obtain ⟨s, hs'⟩ := mem_names.1 hmem
      cases hs.symm.trans hs'
  | destroy name =>
    simp only [SiteTable.perform, destroy]
    split
    · exact h
    · exact List.Pairwise.sublist (List.filter_sublist.map _) h
  | reconfigure config => exact h
  | event name e =>
    rw [Ordered, SiteTable.perform, names_modify]
    exact h

theorem Ordered.run (h : t.Ordered) (ops : List SiteOp) : (t.run ops).Ordered := by
  induction ops generalizing t with
  | nil => exact h
  | cons op ops ih => exact ih (h.perform op)

theorem ordered_after (config : Config) (ops : List SiteOp) : (after config ops).Ordered :=
  have hnone : Ordered { config } := List.Pairwise.nil
  hnone.run ops

theorem Ordered.modify_congr (h : t.Ordered) (hs : t.find? name = some s) (f g : Site → Site)
    (hfg : f s = g s) : t.modify name f = t.modify name g := by
  have hnodup : (t.sites.map (·.1)).Nodup := List.Pairwise.imp (fun hlt heq => by
    subst heq
    exact List.lt_irrefl _ hlt) h
  simp only [modify]
  congr 1
  refine List.map_congr_left fun e he => ?_
  split
  · next hn =>
    have hes : t.sites.lookup name = some e.2 := (lookup_eq_some_iff_mem hnodup).2 (hn ▸ he)
    rw [← Option.some.inj (hs.symm.trans hes), hfg]
  · rfl

/-- What a table answers after a history: which names it takes, what it finds under a name,
and what has become of the site there. -/
structure Shows (t : SiteTable) (config : Config) (ops : List SiteOp) : Prop where
  refused : ∀ {name}, Live name ops → ∀ direction flags hint,
    t.create direction name flags hint = (.alreadyExists, t)
  made : ∀ {name}, ¬ Live name ops → ∀ direction flags hint,
    (t.create direction name flags hint).1 = .ok ∧
      (t.create direction name flags hint).2.find? name =
        some (.new direction name flags hint (inForce config ops))
  found : ∀ direction name, (∃ s, t.typed? direction name = .ok s) ↔
    ∃ c, Created config ops name c ∧ c.direction = direction
  mistyped : ∀ direction name, t.typed? direction name = .error .invalidArgument ↔
    ∃ c, Created config ops name c ∧ c.direction ≠ direction
  missing : ∀ direction name, t.typed? direction name = .error .notFound ↔ ¬ Live name ops
  ascending : t.names.Pairwise (· < ·)
  named : ∀ name, name ∈ t.names ↔ Live name ops
  sites : ∀ name s, t.find? name = some s ↔ ∃ c, Created config ops name c ∧ c.site name = s
  kept : ∀ name s, t.find? name = some s → ∃ c, Created config ops name c ∧
    s.direction = c.direction ∧ s.label = name ∧
    s.flags = (if c.direction = .read then { c.flags with definitionOnly := false } else c.flags) ∧
    s.config = c.config ∧ s.chain.maxDepth = c.config.maxDepth.toNat

theorem after_shows (config : Config) (ops : List SiteOp) :
    (after config ops).Shows config ops where
  refused {name} hlive direction flags hint := by
    obtain ⟨c, hc⟩ := hlive.created config
    simp only [create, hc.find?]
  made {name} hlive direction flags hint := by
    have hnone := find?_of_not_live config hlive
    have hconfig : (after config ops).config = inForce config ops := config_run { config } ops
    refine ⟨by simp only [create, hnone], ?_⟩
    rw [find?_create, if_pos ⟨rfl, hnone⟩, hconfig]
  found direction name := by
    simp only [typed?_eq_ok_iff]
    exact exists_site_iff (· = direction)
  mistyped direction name := typed?_eq_invalidArgument_iff.trans (exists_site_iff (· ≠ direction))
  missing direction name := typed?_eq_notFound_iff.trans find?_eq_none_iff
  ascending := ordered_after config ops
  named name := by
    rw [mem_names, ← Option.isSome_iff_exists, Option.isSome_iff_ne_none, ne_eq,
      find?_eq_none_iff, not_not]
  sites name s := find?_after
  kept name s hs := by
    obtain ⟨c, hc, rfl⟩ := find?_after.1 hs
    exact ⟨c, hc, c.site_direction name, c.site_label name, c.site_flags name,
      c.site_config name, c.site_maxDepth name⟩

end SiteTable

end InlineCache
