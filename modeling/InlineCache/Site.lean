import InlineCache.Config
import InlineCache.Status
import InlineCache.Chain.Basic

/-! Call sites.
A site keeps a chain of its own, learns an entry whenever none accepts an
access, and records what it does. -/

namespace InlineCache

inductive Direction where
  | write
  | read
deriving DecidableEq

/-- What is known of the key before the first access. A wrong hint costs an
entry and nothing else. -/
inductive Hint where
  | unknown
  | constantName (name : Text)
  | indexLike
deriving DecidableEq

structure SiteTally where
  accesses : Nat := 0
  hits : Nat := 0
  misses : Nat := 0
  installs : Nat := 0
  replacements : Nat := 0
  collapses : Nat := 0
  lostRaces : Nat := 0
  genericDispatches : Nat := 0
  failures : Nat := 0
deriving DecidableEq

namespace SiteTally

def toList (t : SiteTally) : List Nat :=
  [t.accesses, t.hits, t.misses, t.installs, t.replacements, t.collapses, t.lostRaces,
    t.genericDispatches, t.failures]

def countRewrite (t : SiteTally) : Rewrite → SiteTally
  | .installed => { t with installs := t.installs + 1 }
  | .replaced => { t with replacements := t.replacements + 1 }
  | .collapsed => { t with collapses := t.collapses + 1 }
  | .lostRace => { t with lostRaces := t.lostRaces + 1 }

def countServed (t : SiteTally) (e : Entry) : SiteTally :=
  if e.isGeneric then { t with genericDispatches := t.genericDispatches + 1 } else t

end SiteTally

/-- One rewrite of a chain: the state it published, and the number of the access
that asked for it, 0 for a hint. -/
structure Transition where
  version : Nat
  installed : EntryKind
  outcome : Rewrite
  depth : Nat
  access : Nat
  chain : Text
deriving DecidableEq

structure Site where
  direction : Direction
  label : Text
  flags : Flags
  config : Config
  chain : Chain
  tally : SiteTally := {}
  /-- The latest transitions, oldest first. -/
  history : List Transition := []
deriving DecidableEq

namespace Site

def record (s : Site) (outcome : Rewrite) (candidate : Entry) (access : Nat) : Site :=
  let s := { s with tally := s.tally.countRewrite outcome }
  if outcome = .lostRace ∨ !s.config.tracing ∨ s.config.historySize = 0 then s
  else
    let entry : Transition := {
      version := s.chain.head.version
      installed := if outcome = .collapsed then .generic else candidate.kind
      outcome
      depth := s.chain.head.depth
      access
      chain := s.chain.head.text }
    let history := s.history ++ [entry]
    { s with history := history.drop (history.length - s.config.historySize.toNat) }

def learn (s : Site) (candidate : Entry) (access : Nat) : Site :=
  let (outcome, chain) := s.chain.install s.chain.position candidate
  { s with chain }.record outcome candidate access

def seed? : Hint → Option Entry
  | .unknown => none
  | .indexLike => some .indexGeneral
  | .constantName name =>
    match name.index? with
    | some _ => some .indexGeneral
    | none => some (.cachedName (.name name))

/-- A new site. Only writes can be definitions. A hint takes effect unless the
chain has no depth. -/
def new (direction : Direction) (label : Text) (flags : Flags) (hint : Hint) (config : Config) :
    Site :=
  let flags := match direction with
    | .write => flags
    | .read => { flags with definitionOnly := false }
  let chain : Chain := { maxDepth := config.maxDepth.toNat }
  let s : Site := { direction, label, flags, config, chain }
  match seed? hint with
  | some e => if config.maxDepth = 0 then s else s.learn e 0
  | none => s

/-- Learns until an entry accepts the access; the number bounds the rewrites.
Beyond it the access is served as by the generic entry. -/
def adapt (probe : Probe) (access : Nat) : Nat → Site → Entry × Site
  | 0, s => (.generic, { s with tally := s.tally.countServed .generic })
  | attempts + 1, s =>
    let s := s.learn (Entry.select probe s.config.preferNative) access
    match s.chain.head.find? probe with
    | some e => (e, { s with tally := s.tally.countServed e })
    | none => adapt probe access attempts s

/-- The number of rewrites one access may make, a 32-bit word. -/
def attempts (s : Site) : Nat := (s.config.maxDepth + 3).toNat

def resolve (s : Site) (probe : Probe) : Entry × Site :=
  let access := s.tally.accesses + 1
  let t := { s.tally with accesses := access }
  match s.chain.head.find? probe with
  | some e => (e, { s with tally := { t with hits := t.hits + 1 }.countServed e })
  | none => adapt probe access s.attempts { s with tally := { t with misses := t.misses + 1 } }

def reject (s : Site) : Site :=
  { s with tally := { s.tally with
    accesses := s.tally.accesses + 1, failures := s.tally.failures + 1 } }

def complete (s : Site) (status : Status) : Site :=
  if status = .ok then s else { s with tally := { s.tally with failures := s.tally.failures + 1 } }

end Site

end InlineCache
