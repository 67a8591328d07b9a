import InlineCache.Chain.Entry

/-! The chain of a call site.
A chain publishes states and never alters one. It grows by one entry at a time
up to its depth, and beyond that collapses into a single generic entry for good. -/

namespace InlineCache

structure ChainState where
  entries : List Entry := []
  /-- The number of entries, not counting the generic one. -/
  depth : Nat := 0
  saturated : Bool := false
  version : Nat := 0
deriving DecidableEq

namespace ChainState

def find? (s : ChainState) (probe : Probe) : Option Entry := s.entries.find? (·.guard probe)

def text (s : ChainState) : Text :=
  if s.entries.isEmpty then "<empty>"
  else (Text.ofString " -> ").intercalate (s.entries.map Entry.text)

end ChainState

inductive Rewrite where
  | installed
  | replaced
  | collapsed
  | lostRace
deriving DecidableEq

namespace Rewrite

def name : Rewrite → Text
  | .installed => "Installed"
  | .replaced => "Replaced"
  | .collapsed => "Collapsed"
  | .lostRace => "LostRace"

def all : List Rewrite := [.installed, .replaced, .collapsed, .lostRace]

def nameOfCode (code : Int) : Text :=
  match all[(code % 256).toNat]? with
  | some r => r.name
  | none => "Unknown"

end Rewrite

structure Chain where
  maxDepth : Nat
  head : ChainState := {}
  /-- The states published before the head, newest first. -/
  older : List ChainState := []
deriving DecidableEq

namespace Chain

def states (c : Chain) : List ChainState := c.older.reverse ++ [c.head]

def position (c : Chain) : Nat := c.older.length

def retained (c : Chain) : Nat := c.older.length + 1

def publish (c : Chain) (s : ChainState) : Chain := { c with head := s, older := c.head :: c.older }

/-- Adds an entry, for a caller that saw the published state with the number
`observed`. A caller that saw an older state changes nothing, and neither does
one that saw the generic entry. The new entry goes to the end, and the entries
it supersedes leave. -/
def install (c : Chain) (observed : Nat) (candidate : Entry) : Rewrite × Chain :=
  if observed ≠ c.position ∨ c.head.saturated then (.lostRace, c)
  else
    let version := c.head.version + 1
    let kept := c.head.entries.filter fun e => !candidate.supersedes e
    if candidate.isGeneric ∨ c.maxDepth ≤ kept.length then
      (.collapsed, c.publish { entries := [.generic], saturated := true, version })
    else
      let outcome := if kept.length < c.head.entries.length then .replaced else .installed
      (outcome, c.publish {
        entries := kept ++ [candidate], depth := kept.length + 1, version })

theorem states_publish (c : Chain) (s : ChainState) : (c.publish s).states = c.states ++ [s] := by
  simp [states, publish]

theorem position_publish (c : Chain) (s : ChainState) :
    (c.publish s).position = c.position + 1 := by
  simp [position, publish]

theorem install_saturated {c : Chain} (n : Nat) (e : Entry) (h : c.head.saturated = true) :
    c.install n e = (.lostRace, c) := by
  simp [install, h]

end Chain

end InlineCache
