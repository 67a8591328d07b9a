import InlineCache.Heap.Operation
import InlineCache.Session.Reaction

/-! The steps of a session and their outcomes. -/

namespace InlineCache

structure Traps where
  get? : Option Reaction := none
  set? : Option Reaction := none
  define? : Option Reaction := none
deriving DecidableEq

inductive Step where
  | heap (op : HeapOp)
  | createProxy (target : Handle) (traps : Traps)
  /-- Replaces what the traps of the proxy last created under a name do. -/
  | changeTraps (name : Text) (traps : Traps)
  | destroyProxy (x : Handle)
  | revokeProxy (x : Handle)
  | inspectProxy (x : Handle)
  | invokeSet (x receiver : Handle) (k : PropertyKey) (v : Value) (strict : Bool)
  | invokeGet (x receiver : Handle) (k : PropertyKey)
  | invokeDefine (x : Handle) (k : PropertyKey) (v : Value)
  | proxyTally
  | createSite (direction : Direction) (name : Text) (flags : Flags) (hint : Hint)
  | findSite (name : Text)
  | destroySite (name : Text)
  | siteNames
  | reconfigure (config : Config)
  | config
  | siteSet (name : Text) (target : Handle) (key v : Value) (receiver : Handle)
  | siteGet (name : Text) (target : Handle) (key : Value) (receiver : Handle)
  | inspectSite (name : Text)
  | dispatchSet (flags : Flags) (target : Handle) (key v : Value) (receiver : Handle)
  | dispatchSetIndex (flags : Flags) (target : Handle) (i : Nat) (v : Value)
  | dispatchSetName (flags : Flags) (target : Handle) (k : PropertyKey) (v : Value)
  | dispatchSetProxy (flags : Flags) (target : Handle) (key v : Value) (receiver : Handle)
  | dispatchGet (target : Handle) (key : Value) (receiver : Handle)
  | dispatchGetIndex (target : Handle) (i : Nat)
  | dispatchGetName (target : Handle) (k : PropertyKey)
  | dispatchGetProxy (target : Handle) (key : Value) (receiver : Handle)
  | probe (target : Handle) (key : Value) (preferNative : Bool) (guards? : Option (List Entry))
  | entrySet (flags : Flags) (e : Entry) (target : Handle) (key v : Value) (receiver : Handle)
  | entryGet (e : Entry) (target : Handle) (key : Value) (receiver : Handle)
  | inspectEntry (e : Entry) (others? : Option (List Entry))
  | createChain (maxDepth : Nat)
  /-- Installs as a caller that saw the state with the given number, or the head. -/
  | install (chain : Text) (state? : Option Nat) (e : Entry)
  | inspectChain (chain : Text) (state? : Option Nat)
  | findInChain (chain : Text) (state? : Option Nat) (target : Handle) (key : Value)

inductive Outcome where
  | heap (a : HeapAnswer)
  | status (s : Status)
  | made (s : Status) (x : Handle)
  | value (s : Status) (v : Value)
  | changed
  | proxy (s : Status) (target : Handle) (revoked : Bool)
  | proxyTally (t : ProxyTally)
  | siteMade (s : Status) (chain? : Option ChainState)
  /-- What a search in each direction gives, with the label of the site it finds. -/
  | siteFound (write read : Status × Option Text)
  | siteMissing (s : Status)
  | names (ns : List Text)
  | config (c : Config)
  | siteSet (s : Status) (chain : ChainState)
  | siteGet (s : Status) (v : Value) (chain : ChainState)
  | site (s : Site)
  | probe (p : Probe) (selected : Entry) (guards? : Option (List Bool))
  | entry (e : Entry) (supersedes? : Option (List Bool))
  | chainMade (c : Chain)
  | installed (r : Rewrite) (c : Chain)
  | chainState (s : ChainState) (isHead : Bool)
  | hit (e? : Option Entry)
  /-- A chain or a state that there is not. -/
  | unknownChain
  | unanswered
deriving DecidableEq

structure Report where
  outcome : Outcome
  calls : List (TrapCall TrapOwner)
deriving DecidableEq

end InlineCache
