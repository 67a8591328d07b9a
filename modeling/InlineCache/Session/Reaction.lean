import InlineCache.Execute

/-! Traps described by data.
A trap is known by the creation of its proxy. Its reaction may pass the access
on, come back to a call site, or change the proxy it belongs to. -/

namespace InlineCache

inductive ReactionMode where
  | fixed
  | forward
  | receiver
  | site (name : Text)
  | revoke
  | destroyTarget
  /-- Replies with the text of the key. -/
  | echo
deriving DecidableEq

structure Reaction where
  mode : ReactionMode := .fixed
  status : Status := .ok
  accept : Bool := true
  value : Value := .undefined
deriving DecidableEq

structure Reactions where
  proxy : Handle := .null
  get : Reaction := {}
  set : Reaction := {}
  define : Reaction := {}
deriving DecidableEq

/-- The creation of a proxy. A name may be given again, and the proxies that had
it before keep their traps. -/
structure TrapOwner where
  name : Text
  number : Nat
deriving DecidableEq

abbrev Ledger := List (TrapOwner × Reactions)

namespace Ledger

def find (l : Ledger) (owner : TrapOwner) : Reactions := (l.lookup owner).getD {}

def next (l : Ledger) (name : Text) : TrapOwner := ⟨name, l.length⟩

def latest? (l : Ledger) (name : Text) : Option TrapOwner :=
  (l.find? fun e => decide (e.1.name = name)).map (·.1)

def modify (l : Ledger) (owner : TrapOwner) (f : Reactions → Reactions) : Ledger :=
  l.map fun e => if e.1 = owner then (e.1, f e.2) else e

end Ledger

abbrev Scene := Surroundings Ledger

namespace Reaction

open Effect

def ownerOf : TrapCall TrapOwner → TrapOwner
  | .get owner .. | .set owner .. | .define owner .. => owner

def reply (r : Reaction) (proxy target : Handle) : Effect TrapOwner Scene TrapReply := do
  match r.mode with
  | .revoke => discard (onStore (·.revoke proxy))
  | .destroyTarget => discard (onHeap (·.destroy target))
  | _ => pure ()
  return ⟨r.status, r.value, r.accept⟩

def ofRead (a : Effect TrapOwner Scene (Status × Value)) : Effect TrapOwner Scene TrapReply := do
  let (status, value) ← a
  return { status, value }

def ofWrite (r : Reaction) (a : Effect TrapOwner Scene Status) :
    Effect TrapOwner Scene TrapReply := do
  let status ← if r.accept then a else pure r.status
  return { status, accepted := r.accept }

def ofSite (r : Reaction) (a : Effect TrapOwner Scene (Except Status Status)) :
    Effect TrapOwner Scene TrapReply := do
  match ← a with
  | .ok status | .error status => return { status, accepted := r.accept }

def react : Nat → Handler TrapOwner Scene
  | 0, _ => fun _ => none
  | depth + 1, call => do
    let rs ← onOuter fun o => (o.other.find (ownerOf call), o)
    match call with
    | .get _ target receiver k =>
      match rs.get.mode with
      | .forward => ofRead (onHeap (·.getNamed target k))
      | .receiver => ofRead (onHeap (·.getNamed receiver k))
      | .site name => do
        match ← Site.get (react depth) name target k.toValue receiver with
        | .ok (status, value) => return { status, value }
        | .error status => return { status }
      | .echo => return { status := rs.get.status, value := .string ("trapped:" ++ k.text) }
      | _ => rs.get.reply rs.proxy target
    | .set _ target receiver k v =>
      match rs.set.mode with
      | .forward => rs.set.ofWrite (onHeap (·.setNamed target k v true))
      | .receiver => rs.set.ofWrite (onHeap (·.setNamed receiver k v true))
      | .site name => rs.set.ofSite (Site.set (react depth) name target k.toValue v receiver)
      | _ => rs.set.reply rs.proxy target
    | .define _ target k v =>
      match rs.define.mode with
      | .forward => rs.define.ofWrite (onHeap (·.defineOwn target k v))
      | .site name => rs.define.ofSite (Site.set (react depth) name target k.toValue v .null)
      | _ => rs.define.reply rs.proxy target

end Reaction

end InlineCache
