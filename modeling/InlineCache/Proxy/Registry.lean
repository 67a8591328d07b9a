import InlineCache.Heap.Basic

/-! Proxies: objects that forward accesses to a target, through traps where they
have them. `τ` names the traps; what a trap does is not part of the registry. -/

namespace InlineCache

structure Proxy (τ : Type) where
  target : Handle
  get? : Option τ := none
  set? : Option τ := none
  define? : Option τ := none
  revoked : Bool := false
deriving DecidableEq

structure ProxyTally where
  liveProxies : Nat := 0
  allocations : Nat := 0
  releases : Nat := 0
  revocations : Nat := 0
  trapHits : Nat := 0
  fallbackHits : Nat := 0
  trapFailures : Nat := 0
  rejections : Nat := 0
deriving DecidableEq

def ProxyTally.toList (t : ProxyTally) : List Nat :=
  [t.liveProxies, t.allocations, t.releases, t.revocations, t.trapHits, t.fallbackHits,
    t.trapFailures, t.rejections]

structure Registry (τ : Type) where
  records : List (Handle × Proxy τ) := []
  tally : ProxyTally := {}
deriving DecidableEq

namespace Registry

variable {τ : Type}

def record? (r : Registry τ) (x : Handle) : Option (Proxy τ) := r.records.lookup x

def open? (r : Registry τ) (x : Handle) : Except Status (Proxy τ) :=
  match r.record? x with
  | none => .error .invalidArgument
  | some p => if p.revoked then .error .typeError else .ok p

def insert (r : Registry τ) (x : Handle) (p : Proxy τ) : Registry τ where
  records := (x, p) :: r.records.filter fun e => decide (e.1 ≠ x)
  tally := { r.tally with
    liveProxies := r.tally.liveProxies + 1, allocations := r.tally.allocations + 1 }

def erase (r : Registry τ) (x : Handle) : Registry τ where
  records := r.records.filter fun e => decide (e.1 ≠ x)
  tally := { r.tally with
    liveProxies := r.tally.liveProxies - 1, releases := r.tally.releases + 1 }

def isRevoked (r : Registry τ) (x : Handle) : Bool := (r.record? x).any (·.revoked)

def target (r : Registry τ) (x : Handle) : Status × Handle :=
  match r.open? x with
  | .ok p => (.ok, p.target)
  | .error s => (s, .null)

def revoke (r : Registry τ) (x : Handle) : Status × Registry τ :=
  match r.record? x with
  | none => (.notFound, r)
  | some p =>
    if p.revoked then (.ok, r)
    else (.ok, {
      records := r.records.map fun e =>
        if e.1 = x then (x, { target := .null, revoked := true }) else e
      tally := { r.tally with revocations := r.tally.revocations + 1 } })

def countTrap (r : Registry τ) (s : Status) : Registry τ :=
  { r with tally :=
    if s = .ok then { r.tally with trapHits := r.tally.trapHits + 1 }
    else { r.tally with trapFailures := r.tally.trapFailures + 1 } }

def countForwards (r : Registry τ) (n : Nat) : Registry τ :=
  { r with tally := { r.tally with fallbackHits := r.tally.fallbackHits + n } }

def countRejection (r : Registry τ) : Registry τ :=
  { r with tally := { r.tally with rejections := r.tally.rejections + 1 } }

end Registry

structure Store (τ : Type) where
  heap : Heap := {}
  registry : Registry τ := {}
deriving DecidableEq

namespace Store

variable {τ : Type}

def createProxy (s : Store τ) (p : Proxy τ) : (Status × Handle) × Store τ :=
  if s.heap.isLive p.target then
    let ((status, x), heap) := s.heap.createShell "proxy"
    if status = .ok then ((.ok, x), ⟨heap, s.registry.insert x p⟩)
    else ((status, .null), { s with heap })
  else ((.invalidArgument, .null), s)

def destroyProxy (s : Store τ) (x : Handle) : Status × Store τ :=
  match s.registry.record? x with
  | none => (.notFound, s)
  | some _ =>
    let (status, heap) := s.heap.destroy x
    (status, ⟨heap, s.registry.erase x⟩)

def revoke (s : Store τ) (x : Handle) : Status × Store τ :=
  let (status, registry) := s.registry.revoke x
  (status, { s with registry })

end Store

end InlineCache
