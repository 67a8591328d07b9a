import InlineCache.Session.Step

/-! Running sessions.
A session is a world with the names its steps have bound: objects and proxies by
handle, chains that belong to no site, and traps. -/

namespace InlineCache

structure Session where
  world : World TrapOwner Scene
  handles : List (Text × Handle) := []
  chains : List (Text × Chain) := []

namespace Session

open Effect

def start (config : Config) : Session where
  world := { outer := { table := { config }, other := [] } }

def handle (s : Session) (name : Text) : Handle := (s.handles.lookup name).getD .null

def bind (s : Session) (name? : Option Text) (x : Handle) : Session :=
  match name? with
  | some name => { s with handles := (name, x) :: s.handles }
  | none => s

def chain? (s : Session) (name : Text) : Option Chain := s.chains.lookup name

def setChain (s : Session) (name : Text) (c : Chain) : Session :=
  { s with chains := (name, c) :: s.chains }

/-- The traps. Nested calls go from a proxy to one nearer the end of its targets,
so they are at most as many as there are proxies. -/
def handler (s : Session) : Handler TrapOwner Scene :=
  Reaction.react (s.world.store.registry.records.length + 1)

def act {α : Type} (s : Session) (a : Effect TrapOwner Scene α)
    (f : α → World TrapOwner Scene → Outcome) : Outcome × Session :=
  match a s.world with
  | some (x, world) => (f x world, { s with world })
  | none => (.unanswered, s)

def held : Value := .int32 1

def siteChain (name : Text) (w : World TrapOwner Scene) : ChainState :=
  ((w.outer.table.find? name).elim {} fun s => s.chain.head)

def createProxy (s : Session) (name? : Option Text) (target : Handle) (traps : Traps) :
    Outcome × Session :=
  let owner := s.world.outer.other.next (name?.getD [])
  let proxy : Proxy TrapOwner := {
    target
    get? := traps.get?.map fun _ => owner
    set? := traps.set?.map fun _ => owner
    define? := traps.define?.map fun _ => owner }
  let a : Effect TrapOwner Scene (Status × Handle) := do
    let (status, x) ← onStore (·.createProxy proxy)
    let rs : Reactions := {
      proxy := x
      get := traps.get?.getD {}, set := traps.set?.getD {}, define := traps.define?.getD {} }
    onOuter fun o => ((), { o with other := (owner, rs) :: o.other })
    return (status, x)
  let (outcome, s) := s.act a fun r _ => .made r.1 r.2
  match outcome with
  | .made _ x => (outcome, s.bind name? x)
  | _ => (outcome, s)

def changeTraps (name : Text) (traps : Traps) : Effect TrapOwner Scene Unit :=
  onOuter fun o =>
    match o.other.latest? name with
    | none => ((), o)
    | some owner =>
      ((), { o with other := o.other.modify owner fun rs => { rs with
        get := traps.get?.getD rs.get
        set := traps.set?.getD rs.set
        define := traps.define?.getD rs.define } })

def createSite (s : Session) (direction : Direction) (name : Text) (flags : Flags) (hint : Hint) :
    Outcome × Session :=
  s.act (onOuter fun o =>
      let (status, table) := o.table.create direction name flags hint
      (status, { o with table }))
    fun status w => .siteMade status
      ((w.outer.table.typed? direction name).toOption.map fun site => site.chain.head)

def found : Except Status Site → Status × Option Text
  | .ok site => (.ok, some site.label)
  | .error status => (status, none)

def withState (s : Session) (chain : Text) (state? : Option Nat)
    (f : Chain → Nat → ChainState → Outcome × Session) : Outcome × Session :=
  match s.chain? chain with
  | none => (.unknownChain, s)
  | some c =>
    let n := state?.getD c.position
    match c.states[n]? with
    | none => (.unknownChain, s)
    | some state => f c n state

def perform (s : Session) (name? : Option Text) : Step → Outcome × Session
  | .heap op =>
    let (outcome, s) := s.act (onHeap (·.perform op)) fun a _ => .heap a
    match outcome with
    | .heap (.made _ x) => (outcome, s.bind name? x)
    | _ => (outcome, s)
  | .createProxy target traps => s.createProxy name? target traps
  | .changeTraps name traps => s.act (changeTraps name traps) fun _ _ => .changed
  | .destroyProxy x => s.act (onStore (·.destroyProxy x)) fun status _ => .status status
  | .revokeProxy x => s.act (onStore (·.revoke x)) fun status _ => .status status
  | .inspectProxy x =>
    let r := s.world.store.registry
    (.proxy (r.target x).1 (r.target x).2 (r.isRevoked x), s)
  | .invokeSet x receiver k v strict =>
    s.act (Proxy.invokeSet s.handler x receiver k v strict) fun status _ => .status status
  | .invokeGet x receiver k =>
    s.act (Proxy.invokeGet s.handler x receiver k) fun a _ => .value a.1 a.2
  | .invokeDefine x k v => s.act (Proxy.invokeDefine s.handler x k v) fun status _ => .status status
  | .proxyTally => (.proxyTally s.world.store.registry.tally, s)
  | .createSite direction name flags hint => s.createSite direction name flags hint
  | .findSite name =>
    let t := s.world.outer.table
    (.siteFound (found (t.typed? .write name)) (found (t.typed? .read name)), s)
  | .destroySite name =>
    s.act (onOuter fun o =>
        let (status, table) := o.table.destroy name
        (status, { o with table }))
      fun status _ => .status status
  | .siteNames => (.names s.world.outer.table.names, s)
  | .reconfigure config =>
    s.act (onOuter fun o => (Status.ok, { o with table := o.table.reconfigure config }))
      fun status _ => .status status
  | .config => (.config s.world.outer.table.config, s)
  | .siteSet name target key v receiver =>
    s.act (Site.set s.handler name target key v receiver) fun a w =>
      match a with
      | .ok status => .siteSet status (siteChain name w)
      | .error status => .siteMissing status
  | .siteGet name target key receiver =>
    s.act (Site.get s.handler name target key receiver) fun a w =>
      match a with
      | .ok (status, v) => .siteGet status v (siteChain name w)
      | .error status => .siteMissing status
  | .inspectSite name =>
    match s.world.outer.table.find? name with
    | some site => (.site site, s)
    | none => (.siteMissing .notFound, s)
  | .dispatchSet flags target key v receiver =>
    s.act (Dispatch.set s.handler flags target key v receiver) fun status _ => .status status
  | .dispatchSetIndex flags target i v =>
    s.act (Dispatch.setIndex flags target i v) fun status _ => .status status
  | .dispatchSetName flags target k v =>
    s.act (Dispatch.setName flags target k v) fun status _ => .status status
  | .dispatchSetProxy flags target key v receiver =>
    s.act (Dispatch.setOnProxy s.handler flags target key v receiver) fun status _ => .status status
  | .dispatchGet target key receiver =>
    s.act (Dispatch.get s.handler target key receiver) fun a _ => .value a.1 a.2
  | .dispatchGetIndex target i => s.act (Dispatch.getIndex target i) fun a _ => .value a.1 a.2
  | .dispatchGetName target k => s.act (Dispatch.getName target k) fun a _ => .value a.1 a.2
  | .dispatchGetProxy target key receiver =>
    s.act (Dispatch.getOnProxy s.handler target key receiver held) fun a _ => .value a.1 a.2
  | .probe target key preferNative guards? =>
    let p := s.world.store.heap.probe target key
    (.probe p (Entry.select p preferNative) (guards?.map fun es => es.map (·.guard p)), s)
  | .entrySet flags e target key v receiver =>
    s.act (e.set s.handler flags target key v receiver) fun status _ => .status status
  | .entryGet e target key receiver =>
    s.act (e.get s.handler target key receiver held) fun a _ => .value a.1 a.2
  | .inspectEntry e others? => (.entry e (others?.map fun es => es.map e.supersedes), s)
  | .createChain maxDepth =>
    let c : Chain := { maxDepth }
    (.chainMade c, s.setChain (name?.getD []) c)
  | .install chain state? e =>
    s.withState chain state? fun c n _ =>
      let (r, c) := c.install n e
      (.installed r c, s.setChain chain c)
  | .inspectChain chain state? =>
    s.withState chain state? fun c n state => (.chainState state (decide (n = c.position)), s)
  | .findInChain chain state? target key =>
    s.withState chain state? fun _ _ state =>
      (.hit (state.find? (s.world.store.heap.probe target key)), s)

def step (s : Session) (name? : Option Text) (step : Step) : Report × Session :=
  let s := { s with world := { s.world with calls := [] } }
  let (outcome, s) := s.perform name? step
  (⟨outcome, s.world.calls⟩, s)

def run (s : Session) : List (Option Text × Step) → List Report × Session
  | [] => ([], s)
  | (name?, st) :: rest =>
    let (report, s) := s.step name? st
    let (reports, s) := run s rest
    (report :: reports, s)

end Session

end InlineCache
