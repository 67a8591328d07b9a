import InlineCache.Site

/-! Call sites by name, in ascending order of their names, and the configuration
for those created next. -/

namespace InlineCache

structure SiteTable where
  config : Config := {}
  sites : List (Text × Site) := []
deriving DecidableEq

namespace SiteTable

def names (t : SiteTable) : List Text := t.sites.map (·.1)

def find? (t : SiteTable) (name : Text) : Option Site := t.sites.lookup name

def typed? (t : SiteTable) (direction : Direction) (name : Text) : Except Status Site :=
  match t.find? name with
  | none => .error .notFound
  | some s => if s.direction = direction then .ok s else .error .invalidArgument

def insert (name : Text) (s : Site) : List (Text × Site) → List (Text × Site)
  | [] => [(name, s)]
  | e :: rest => if name < e.1 then (name, s) :: e :: rest else e :: insert name s rest

def create (t : SiteTable) (direction : Direction) (name : Text) (flags : Flags) (hint : Hint) :
    Status × SiteTable :=
  match t.find? name with
  | some _ => (.alreadyExists, t)
  | none =>
    let s := Site.new direction name flags hint t.config
    (.ok, { t with sites := insert name s t.sites })

def destroy (t : SiteTable) (name : Text) : Status × SiteTable :=
  match t.find? name with
  | none => (.notFound, t)
  | some _ => (.ok, { t with sites := t.sites.filter fun e => decide (e.1 ≠ name) })

def modify (t : SiteTable) (name : Text) (f : Site → Site) : SiteTable :=
  { t with sites := t.sites.map fun e => if e.1 = name then (e.1, f e.2) else e }

def reconfigure (t : SiteTable) (config : Config) : SiteTable := { t with config }

end SiteTable

end InlineCache
