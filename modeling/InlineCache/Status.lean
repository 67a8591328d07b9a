import InlineCache.Text

/-! Outcomes of an operation. A failing outcome is an ordinary answer: every
operation returns one together with the state it leaves. -/

namespace InlineCache

inductive Status where
  | ok
  | alreadyExists
  | notFound
  | invalidArgument
  | typeError
  | proxyTrapFailure
  | invalidKey
  | internalError
deriving DecidableEq

namespace Status

def name : Status → Text
  | .ok => "Ok"
  | .alreadyExists => "AlreadyExists"
  | .notFound => "NotFound"
  | .invalidArgument => "InvalidArgument"
  | .typeError => "TypeError"
  | .proxyTrapFailure => "ProxyTrapFailure"
  | .invalidKey => "InvalidKey"
  | .internalError => "InternalError"

def all : List Status :=
  [.ok, .alreadyExists, .notFound, .invalidArgument, .typeError, .proxyTrapFailure,
    .invalidKey, .internalError]

def nameOfCode (code : Int) : Text :=
  match all[(code % 4294967296).toNat]? with
  | some s => s.name
  | none => "Unknown"

end Status

end InlineCache
