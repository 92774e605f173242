/-
Routing rules (`config.rs`). The glob crate is a parameter: `Pattern::new`
gives nothing on a malformed pattern, else the match predicate.
-/
import DbusRouter.Wire.Text

namespace DbusRouter.Model

open Wire

/-- `glob::Pattern::new` followed by `Pattern::matches`. -/
abbrev Glob := Text → Option (Text → Bool)

/-- A routing rule that matches destinations. -/
structure RouteRule where
  destination : Text
  deriving DecidableEq, Repr

/-- A process allowed to register services on the host bus. -/
structure HostPass where
  process : Bytes
  deriving DecidableEq, Repr

/-- Router configuration. -/
structure Config where
  hostRoutes : List RouteRule
  hostpass : List HostPass
  deriving DecidableEq, Repr

/-- Exact match, or the wildcard `org.foo.*`, which `org.foo` itself also
matches. -/
def RouteRule.matches (rule : RouteRule) (destination : Text) : Bool :=
  match stripSuffix (utf8 ".*") rule.destination with
  | some pre =>
      if destination = pre then true
      else
        match stripPrefix pre destination with
        | some rest => startsWith (utf8 ".") rest
        | none => false
  | none => rule.destination == destination

/-- Whether a destination is routed to the host bus. -/
def Config.shouldRouteToHost (config : Config) (destination : Text) : Bool :=
  config.hostRoutes.any (·.matches destination)

/-- Whether a process may register services on the host bus. -/
def Config.hasHostpass (glob : Glob) (config : Config) (exePath : Bytes) :
    Bool :=
  let exeStr := fromUtf8Lossy exePath
  config.hostpass.any fun h =>
    match glob (fromUtf8Lossy h.process) with
    | some pattern => pattern exeStr
    | none => false

end DbusRouter.Model
