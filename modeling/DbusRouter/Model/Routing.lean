/-
Routing decisions for client requests (`routing.rs`).
-/
import DbusRouter.Model.Daemon

namespace DbusRouter.Model

open Wire Lib

/-- Whether the client's process is a hostpass process. -/
def isHostpass (glob : Glob) (config : Config) (clientExe : Option Bytes) :
    Bool :=
  match clientExe with
  | some exe => config.hasHostpass glob exe
  | none => false

/-- Determines which bus to route a request to. -/
def routeRequest (glob : Glob) (config : Config) (msg : Message)
    (clientExe : Option Bytes) : Result RouteDecision :=
  if isHostpass glob config clientExe then .ok (.single .host)
  else
    match msg.header.destination.bind getBusFromFakeName with
    | some bus => .ok (.single bus)
    | none =>
        if msg.header.destination = some busName
            ∧ msg.header.interface = some busName then
          routeDbusMethod config msg
        else if msg.header.destination.any config.shouldRouteToHost then
          .ok (.single .host)
        else .ok (.single .sandbox)

end DbusRouter.Model
