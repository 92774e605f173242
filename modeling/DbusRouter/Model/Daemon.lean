/-
Special handling of the bus daemon's methods (`dbus/daemon.rs`): how its
calls are routed, and how names in the bodies of its requests, replies and
signals are rewritten.

Whether a body is rewritten is decided from the member name alone; the
callers decide when to ask.
-/
import DbusRouter.Model.Config
import DbusRouter.Model.Rewrite

namespace DbusRouter.Model

open Wire Lib

/-- Routing decision result. -/
inductive RouteDecision where
  /-- route to a single bus -/
  | single (bus : Bus)
  /-- route to both buses -/
  | both
  /-- route to both buses and merge the replies -/
  | merge
  deriving DecidableEq, Repr

-- ================================================================= tables

/-- Methods whose reply holds unique names. -/
def methodsNeedResponseRewrite : List Text :=
  ["Hello", "GetNameOwner", "ListQueuedOwners"].map utf8

/-- Methods whose argument is a unique name. -/
def methodsNeedRequestRewrite : List Text :=
  ["GetConnectionCredentials", "GetConnectionUnixUser",
   "GetConnectionUnixProcessID", "GetConnectionSELinuxSecurityContext",
   "GetAdtAuditSessionData", "NameHasOwner", "GetNameOwner"].map utf8

/-- Signals whose body holds unique names. -/
def signalsNeedRewrite : List Text := ["NameOwnerChanged"].map utf8

def needsResponseRewrite (member : Text) : Bool :=
  methodsNeedResponseRewrite.contains member

def needsRequestRewrite (member : Text) : Bool :=
  methodsNeedRequestRewrite.contains member

def signalNeedsRewrite (member : Text) : Bool :=
  signalsNeedRewrite.contains member

/-- Routing strategy for a method of the bus daemon. -/
inductive DbusRouteKind where
  /-- send to both and merge results -/
  | mergeBoth
  /-- route on the match rule's sender or interface -/
  | byMatchRule
  /-- route on a name argument in the body -/
  | byName (checkHostRoutes allowFakeUnique : Bool)
  deriving DecidableEq, Repr

/-- A method of the bus daemon and its strategy. -/
structure DbusMethodSpec where
  member : Text
  route : DbusRouteKind
  deriving DecidableEq, Repr

def dbusMethodSpecs : List DbusMethodSpec :=
  [⟨utf8 "AddMatch", .byMatchRule⟩,
   ⟨utf8 "RemoveMatch", .byMatchRule⟩,
   ⟨utf8 "RequestName", .byName true false⟩,
   ⟨utf8 "ReleaseName", .byName true false⟩,
   ⟨utf8 "GetNameOwner", .byName true true⟩,
   ⟨utf8 "NameHasOwner", .byName true true⟩,
   ⟨utf8 "StartServiceByName", .byName true true⟩,
   ⟨utf8 "GetConnectionCredentials", .byName false true⟩,
   ⟨utf8 "GetConnectionUnixUser", .byName false true⟩,
   ⟨utf8 "GetConnectionUnixProcessID", .byName false true⟩,
   ⟨utf8 "GetConnectionSELinuxSecurityContext", .byName false true⟩,
   ⟨utf8 "GetAdtAuditSessionData", .byName false true⟩,
   ⟨utf8 "ListNames", .mergeBoth⟩,
   ⟨utf8 "ListActivatableNames", .mergeBoth⟩]

def findMethodSpec (member : Text) : Option DbusMethodSpec :=
  dbusMethodSpecs.find? (·.member == member)

-- ================================================================ routing

/-- The service an interface belongs to: its first three elements. -/
def extractServiceFromInterface (interface : Text) : Option Text :=
  let parts := splitOn '.'.toUInt8 interface
  if parts.length ≥ 3 then
    some (List.intercalate (utf8 ".") (parts.take 3))
  else none

/-- The bus a match rule's sender names: a fake name's bus, or the host
for a sender in the host routes. -/
def routeBySender (config : Config) (sender : Option Text) : Option Bus :=
  sender.bind fun sender =>
    match getBusFromFakeName sender with
    | some bus => some bus
    | none => if config.shouldRouteToHost sender then some .host else none

/-- The host, for an interface whose service is in the host routes. -/
def routeByInterface (config : Config) (interface : Option Text) :
    Option Bus :=
  (interface.bind extractServiceFromInterface).bind fun service =>
    if config.shouldRouteToHost service then some .host else none

/-- Where a match rule goes; to both buses when nothing in it decides. -/
def routeMatchRule (config : Config) (rule : Text) : RouteDecision :=
  let info := parseMatchRule rule
  match routeBySender config info.sender with
  | some bus => .single bus
  | none =>
      match routeByInterface config info.interface with
      | some bus => .single bus
      | none => .both

/-- Where a call about a name goes. -/
def routeName (config : Config) (checkHostRoutes allowFakeUnique : Bool)
    (name : Option Text) : Bus :=
  match name with
  | none => .sandbox
  | some name =>
      match if allowFakeUnique then getBusFromFakeName name else none with
      | some bus => bus
      | none =>
          if checkHostRoutes && config.shouldRouteToHost name then .host
          else .sandbox

/-- Routes a call to the bus daemon by the table. -/
def routeDbusMethod (config : Config) (msg : Message) :
    Result RouteDecision :=
  match findMethodSpec (msg.header.member.getD []) with
  | none => .ok (.single .sandbox)
  | some spec =>
      match spec.route with
      | .mergeBoth => .ok .merge
      | .byMatchRule => do
          match ← msg.extractStringFromBody with
          | some rule => .ok (routeMatchRule config rule)
          | none => .ok (.single .sandbox)
      | .byName checkHostRoutes allowFakeUnique => do
          let name ← msg.extractNameFromBody
          .ok (.single (routeName config checkHostRoutes allowFakeUnique name))

-- ============================================================= rebuilding

/-- Puts a new body behind the header. -/
def rebuildMessageWithBody (raw : Bytes) (e : Endian) (newBody : Bytes) :
    Result Bytes := do
  let bodyStart ← bodyStartOf e raw
  let first ← slice raw 0 4
  let header ← slice raw 8 bodyStart
  .ok (first ++ e.bytes 4 (newBody.length % 2 ^ 32) ++ header ++ newBody)

/-- Puts a body of one string behind the header. -/
def rebuildMessageWithString (raw : Bytes) (e : Endian) (newStr : Text) :
    Result Bytes :=
  rebuildMessageWithBody raw e
    (e.bytes 4 (newStr.length % 2 ^ 32) ++ newStr ++ [0])

/-- The first string of a body as the body rewriters read it: `none` when
the body is empty or the string reaches past the message. Invalid UTF-8 is
replaced. -/
def Message.firstBodyString (msg : Message) : Result (Option Text) := do
  let bodyStart ← msg.bodyStart
  if bodyStart ≥ msg.raw.length then .ok none
  else do
    let strLen ← readU32At msg.header.endian msg.raw bodyStart
    let strStart ← addUsize bodyStart 4
    let strEnd ← addUsize strStart strLen
    if strEnd > msg.raw.length then .ok none
    else do
      let s ← slice msg.raw strStart strEnd
      .ok (some (fromUtf8Lossy s))

-- =============================================================== requests

/-- Removes the fake prefix from the sender of a match rule; `none` when
there is nothing to rewrite. -/
def rewriteMatchRuleBody (msg : Message) : Result (Option Bytes) := do
  match ← msg.firstBodyString with
  | none => .ok none
  | some rule =>
      match parseMatchRuleSender rule with
      | none => .ok none
      | some sender =>
          match fromFakeName sender with
          | none => .ok none
          | some (realSender, _) => do
              let raw ← rebuildMessageWithString msg.raw msg.header.endian
                (rewriteMatchRuleSender rule sender realSender)
              .ok (some raw)

/-- Removes the fake prefix from the name a request is about. The two
errors of the source are its two ways to have no first string. -/
def rewriteUniqueNameRequest (msg : Message) : Result (Bytes × Bus) := do
  match ← msg.firstBodyString with
  | none => do
      let bodyStart ← msg.bodyStart
      if bodyStart ≥ msg.raw.length then
        .err (.protocol (utf8 "No body in message"))
      else .err (.protocol (utf8 "Invalid string in body"))
  | some name =>
      match fromFakeName name with
      | some (realName, bus) => do
          let raw ← rebuildMessageWithString msg.raw msg.header.endian
            realName
          .ok (raw, bus)
      | none => .ok (msg.raw, .sandbox)

-- ======================================================= replies, signals

/-- Adds the prefix to the one unique name of a reply. -/
def rewriteSingleNameResponse (msg : Message) (source : Bus) :
    Result Bytes := do
  match ← msg.firstBodyString with
  | none => .ok msg.raw
  | some name =>
      if isUniqueName name then
        rebuildMessageWithString msg.raw msg.header.endian
          (toFakeName name source)
      else .ok msg.raw

/-- The string array of a body; empty when there is none. -/
def parseStringArray (z : Zvariant) (msg : Message) :
    Result (List Text) := do
  let bodyStart ← msg.bodyStart
  if bodyStart ≥ msg.raw.length then .ok []
  else do
    let bodyData ← sliceFrom msg.raw bodyStart
    .ok ((z.strings msg.header.endian bodyStart bodyData).getD [])

/-- A name with its bus's prefix, if it is a unique name. -/
def prefixUnique (source : Bus) (name : Text) : Text :=
  if isUniqueName name then toFakeName name source else name

/-- Adds the prefix to the unique names of a string-array reply. -/
def rewriteStringArrayResponse (z : Zvariant) (msg : Message)
    (source : Bus) : Result Bytes := do
  let names ← parseStringArray z msg
  if names.isEmpty then .ok msg.raw
  else do
    let newBody ← orZvariant (z.encodeStrings msg.header.endian 0
      (names.map (prefixUnique source)))
    rebuildMessageWithBody msg.raw msg.header.endian newBody

/-- Adds the prefix to the owners in a `NameOwnerChanged` signal. The name
it is about is left alone. -/
def rewriteNameOwnerChanged (z : Zvariant) (msg : Message) (source : Bus) :
    Result Bytes := do
  let bodyStart ← msg.bodyStart
  if bodyStart ≥ msg.raw.length then .ok msg.raw
  else do
    let bodyData ← sliceFrom msg.raw bodyStart
    match z.triple msg.header.endian bodyStart bodyData with
    | none => .ok msg.raw
    | some (name, oldOwner, newOwner) => do
        let newBody ← orZvariant (z.encodeTriple msg.header.endian 0
          (name, prefixUnique source oldOwner, prefixUnique source newOwner))
        rebuildMessageWithBody msg.raw msg.header.endian newBody

-- ================================================================ merging

/-- One more name of a merge, unless it is already there. -/
def mergeName (result : List Text) (key : Text) : List Text :=
  if result.contains key then result else result ++ [key]

/-- Both buses' names, the sandbox's first, unique names prefixed, each
name once. -/
def mergeListNames (hostNames sandboxNames : List Text) : List Text :=
  (hostNames.map (prefixUnique .host)).foldl mergeName
    ((sandboxNames.map (prefixUnique .sandbox)).foldl mergeName [])

/-- Builds the METHOD_RETURN that answers a request. -/
def buildMethodReturn (z : Zvariant) (request : Message) (body : Bytes)
    (signature : List Ty) : Result Bytes := do
  let e := request.header.endian
  let fields : List Field :=
    [(5, .fixed .uint32 request.header.serial), (8, .signature signature)]
  let fieldsEncoded ← orZvariant (z.encodeFields e 12 fields)
  let encodedLen ← subUsize fieldsEncoded.length 4
  let arrayLen := encodedLen % 2 ^ 32
  let padding := padTo8 (16 + arrayLen)
  let marker := if e = .little then 'l'.toUInt8 else 'B'.toUInt8
  .ok ([marker, 2, 1, 1] ++ e.bytes 4 (body.length % 2 ^ 32)
    ++ e.bytes 4 ((request.header.serial + 1000000) % 2 ^ 32)
    ++ fieldsEncoded ++ zeros padding ++ body)

/-- Builds the reply to a `ListNames` call. -/
def buildListNamesResponse (z : Zvariant) (originalRequest : Message)
    (names : List Text) : Result Bytes := do
  let body ← orZvariant (z.encodeStrings originalRequest.header.endian 0
    names)
  buildMethodReturn z originalRequest body [.array .str]

end DbusRouter.Model
