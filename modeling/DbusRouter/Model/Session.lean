/-
A client session (`session.rs`): one client, two upstream buses, and the
maps that remember what was sent where.

The session is a state machine. An event is a message that arrives from
the client or from a bus; handling it gives the next state and what is
written. Writes are assumed to succeed, except that a message with more
than 64 descriptors is refused. `Step` is one event of an accepted message
handled without an error, so a run (`Lib.Steps` of `Step`) is what one
session does until it ends.

Log output is left out: no log argument can panic.
-/
import DbusRouter.Lib.PMap
import DbusRouter.Lib.Run
import DbusRouter.Model.Routing

namespace DbusRouter.Model

open Wire Lib

-- ================================================================== state

/-- Info about a pending call, for response rewriting. -/
structure PendingCallInfo where
  /-- which bus the call was sent to -/
  bus : Bus
  /-- the method name of the call -/
  member : Option Text
  deriving DecidableEq, Repr

/-- Pending merge of two `ListNames` replies. -/
structure PendingMerge where
  /-- the original request -/
  originalRequest : Message
  /-- the first reply received -/
  firstResponse : Option (Bus × List Text)
  deriving DecidableEq, Repr

/-- The merge with its first reply in. -/
def PendingMerge.answered (pending : PendingMerge) (bus : Bus)
    (names : List Text) : PendingMerge :=
  { pending with firstResponse := some (bus, names) }

/-- The third-party code a session calls. -/
structure Libs where
  zvariant : Zvariant
  glob : Glob

/-- A client session. -/
structure Session where
  /-- routing configuration -/
  config : Config
  /-- which bus each outgoing serial was sent to -/
  pendingCalls : PMap Nat PendingCallInfo
  /-- client process executable path -/
  clientExePath : Option Bytes
  /-- services exported by this client to the host bus -/
  exportedServices : List Text
  /-- services registered by this client on the sandbox bus -/
  sandboxServices : List Text
  /-- incoming calls from upstream buses (serial to source bus) -/
  incomingCalls : PMap Nat Bus
  /-- pending merges (serial to state) -/
  pendingMerges : PMap Nat PendingMerge

/-- A session that has forwarded nothing yet. -/
def Session.new (config : Config) (clientExePath : Option Bytes) :
    Session where
  config := config
  pendingCalls := PMap.empty
  clientExePath := clientExePath
  exportedServices := []
  sandboxServices := []
  incomingCalls := PMap.empty
  pendingMerges := PMap.empty

/-- The sockets of a session. -/
inductive Peer where
  | client
  | bus (b : Bus)
  deriving DecidableEq, Repr

/-- One message written to a socket. -/
structure Write where
  peer : Peer
  raw : Bytes
  fds : List Fd
  deriving DecidableEq, Repr

/-- `DbusWriter::send` to a socket that accepts everything. -/
def send (peer : Peer) (raw : Bytes) (fds : List Fd) :
    Result (List Write) :=
  if fds.length > maxFdsPerMessage then
    .err (.io (utf8 "message carries " ++ decimal fds.length
      ++ utf8 " fds, max " ++ decimal maxFdsPerMessage))
  else .ok [⟨peer, raw, fds⟩]

/-- `Upstreams::send_both`. -/
def sendBoth (raw : Bytes) (fds : List Fd) : Result (List Write) := do
  let host ← send (.bus .host) raw fds
  let sandbox ← send (.bus .sandbox) raw fds
  .ok (host ++ sandbox)

-- ========================================================= towards a client

/-- Rewrites a method return's body if the call it answers returns unique
names. -/
def rewriteMethodReturnBody (z : Zvariant) (msg : Message) (sourceBus : Bus)
    (pendingCalls : PMap Nat PendingCallInfo) : Result Bytes :=
  match msg.header.replySerial.bind pendingCalls with
  | none => .ok msg.raw
  | some callInfo =>
      if callInfo.bus ≠ sourceBus then .ok msg.raw
      else
        match callInfo.member with
        | none => .ok msg.raw
        | some member =>
            if !needsResponseRewrite member then .ok msg.raw
            else if member = utf8 "ListQueuedOwners" then
              (rewriteStringArrayResponse z msg sourceBus).orElse msg.raw
            else (rewriteSingleNameResponse msg sourceBus).orElse msg.raw

/-- Rewrites a signal's body if its member carries unique names. -/
def rewriteSignalBody (z : Zvariant) (msg : Message) (sourceBus : Bus) :
    Result Bytes :=
  match msg.header.member with
  | none => .ok msg.raw
  | some member =>
      if !signalNeedsRewrite member then .ok msg.raw
      else (rewriteNameOwnerChanged z msg sourceBus).orElse msg.raw

/-- Body rewriting by message type. -/
def rewriteBodyForClient (z : Zvariant) (msg : Message) (sourceBus : Bus)
    (pendingCalls : PMap Nat PendingCallInfo) : Result Bytes :=
  match msg.header.msgType with
  | .methodReturn => rewriteMethodReturnBody z msg sourceBus pendingCalls
  | .signal => rewriteSignalBody z msg sourceBus
  | _ => .ok msg.raw

/-- Rewrites sender and body of a message for the client, keeping its
descriptors. -/
def prepareMessageForClient (z : Zvariant) (msg : Message) (sourceBus : Bus)
    (pendingCalls : PMap Nat PendingCallInfo) :
    Result (Bytes × List Fd) := do
  let msgForClient ← (rewriteMessageHeader msg .toClient sourceBus).orElse msg
  let raw ← rewriteBodyForClient z msgForClient sourceBus pendingCalls
  .ok (raw, msg.fds)

/-- What a message from a bus means for a pending merge. -/
inductive MergeOutcome where
  /-- not part of a merge -/
  | notMerging
  /-- first of the two replies; nothing to send yet -/
  | awaiting
  /-- both replies are in; send these bytes -/
  | merged (raw : Bytes)
  deriving DecidableEq, Repr

/-- Enters a message into the merge its reply serial belongs to. -/
def processMergeResponse (z : Zvariant) (msg : Message) (sourceBus : Bus)
    (pendingMerges : PMap Nat PendingMerge) :
    Result (MergeOutcome × PMap Nat PendingMerge) :=
  match msg.header.replySerial with
  | none => .ok (.notMerging, pendingMerges)
  | some replySerial =>
      match pendingMerges replySerial with
      | none => .ok (.notMerging, pendingMerges)
      | some pending => do
          let names ← (parseStringArray z msg).orElse []
          match pending.firstResponse with
          | none =>
              .ok (.awaiting, pendingMerges.insert replySerial
                (pending.answered sourceBus names))
          | some (firstBus, firstNames) => do
              let merged := if firstBus = .host
                then mergeListNames firstNames names
                else mergeListNames names firstNames
              let response ← (buildListNamesResponse z
                pending.originalRequest merged).orElse msg.raw
              .ok (.merged response, pendingMerges.remove replySerial)

/-- A call from a bus to a name this client owns on that same bus. -/
def Session.isIncomingServiceCall (s : Session) (msg : Message)
    (sourceBus : Bus) : Bool :=
  msg.header.msgType == .methodCall &&
    match msg.header.destination with
    | none => false
    | some dest =>
        match sourceBus with
        | .host => s.exportedServices.contains dest
        | .sandbox => s.sandboxServices.contains dest

/-- A service call as the client is to see it: only sandbox peers get the
prefix here. -/
def serviceCallMessage (msg : Message) (sourceBus : Bus) :
    Result Message :=
  if sourceBus = .sandbox then
    (rewriteMessageHeader msg .toClient sourceBus).orElse msg
  else .ok msg

/-- Handles a message from an upstream bus. -/
def Session.handleUpstreamMessage (L : Libs) (s : Session) (msg : Message)
    (sourceBus : Bus) : Result (Session × List Write) :=
  if s.isIncomingServiceCall msg sourceBus then do
    let msgForClient ← serviceCallMessage msg sourceBus
    let ws ← send .client msgForClient.raw msg.fds
    .ok ({ s with
      incomingCalls := s.incomingCalls.insert msg.header.serial sourceBus },
      ws)
  else do
    let (outcome, pendingMerges) ← processMergeResponse L.zvariant msg
      sourceBus s.pendingMerges
    let s := { s with pendingMerges := pendingMerges }
    match outcome with
    | .awaiting => .ok (s, [])
    | .merged response => do
        let ws ← send .client response []
        .ok (s, ws)
    | .notMerging => do
        let (raw, fds) ← prepareMessageForClient L.zvariant msg sourceBus
          s.pendingCalls
        let ws ← send .client raw fds
        .ok (s, ws)

-- ========================================================== towards a bus

def isMatchRuleMember (member : Text) : Bool :=
  member == utf8 "AddMatch" || member == utf8 "RemoveMatch"

/-- A match-rule body with the client's sender rewritten; the original
bytes when there is nothing to rewrite, or when rewriting fails. -/
def matchRuleBodyOrOriginal (msg : Message) : Result Bytes := do
  let rewritten ← (rewriteMatchRuleBody msg).orElse none
  .ok (rewritten.getD msg.raw)

/-- Body rewrites for calls addressed to the bus daemon itself. -/
def rewriteRequestBody (msg : Message) : Result Bytes :=
  if msg.header.destination ≠ some busName then .ok msg.raw
  else
    match msg.header.member with
    | none => .ok msg.raw
    | some member =>
        if needsRequestRewrite member then do
          let (raw, _) ← (rewriteUniqueNameRequest msg).orElse
            (msg.raw, .sandbox)
          .ok raw
        else if isMatchRuleMember member then matchRuleBodyOrOriginal msg
        else .ok msg.raw

/-- A reply or error that answers a call which came in from a bus goes
back to that bus; `none` when it answers no such call. -/
def Session.forwardReplyToCaller (s : Session) (msg : Message) :
    Result (Option (Session × List Write)) :=
  if msg.header.msgType ≠ .methodReturn ∧ msg.header.msgType ≠ .error then
    .ok none
  else
    match msg.header.replySerial with
    | none => .ok none
    | some replySerial =>
        match s.incomingCalls replySerial with
        | none => .ok none
        | some sourceBus => do
            let msgForBus ← (rewriteMessageHeader msg .toUpstream
              sourceBus).orElse msg
            let ws ← send (.bus sourceBus) msgForBus.raw msg.fds
            .ok (some ({ s with
              incomingCalls := s.incomingCalls.remove replySerial }, ws))

/-- Remembers which bus a `RequestName` went to. -/
def Session.trackExportedService (s : Session) (msg : Message)
    (decision : RouteDecision) : Result Session :=
  if !msg.isRequestName then .ok s
  else do
    match ← msg.extractNameFromBody with
    | none => .ok s
    | some name =>
        match decision with
        | .single .host =>
            .ok { s with exportedServices := name :: s.exportedServices }
        | .single .sandbox =>
            .ok { s with sandboxServices := name :: s.sandboxServices }
        | _ => .ok s

/-- Remembers a forwarded call. -/
def Session.rememberCall (s : Session) (msg : Message) (bus : Bus) :
    Session :=
  { s with
    pendingCalls := s.pendingCalls.insert msg.header.serial
      ⟨bus, msg.header.member⟩ }

/-- Forwards a message to one bus. -/
def Session.forwardToBus (s : Session) (msg : Message) (target : Bus) :
    Result (Session × List Write) := do
  let msgForUpstream ← (rewriteMessageHeader msg .toUpstream target).orElse
    msg
  let raw ← rewriteRequestBody msgForUpstream
  let ws ← send (.bus target) raw msg.fds
  .ok (s.rememberCall msg target, ws)

/-- The bytes of a message for both buses. -/
def bytesForBoth (msg : Message) : Result Bytes :=
  if msg.header.member.any isMatchRuleMember then
    matchRuleBodyOrOriginal msg
  else .ok msg.raw

/-- Forwards a match-rule call to both buses. -/
def Session.forwardToBoth (s : Session) (msg : Message) :
    Result (Session × List Write) := do
  let raw ← bytesForBoth msg
  let ws ← sendBoth raw msg.fds
  .ok (s.rememberCall msg .sandbox, ws)

/-- Asks both buses and remembers to merge their replies. -/
def Session.forwardForMerge (s : Session) (msg : Message) :
    Result (Session × List Write) := do
  let ws ← sendBoth msg.raw msg.fds
  .ok ({ s with
    pendingMerges := s.pendingMerges.insert msg.header.serial ⟨msg, none⟩ },
    ws)

/-- Routes a client message that answers no incoming call. -/
def Session.routeClientMessage (L : Libs) (s : Session) (msg : Message) :
    Result (Session × List Write) := do
  let decision ← routeRequest L.glob s.config msg s.clientExePath
  let s ← s.trackExportedService msg decision
  match decision with
  | .single target => s.forwardToBus msg target
  | .both => s.forwardToBoth msg
  | .merge => s.forwardForMerge msg

/-- Handles a message from the client. -/
def Session.handleClientMessage (L : Libs) (s : Session) (msg : Message) :
    Result (Session × List Write) := do
  match ← s.forwardReplyToCaller msg with
  | some result => .ok result
  | none => s.routeClientMessage L msg

-- =================================================================== runs

/-- A message that arrives at the session. -/
inductive Event where
  | client (msg : Message)
  | bus (b : Bus) (msg : Message)
  deriving DecidableEq, Repr

def Event.msg : Event → Message
  | .client msg => msg
  | .bus _ msg => msg

/-- Handles one event. -/
def Session.handle (L : Libs) (s : Session) : Event →
    Result (Session × List Write)
  | .client msg => s.handleClientMessage L msg
  | .bus b msg => s.handleUpstreamMessage L msg b

/-- The state after an event, and what is written on it; the same state
and nothing when the event ends the session. -/
def Session.react (L : Libs) (s : Session) (ev : Event) :
    Session × List Write :=
  match s.handle L ev with
  | .ok r => r
  | _ => (s, [])

/-- The state after a sequence of events. -/
def Session.after (L : Libs) (s : Session) (evs : List Event) : Session :=
  evs.foldl (fun s ev => (s.react L ev).1) s

/-- A sequence of events with what is written on each of them. -/
def Session.trace (L : Libs) : Session → List Event →
    List (Event × List Write)
  | _, [] => []
  | s, ev :: evs =>
      (ev, (s.react L ev).2) :: Session.trace L (s.react L ev).1 evs

/-- Whether a session handles every event of a sequence. -/
def Session.survives (L : Libs) : Session → List Event → Bool
  | _, [] => true
  | s, ev :: evs =>
      match s.handle L ev with
      | .ok (s', _) => survives L s' evs
      | _ => false

/-- One event of a run: an accepted message, handled without an error. -/
def Session.Step (L : Libs) (s : Session) (ev : Event) (ws : List Write)
    (s' : Session) : Prop :=
  ev.msg.Accepted L.zvariant ∧ s.handle L ev = .ok (s', ws)

/-- What a session does on a sequence of events, with what it writes on
each of them. -/
abbrev Run (L : Libs) :=
  Steps (Session.Step L)

end DbusRouter.Model
