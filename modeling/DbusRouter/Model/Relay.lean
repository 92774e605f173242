/-
The forward loop over its sockets (`session.rs`, `dbus/socket.rs`).

`ForwardLoop` takes whole messages and gives whole writes. Here a turn is
what the sockets see of it: `select!` waits for the three reads at once,
one of them completes, and the futures of the others are dropped where they
wait. Then the writes of the turn are made one after the other, and the next
turn starts with three new reads on the same readers.

Which read completes first is up to the peers and the kernel. Of the order
in which `select!` polls its branches nothing is assumed, so every choice the
code can make is a run. A read may also fail because `recvmsg` does, or
because of what it brings.
-/
import DbusRouter.Model.Loop
import DbusRouter.Model.Task
import DbusRouter.Model.Writer

namespace DbusRouter.Model

open Wire Lib

-- =================================================================== reading

deriving instance DecidableEq for ReadResult

/-- How the read that completes ends. -/
inductive ReadEnd where
  /-- by itself, with all that arrives for it -/
  | returns
  /-- `recvmsg` fails where it waits -/
  | recvFails (text : Text)
  /-- `recvmsg` refuses the descriptors of what it brings there, and drops
  what it brings -/
  | recvRefuses (c : Chunk)
  deriving DecidableEq, Repr

/-- The reader of a read that waits behind all this. -/
def readWaiting (z : Zvariant) (r : DbusReader) (ws : List Wait) :
    Option DbusReader :=
  match readMessageCall z r ws with
  | .ok (.dropped r' []) => some r'
  | _ => none

/-- The reader of a read that returns an error behind all this. What it has
received stays there. A message whose descriptors are not there is consumed
before they are asked for. -/
def readFailed (r : DbusReader) (ws : List Wait) : Option DbusReader :=
  match r.fillCall minHeaderSize ws with
  | .ok (.returned true r rest) =>
      match r.head minHeaderSize >>= Prologue.parse with
      | .ok prologue =>
          match r.fillCall prologue.totalLen rest with
          | .ok (.returned true r []) =>
              match r.consume prologue.totalLen with
              | .ok r => some r
              | _ => none
          | .ok (.returned false r []) => some r
          | _ => none
      | _ => if rest.isEmpty then some r else none
  | _ => none

/-- The read that completes, on all that arrives for it: what it returns, and
the reader it leaves. -/
def readCompleted (z : Zvariant) (r : DbusReader) (ws : List Wait) :
    ReadEnd → Option (ReadResult × DbusReader)
  | .returns =>
      match readMessageCall z r ws with
      | .ok (.returned (some msg) r' []) => some (.message msg, r')
      | .ok (.returned none r' []) => some (.disconnected, r')
      | .err e => (readFailed r ws).map (.failed e, ·)
      | _ => none
  | .recvFails text => (readWaiting z r ws).map (.failed (.io text), ·)
  | .recvRefuses c =>
      match readWaiting z r ws with
      | some r' =>
          match c.bytes, r'.recvmsgOnce c with
          | _ :: _, .err e => some (.failed e, r')
          | _, _ => none
      | none => none

/-- A read that another one is quicker than: it was not polled yet, or it is
dropped where it waits. -/
def readDropped (z : Zvariant) (r : DbusReader) (ws : List Wait) :
    Option DbusReader :=
  if ws.isEmpty then some r else readWaiting z r ws

-- =================================================================== writing

/-- What a socket is given, and which one. -/
structure Put where
  peer : Peer
  segment : Segment
  deriving DecidableEq, Repr

/-- The writes of a turn, one `send` after the other, each with what its
`sendmsg` calls do: what the sockets are given, and whether every `send` has
returned without an error. -/
def sendAll : List Write → List (List Sendmsg) → List Put × Bool
  | [], _ => ([], true)
  | w :: ws, sends =>
      let run := DbusWriter.sendCalls (sends.headD []) w.raw w.fds
      let put := run.sent.map (⟨w.peer, ·⟩)
      if run.returned = some (.ok ()) then
        let (puts, made) := sendAll ws sends.tail
        (put ++ puts, made)
      else (put, false)

-- ===================================================================== turns

/-- The loop and the readers of its sockets. -/
structure Relay where
  loop : ForwardLoop
  readers : Peer → DbusReader

/-- A session that has read nothing yet. -/
def Session.relay (L : Libs) (s : Session) : Relay where
  loop := s.forwardLoop L
  readers := fun _ => .new

/-- What happens at the sockets in one turn. -/
structure Round where
  /-- whose read completes -/
  ready : Peer
  ending : ReadEnd
  /-- what arrives for the read of each peer, and whether that is dropped -/
  waits : Peer → List Wait
  /-- the `sendmsg` calls of each write -/
  sends : List (List Sendmsg)

/-- What a turn does at the sockets. -/
structure Relayed where
  /-- what the completed read returned -/
  read : ReadResult
  /-- the writes of the message read -/
  writes : List Write
  /-- what the sockets were given -/
  puts : List Put

/-- A turn up to its writes: one read completes, the others are dropped, and
a sandbox that has gone is not read. -/
structure Relay.Turns (L : Libs) (R : Relay) (i : Round) (o : Relayed)
    (R' : Relay) : Prop where
  enabled : R.loop.sandboxActive = false →
    i.ready ≠ .bus .sandbox ∧ i.waits (.bus .sandbox) = []
  completed : readCompleted L.zvariant (R.readers i.ready)
    (i.waits i.ready) i.ending = some (o.read, R'.readers i.ready)
  dropped : ∀ p, p ≠ i.ready →
    readDropped L.zvariant (R.readers p) (i.waits p) = some (R'.readers p)
  handled : R.loop.turn L i.ready o.read = .ok (.next R'.loop o.writes)
  puts_eq : o.puts = (sendAll o.writes i.sends).1

/-- A turn whose writes are all made, so that the next one starts. -/
def Relay.Step (L : Libs) (R : Relay) (i : Round) (o : Relayed)
    (R' : Relay) : Prop :=
  R.Turns L i o R' ∧ (sendAll o.writes i.sends).2 = true

/-- What the loop does at its sockets, turn by turn. -/
abbrev RelayRun (L : Libs) :=
  Steps (Relay.Step L)

-- ================================================================ the sockets

/-- What has been put on a peer's socket. -/
def putOn (p : Peer) (puts : List Put) : List Segment :=
  (puts.filter (·.peer = p)).map (·.segment)

abbrev RelayTrace := List (Round × Relayed)

/-- The messages read from a peer. -/
def takenFrom (p : Peer) (t : RelayTrace) : List Message :=
  t.filterMap fun x =>
    match x.2.read with
    | .message msg => if x.1.ready = p then some msg else none
    | _ => none

/-- The messages written to a peer. -/
def writesFor (p : Peer) (t : RelayTrace) : List Write :=
  t.flatMap fun x => x.2.writes.filter (·.peer = p)

/-- What the sockets were given, in order. -/
def putsOf (t : RelayTrace) : List Put :=
  t.flatMap (·.2.puts)

/-- The chunks that the reader of a peer has received. -/
def arrivedFrom (p : Peer) (t : RelayTrace) : List Chunk :=
  t.flatMap fun x => chunks (x.1.waits p)

end DbusRouter.Model
