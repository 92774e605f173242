/-
A session from its first byte to its last (`session.rs`).

`Session::run` has three phases, one behind the other on the same three
sockets: the client and the sandbox bus authenticate through the router, the
router authenticates with the host bus, and messages are forwarded. The
first two read a byte at a time and hold nothing back, so a phase finds each
socket where the one before has left it.
-/
import DbusRouter.Model.HostAuth
import DbusRouter.Model.Relay

namespace DbusRouter.Model

open Wire Lib

/-- What a session does that has got to forwarding: its authentication, its
conversation with the host, and its turns. -/
structure Life where
  auth : AuthTrace
  host : List (Act UInt8)
  relay : RelayTrace

/-- `Session::run`, as far as it has got. Whether the client is a hostpass
client decides whether the router calls `Hello` for it. -/
structure Life.Runs (L : Libs) (uid : Nat) (s : Session) (life : Life)
    (R : Relay) : Prop where
  passthrough : Steps AuthState.Step .start life.auth .done
  handshake : Dialog.Holds (authHostBus L.zvariant uid
    (isHostpass L.glob s.config s.clientExePath)) life.host (.ok ())
  forwarding : RelayRun L (s.relay L) life.relay R

/-- The bytes that are read from a peer before messages are forwarded. -/
def Life.early (life : Life) : Peer → Bytes
  | .client => readFromClient life.auth
  | .bus .host => Dialog.heard life.host
  | .bus .sandbox => readFromBus life.auth

/-- The bytes that are written to a peer before messages are forwarded. -/
def Life.greeting (life : Life) : Peer → Bytes
  | .client => (writesToClient life.auth).flatten
  | .bus .host => Dialog.written life.host
  | .bus .sandbox => (writesToBus life.auth).flatten

/-- A socket on which `sent` is sent hands out a first part byte by byte,
whatever descriptors come with it, and then chunks. The end of the stream
comes behind all that was sent. -/
def HandsOut (sent : List StreamByte) (early : Bytes) (cs : List Chunk) :
    Prop :=
  ∃ (front : List StreamByte) (pieces : List (List StreamByte))
    (rest : List StreamByte),
    sent = front ++ (pieces.flatten ++ rest) ∧ front.map (·.byte) = early
      ∧ (∀ piece ∈ pieces, Receivable piece)
      ∧ (cs = pieces.map received
        ∨ rest = [] ∧ cs = pieces.map received ++ [⟨[], []⟩])

end DbusRouter.Model
