/-
The forward loop of a session (`session.rs`).

One turn takes the result of one read and handles it. Which of the reads
that are ready is taken is the business of `select!`, and which are ready
that of the peers: a run of the loop takes them in any order. Once the
sandbox bus is gone its branch is disabled.
-/
import DbusRouter.Model.Session

namespace DbusRouter.Model

open Wire Lib

/-- What `read_message_from` returns. -/
inductive ReadResult where
  /-- `Ok(Some(msg))` -/
  | message (msg : Message)
  /-- `Ok(None)` -/
  | disconnected
  /-- `Err(e)` -/
  | failed (e : Error)

/-- The variables of the loop. -/
structure ForwardLoop where
  session : Session
  /-- such a client outlives the sandbox bus going away -/
  isHostpass : Bool
  sandboxActive : Bool

/-- Where `forward_loop` starts. -/
def Session.forwardLoop (L : Libs) (s : Session) : ForwardLoop where
  session := s
  isHostpass := Model.isHostpass L.glob s.config s.clientExePath
  sandboxActive := true

/-- How a turn ends that ends without an error. -/
inductive Turn where
  /-- with another one -/
  | next (l : ForwardLoop) (ws : List Write)
  /-- with `return Ok(())` -/
  | returned

/-- The turn that has handled a message. -/
def ForwardLoop.handled (l : ForwardLoop) (r : Session × List Write) :
    Turn :=
  .next { l with session := r.1 } r.2

/-- One turn of the loop, on what a peer's reader returns. -/
def ForwardLoop.turn (L : Libs) (l : ForwardLoop) :
    Peer → ReadResult → Result Turn
  | .client, .message msg => do
      let r ← l.session.handleClientMessage L msg
      .ok (l.handled r)
  | .client, _ => .ok .returned
  | .bus .host, .message msg => do
      let r ← l.session.handleUpstreamMessage L msg .host
      .ok (l.handled r)
  | .bus .host, _ => .ok .returned
  | .bus .sandbox, .message msg => do
      let r ← l.session.handleUpstreamMessage L msg .sandbox
      .ok (l.handled r)
  | .bus .sandbox, _ =>
      if !l.isHostpass then .ok .returned
      else .ok (.next { l with sandboxActive := false } [])

/-- A turn the loop can take, and after which it goes on. -/
def ForwardLoop.Step (L : Libs) (l : ForwardLoop) (i : Peer × ReadResult)
    (ws : List Write) (l' : ForwardLoop) : Prop :=
  (i.1 = .bus .sandbox → l.sandboxActive = true)
    ∧ (∀ msg, i.2 = .message msg → msg.Accepted L.zvariant)
    ∧ l.turn L i.1 i.2 = .ok (.next l' ws)

/-- What the loop does on a sequence of reads, with what it writes on each of
them. -/
abbrev LoopRun (L : Libs) :=
  Steps (ForwardLoop.Step L)

end DbusRouter.Model
