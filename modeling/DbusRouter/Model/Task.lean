/-
Reading as a task that may be dropped (`dbus/socket.rs`,
`dbus/message.rs`).

The `select!` of the forward loop drops the futures of the branches that
did not complete. A dropped call loses its local variables and keeps what
is in the reader. It can only be dropped where it waits, and the one place
where `read_message_from` waits is `recv_some`, inside `fill`: so a call is
the code between two waits, and a script says of each wait whether a chunk
arrives in it or the call is dropped.
-/
import DbusRouter.Model.Message

namespace DbusRouter.Model

open Wire Lib

/-- How a wait for data ends. -/
inductive Wait where
  /-- `recvmsg` returns this -/
  | chunk (c : Chunk)
  /-- the future is dropped -/
  | dropped
  deriving DecidableEq, Repr

/-- The chunks of a script. -/
def chunks : List Wait → List Chunk
  | [] => []
  | .chunk c :: ws => c :: chunks ws
  | .dropped :: ws => chunks ws

/-- How often a script drops the future. -/
def drops : List Wait → Nat
  | [] => 0
  | .chunk _ :: ws => drops ws
  | .dropped :: ws => drops ws + 1

/-- What becomes of a call: it returns a value or is dropped. Either way
the reader is left, and the rest of the script. -/
inductive Call (α : Type) where
  | returned (a : α) (r : DbusReader) (rest : List Wait)
  | dropped (r : DbusReader) (rest : List Wait)

/-- `fill`, with the bytes received so far left in the buffer when the
call is dropped. -/
def DbusReader.fillCall (n : Nat) : List Wait → DbusReader →
    Result (Call Bool)
  | [], r => do
      let buffered ← r.avail
      .ok (.returned (decide (n ≤ buffered)) r [])
  | .dropped :: ws, r => do
      let buffered ← r.avail
      if n ≤ buffered then .ok (.returned true r (.dropped :: ws))
      else .ok (.dropped r ws)
  | .chunk c :: ws, r => do
      let buffered ← r.avail
      if n ≤ buffered then .ok (.returned true r (.chunk c :: ws))
      else if c.bytes.isEmpty then .ok (.returned false r ws)
      else do
        let r ← r.recvmsgOnce c
        fillCall n ws r

/-- `read_message_from` behind its first wait. -/
def readMessageBody (z : Zvariant) (r : DbusReader) (ws : List Wait) :
    Result (Call (Option Message)) := do
  let prologue ← Prologue.parse (← r.head minHeaderSize)
  let total := prologue.totalLen
  match ← r.fillCall total ws with
  | .dropped r ws => .ok (.dropped r ws)
  | .returned false _ _ =>
      .err (.protocol (utf8 "Connection closed in the middle of a message"))
  | .returned true r ws => do
      let raw ← r.head total
      let r ← r.consume total
      let buf ← slice raw minHeaderSize prologue.headerEnd
      let fields := parseHeaderFields z buf prologue.endian
      let (fds, r) ← takeDeclaredFds r fields.unixFds
      .ok (.returned (some ⟨prologue.intoHeader fields, raw, fds⟩) r ws)

/-- `read_message_from`. -/
def readMessageCall (z : Zvariant) (r : DbusReader) (ws : List Wait) :
    Result (Call (Option Message)) := do
  match ← r.fillCall minHeaderSize ws with
  | .dropped r ws => .ok (.dropped r ws)
  | .returned false r ws => .ok (.returned none r ws)
  | .returned true r ws => readMessageBody z r ws

/-- `n` calls, each made when the one before has returned or has been
dropped, with what those that return give. -/
def readCalls (z : Zvariant) : Nat → DbusReader → List Wait →
    Result (List (Option Message) × DbusReader × List Wait)
  | 0, r, ws => .ok ([], r, ws)
  | n + 1, r, ws => do
      match ← readMessageCall z r ws with
      | .dropped r ws => readCalls z n r ws
      | .returned m r ws => do
          let (ms, r, ws) ← readCalls z n r ws
          .ok (m :: ms, r, ws)

end DbusRouter.Model
