/-
Writing as a sequence of `sendmsg` calls (`dbus/socket.rs`).

`flush` knows of a write only how many bytes each accepting call takes.
Here the writer makes the calls: each would block, takes some bytes of what
it is offered, or fails, and the script says which. A wait for the socket
that fails ends the call as a failed `sendmsg` does. While the script has no
call left the writer waits.

The offset never passes the end of the data, so neither its sum nor the
slice behind it can panic.
-/
import DbusRouter.Model.Socket

namespace DbusRouter.Model

open Wire Lib

/-- What one `sendmsg` does. -/
inductive Sendmsg where
  | wouldBlock
  /-- takes `n` bytes, or all that it is offered when these are fewer -/
  | accepts (n : Nat)
  | fails (text : Text)
  deriving DecidableEq, Repr

/-- What becomes of a call of `send`: what the kernel took of it, and what
it returned, `none` while it waits. -/
structure SendRun where
  sent : List Segment
  returned : Option (Result Unit)
  deriving DecidableEq, Repr

namespace DbusWriter

/-- One non-blocking sendmsg: what it puts on the stream, whose length is
the count it returns, or `none` when it would block. -/
def sendmsgOnce (data : Bytes) (fds : List Fd) :
    Sendmsg → Option (Result Segment)
  | .wouldBlock => none
  | .accepts n => some (.ok ⟨data.take n, fds⟩)
  | .fails text => some (.err (.io text))

/-- One sendmsg attempt, waiting for writability on WouldBlock. The calls
that it did not make are left. -/
def sendmsgSome (data : Bytes) (fds : List Fd) :
    List Sendmsg → Option (Result Segment × List Sendmsg)
  | [] => none
  | call :: calls =>
      match sendmsgOnce data fds call with
      | some result => some (result, calls)
      | none => sendmsgSome data fds calls

/-- The loop of `send`. An iteration takes a call at least off the script,
so as many iterations as it has calls are enough. -/
def sendLoop (data : Bytes) (fds : List Fd) :
    Nat → Nat → Bool → List Sendmsg → SendRun
  | 0, off, _, _ =>
      if off < data.length then ⟨[], none⟩ else ⟨[], some (.ok ())⟩
  | iterations + 1, off, fdsPending, calls =>
      if off < data.length then
        let chunk := data.drop off
        let sendFds := if fdsPending then fds else []
        match sendmsgSome chunk sendFds calls with
        | none => ⟨[], none⟩
        | some (.err e, _) => ⟨[], some (.err e)⟩
        | some (.panic p, _) => ⟨[], some (.panic p)⟩
        | some (.ok segment, calls) =>
            let n := segment.bytes.length
            if n = 0 then
              ⟨[], some (.err (.io (utf8 "failed to write any bytes")))⟩
            else
              -- any accepted byte means that the fds were delivered
              let run := sendLoop data fds iterations (off + n) false calls
              { run with sent := segment :: run.sent }
      else ⟨[], some (.ok ())⟩

/-- `send`, with the calls that it makes. -/
def sendCalls (calls : List Sendmsg) (data : Bytes) (fds : List Fd) :
    SendRun :=
  if fds.length > maxFdsPerMessage then
    ⟨[], some (.err (.io (utf8 "message carries " ++ decimal fds.length
      ++ utf8 " fds, max " ++ decimal maxFdsPerMessage)))⟩
  else sendLoop data fds calls.length 0 (!fds.isEmpty) calls

end DbusWriter

end DbusRouter.Model
