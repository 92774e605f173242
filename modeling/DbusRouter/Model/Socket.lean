/-
Unix socket IO with file-descriptor passing (`dbus/socket.rs`).

The kernel is a parameter. To a reader it is the list of what the next
`recvmsg` calls return, with end of file after the last; to a writer it is
how many bytes each `sendmsg` accepts. A call that would block is retried
by the code and leaves no trace, so it has no place in either list.
`Delivered` says which lists the kernel may return for what was sent.

Descriptors are opaque numbers. The reader is a byte buffer with the
offset of its first unconsumed byte, and a FIFO of received descriptors.
-/
import DbusRouter.Model.Error
import DbusRouter.Wire.Bytes

namespace DbusRouter.Model

open Wire Lib

/-- A file descriptor. -/
abbrev Fd := Nat

/-- Maximum fds accepted in a single message. -/
def maxFdsPerMessage : Nat := 64

-- ================================================================ reading

/-- What one `recvmsg` returns: bytes, none at the end of the stream, and
the descriptors of the control message. -/
structure Chunk where
  bytes : Bytes
  fds : List Fd
  deriving DecidableEq, Repr

/-- Read side of a connection. -/
structure DbusReader where
  /-- bytes received but not yet consumed by message parsing -/
  buf : Bytes
  /-- start of unconsumed data in `buf` -/
  start : Nat
  /-- descriptors received but not yet bound to a message -/
  fdq : List Fd
  deriving DecidableEq, Repr

namespace DbusReader

def new : DbusReader := ⟨[], 0, []⟩

/-- Number of buffered, unconsumed bytes. -/
def avail (r : DbusReader) : Result Nat := subUsize r.buf.length r.start

/-- One `recvmsg`: appends bytes to `buf` and fds to `fdq`. More than 64
descriptors do not fit the control buffer, so the kernel truncates. -/
def recvmsgOnce (c : Chunk) (r : DbusReader) : Result DbusReader :=
  if c.fds.length > maxFdsPerMessage then
    .err (.io (utf8 "control message truncated: too many fds in flight"))
  else if r.fdq.length + c.fds.length > maxFdsPerMessage then
    .err (.io (utf8 "received more fds than allowed"))
  else .ok { r with fdq := r.fdq ++ c.fds, buf := r.buf ++ c.bytes }

/-- Ensures that `n` unconsumed bytes are buffered; `false` on end of file
before that. -/
def fill (n : Nat) : List Chunk → DbusReader →
    Result (Bool × DbusReader × List Chunk)
  | [], r => do
      let buffered ← r.avail
      .ok (decide (n ≤ buffered), r, [])
  | c :: cs, r => do
      let buffered ← r.avail
      if n ≤ buffered then .ok (true, r, c :: cs)
      else if c.bytes.isEmpty then .ok (false, r, cs)
      else do
        let r ← r.recvmsgOnce c
        fill n cs r

/-- The first `n` unconsumed bytes. -/
def head (r : DbusReader) (n : Nat) : Result Bytes := do
  let stop ← addUsize r.start n
  slice r.buf r.start stop

/-- Consumes `n` buffered bytes, compacting the buffer occasionally. -/
def consume (r : DbusReader) (n : Nat) : Result DbusReader := do
  let start ← addUsize r.start n
  if start = r.buf.length then .ok { r with buf := [], start := 0 }
  else if start > 64 * 1024 then do
    let rest ← sliceFrom r.buf start
    .ok { r with buf := rest, start := 0 }
  else .ok { r with start := start }

/-- Takes exactly `n` descriptors off the queue. -/
def takeFds (r : DbusReader) (n : Nat) : Result (List Fd × DbusReader) :=
  if r.fdq.length < n then
    .err (.io (utf8 "message declares " ++ decimal n ++ utf8 " fds but only "
      ++ decimal r.fdq.length ++ utf8 " received"))
  else .ok (r.fdq.take n, { r with fdq := r.fdq.drop n })

end DbusReader

-- ================================================================ writing

/-- What one accepted `sendmsg` put on the stream. -/
structure Segment where
  bytes : Bytes
  fds : List Fd
  deriving DecidableEq, Repr

/-- Flushes `data`, the descriptors with its first accepted bytes. Each
number is what the kernel accepts of one call; it never accepts more than
it is given. -/
def flush : List Nat → Bytes → List Fd → Result (List Segment)
  | _, [], _ => .ok []
  | [], _ :: _, _ => .err (.io (utf8 "connection closed"))
  | 0 :: _, _ :: _, _ => .err (.io (utf8 "failed to write any bytes"))
  | (n + 1) :: ns, b :: data, fds => do
      let rest ← flush ns ((b :: data).drop (n + 1)) []
      .ok (⟨(b :: data).take (n + 1), fds⟩ :: rest)

/-- Sends one complete message, attaching `fds`. -/
def DbusWriter.send (accepts : List Nat) (data : Bytes) (fds : List Fd) :
    Result (List Segment) :=
  if fds.length > maxFdsPerMessage then
    .err (.io (utf8 "message carries " ++ decimal fds.length
      ++ utf8 " fds, max " ++ decimal maxFdsPerMessage))
  else flush accepts data fds

-- ============================================================== the kernel

/-- A byte on the stream. The first byte of each `sendmsg` has its
descriptors attached. -/
structure StreamByte where
  byte : UInt8
  attached : Option (List Fd)
  deriving DecidableEq, Repr

def StreamByte.fds (b : StreamByte) : List Fd := b.attached.getD []

/-- What a `sendmsg` puts on the stream. -/
def Segment.stream (s : Segment) : List StreamByte :=
  match s.bytes with
  | [] => []
  | b :: bytes => ⟨b, some s.fds⟩ :: bytes.map (⟨·, none⟩)

/-- A part of the stream that one `recvmsg` may return: as much as its
buffer holds, up to the end of the first `sendmsg` that has descriptors. -/
def Receivable (piece : List StreamByte) : Prop :=
  piece ≠ [] ∧ piece.length ≤ 64 * 1024
    ∧ piece.Pairwise fun b later => b.fds ≠ [] → later.attached = none

instance (piece : List StreamByte) : Decidable (Receivable piece) :=
  inferInstanceAs (Decidable (_ ∧ _ ∧ _))

/-- How it returns it. -/
def received (piece : List StreamByte) : Chunk :=
  ⟨piece.map (·.byte), piece.flatMap (·.fds)⟩

/-- The chunks in which the kernel may return what was sent. -/
def Delivered (segments : List Segment) (cs : List Chunk) : Prop :=
  ∃ pieces : List (List StreamByte),
    pieces.flatten = segments.flatMap Segment.stream
      ∧ (∀ piece ∈ pieces, Receivable piece) ∧ cs = pieces.map received

end DbusRouter.Model
