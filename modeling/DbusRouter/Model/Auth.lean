/-
Authentication passthrough (`auth.rs`).

The state is what `auth_passthrough` holds between two reads of one byte:
the lines read so far by the two `read_auth_line` futures, and the two
variables of the loop. An event is the result of one such read, nothing at
the end of the stream. Which socket has a byte next is up to the two peers
and the kernel, so every order of the events is a run.

When one branch of the `select!` completes, the future of the other is
dropped and a new one is created on the next iteration: the bytes it has
read are gone from its socket and from the program.
-/
import DbusRouter.Lib.Run
import DbusRouter.Model.Error
import DbusRouter.Wire.Bytes

namespace DbusRouter.Model

open Wire Lib

def authBufferSize : Nat := 4096

-- ================================================================== lines

/-- A line ends with its first CRLF. -/
def endsLine (line : Bytes) : Bool := (utf8 "\r\n").isSuffixOf line

def isBeginLine (line : Bytes) : Bool := (utf8 "BEGIN").isPrefixOf line

def isNegotiateUnixFd (line : Bytes) : Bool :=
  (utf8 "NEGOTIATE_UNIX_FD").isPrefixOf line

def isAgreeUnixFd (line : Bytes) : Bool :=
  (utf8 "AGREE_UNIX_FD").isPrefixOf line

def isErrorLine (line : Bytes) : Bool := (utf8 "ERROR").isPrefixOf line

/-- Where a `read_auth_line` stands after a read: it goes on with what it
has, or returns a line, which is empty at the end of the stream. -/
inductive AuthLine where
  | more (result : Bytes)
  | line (line : Bytes)
  deriving DecidableEq, Repr

/-- `read_auth_line` with `result` read so far reads one byte. -/
def readAuthLine (result : Bytes) : Option UInt8 → Result AuthLine
  | none => .ok (.line [])
  | some byte =>
      if endsLine (result ++ [byte]) then .ok (.line (result ++ [byte]))
      else if (result ++ [byte]).length ≥ authBufferSize then
        .err (.auth (utf8 "Auth line too long"))
      else .ok (.more (result ++ [byte]))

-- =================================================================== the loop

/-- The variables of the loop. -/
structure AuthLoop where
  /-- what the future on the client's socket has read -/
  clientResult : Bytes
  /-- what the future on the bus's socket has read -/
  busResult : Bytes
  pendingResponses : Nat
  beginReceived : Bool
  deriving DecidableEq, Repr

inductive AuthState where
  /-- waiting for the client's null byte -/
  | start
  | loop (l : AuthLoop)
  /-- returned `Ok` -/
  | done
  deriving DecidableEq, Repr

/-- One read of one byte, or of the end of the stream. -/
inductive AuthEvent where
  | client (byte : Option UInt8)
  | bus (byte : Option UInt8)
  deriving DecidableEq, Repr

/-- What is written to the other side. -/
inductive AuthWrite where
  | toBus (bytes : Bytes)
  | toClient (bytes : Bytes)
  deriving DecidableEq, Repr

/-- The loop's next iteration, with two new futures. -/
def AuthState.next (pendingResponses : Nat) (beginReceived : Bool) : AuthState :=
  if beginReceived && pendingResponses == 0 then .done
  else .loop ⟨[], [], pendingResponses, beginReceived⟩

namespace AuthLoop

/-- The body of the client's branch. `pending_responses` is a `u32`. -/
def onClientLine (l : AuthLoop) (line : Bytes) :
    Result (AuthState × List AuthWrite) :=
  if line.isEmpty then
    .err (.auth (utf8 "Client disconnected during auth"))
  else if isNegotiateUnixFd line && l.pendingResponses + 1 == 2 ^ 32 then
    .panic .overflow
  else
    .ok (.next
      (if isNegotiateUnixFd line then l.pendingResponses + 1
        else l.pendingResponses)
      (if isBeginLine line then true else l.beginReceived), [.toBus line])

/-- The body of the bus's branch. -/
def onBusLine (l : AuthLoop) (line : Bytes) :
    Result (AuthState × List AuthWrite) :=
  if line.isEmpty then .err (.auth (utf8 "Bus disconnected during auth"))
  else
    .ok (.next
      (if isAgreeUnixFd line || isErrorLine line then l.pendingResponses - 1
        else l.pendingResponses)
      l.beginReceived, [.toClient line])

end AuthLoop

namespace AuthState

/-- The sockets that are read: the client's until its BEGIN, the bus's in
the loop. -/
def reads : AuthState → AuthEvent → Bool
  | .start, .client _ => true
  | .loop l, .client _ => !l.beginReceived
  | .loop _, .bus _ => true
  | _, _ => false

/-- `auth_passthrough` from one read to the next. -/
def authPassthrough : AuthState → AuthEvent →
    Result (AuthState × List AuthWrite)
  | .start, .client none =>
      .err (.auth (utf8 "Client disconnected before sending null byte"))
  | .start, .client (some byte) =>
      if byte ≠ 0 then
        .err (.auth (utf8 "Expected null byte, got: "
          ++ decimal byte.toNat))
      else .ok (.loop ⟨[], [], 0, false⟩, [.toBus [byte]])
  | .loop l, .client byte => do
      match ← readAuthLine l.clientResult byte with
      | .more result => .ok (.loop { l with clientResult := result }, [])
      | .line line => l.onClientLine line
  | .loop l, .bus byte => do
      match ← readAuthLine l.busResult byte with
      | .more result => .ok (.loop { l with busResult := result }, [])
      | .line line => l.onBusLine line
  | s, _ => .ok (s, [])

/-- One read, if it does not end the authentication with an error. -/
def Step (s : AuthState) (ev : AuthEvent) (ws : List AuthWrite)
    (s' : AuthState) : Prop :=
  s.reads ev = true ∧ s.authPassthrough ev = .ok (s', ws)

instance (s : AuthState) (ev : AuthEvent) (ws : List AuthWrite)
    (s' : AuthState) : Decidable (s.Step ev ws s') :=
  inferInstanceAs (Decidable (_ ∧ _))

end AuthState

-- ==================================================================== in a run

/-- The bytes an event takes from the client's socket. -/
def AuthEvent.fromClient : AuthEvent → Bytes
  | .client byte => byte.toList
  | .bus _ => []

/-- The bytes an event takes from the bus's socket. -/
def AuthEvent.fromBus : AuthEvent → Bytes
  | .client _ => []
  | .bus byte => byte.toList

/-- What goes to the client. -/
def AuthWrite.forClient : AuthWrite → List Bytes
  | .toBus _ => []
  | .toClient bytes => [bytes]

/-- What goes to the bus. -/
def AuthWrite.forBus : AuthWrite → List Bytes
  | .toBus bytes => [bytes]
  | .toClient _ => []

abbrev AuthTrace := List (AuthEvent × List AuthWrite)

def readFromClient (t : AuthTrace) : Bytes := t.flatMap (·.1.fromClient)

def readFromBus (t : AuthTrace) : Bytes := t.flatMap (·.1.fromBus)

/-- The writes to the client, in order: one for each line. -/
def writesToClient (t : AuthTrace) : List Bytes :=
  t.flatMap (·.2.flatMap (·.forClient))

/-- The writes to the bus, in order: the null byte, then one for each
line. -/
def writesToBus (t : AuthTrace) : List Bytes :=
  t.flatMap (·.2.flatMap (·.forBus))

end DbusRouter.Model
