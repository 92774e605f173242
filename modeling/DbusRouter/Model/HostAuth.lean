/-
Authentication with the host bus (`session.rs`, `auth.rs`).

The passthrough of `Auth` is a race between two sockets. Here the router
speaks for itself, on one socket and one call after the other, so what it
does is a `Dialog` with the host: a straight program of writes and reads.

`read_auth_line` and `read_message` are read from the same source as in
`Auth` and `Message`, as programs that wait for each byte. `readAuthLine` is
one turn of the loop below (`readAuthLineOn_turn`), and `readMessage` what
`readMessageOn` makes of a stream that is all there.
-/
import DbusRouter.Lib.Dialog
import DbusRouter.Model.Auth
import DbusRouter.Model.Daemon

namespace DbusRouter.Model

open Wire Lib

/-- What is done on the host's socket. -/
abbrev HostDialog := Dialog Error UInt8

/-- `?` on a call that does not wait. -/
def liftResult {α : Type} (x : Result α) : HostDialog α := .done x

-- ================================================================== reading

/-- `read_exact`. -/
def readExactOn (n : Nat) : HostDialog Bytes := do
  match ← Dialog.exactly n with
  | some bs => pure bs
  | none => .fail (.io (utf8 "early eof"))

/-- Reads into a buffer of `n` bytes, unless it is empty. -/
def readBufOn (n : Nat) : HostDialog Bytes :=
  if n = 0 then pure [] else readExactOn n

/-- The loop of `read_auth_line`, with room for that many bytes behind what
has been read. -/
def readAuthLineOn : Nat → Bytes → HostDialog Bytes
  | 0, _ => .fail (.auth (utf8 "Auth line too long"))
  | room + 1, result => do
      match ← Dialog.get with
      | none => pure []
      | some byte =>
          if endsLine (result ++ [byte]) then pure (result ++ [byte])
          else readAuthLineOn room (result ++ [byte])

def readAuthLineString : HostDialog Text := do
  let line ← readAuthLineOn authBufferSize []
  if line.isEmpty then
    .fail (.auth (utf8 "Connection closed during auth"))
  else pure (fromUtf8Lossy line)

/-- `read_message`. -/
def readMessageOn (z : Zvariant) : HostDialog (Option Message) := do
  match ← Dialog.exactly fixedHeaderSize with
  | none => pure none
  | some start => do
      let rest ← readExactOn (minHeaderSize - fixedHeaderSize)
      let head := start ++ rest
      let prologue ← liftResult (Prologue.parse head)
      let fieldsBuf ← readExactOn prologue.arrayLen
      let paddingBuf ← readBufOn prologue.padding
      let body ← readBufOn prologue.bodyLen
      let fields := parseHeaderFields z fieldsBuf prologue.endian
      pure (some ⟨prologue.intoHeader fields,
        head ++ fieldsBuf ++ paddingBuf ++ body, []⟩)

-- ==================================================================== Hello

/-- The header fields of the `Hello` call. -/
def helloFields : List Field :=
  [(1, .objectPath (utf8 "/org/freedesktop/DBus")),
   (2, .str busName),
   (3, .str (utf8 "Hello")),
   (6, .str busName)]

/-- The bytes of the `Hello` call the router makes on the host bus. -/
def buildHelloCall (z : Zvariant) : Result Bytes := do
  let fieldsEncoded ← orZvariant (z.encodeFields .little 12 helloFields)
  let arrayLen ← subUsize fieldsEncoded.length 4
  let headerEnd := 16 + arrayLen
  let padding := (8 - headerEnd % 8) % 8
  .ok ([0x6C, 1, 0, 1] ++ Endian.little.bytes 4 0 ++ Endian.little.bytes 4 1
    ++ fieldsEncoded ++ zeros padding)

/-- `{:?}` of a message type. -/
def MessageType.debug : MessageType → Text
  | .invalid => utf8 "Invalid"
  | .methodCall => utf8 "MethodCall"
  | .methodReturn => utf8 "MethodReturn"
  | .error => utf8 "Error"
  | .signal => utf8 "Signal"

/-- The error of a host that is gone. -/
def hostGone : Error :=
  .protocol (utf8 "Host bus disconnected after Hello()")

/-- Calls `Hello` and takes the two messages that come of it: the reply, and
the signal for the name acquired. Whatever comes second is taken for the
signal. -/
def sendHostHello (z : Zvariant) : HostDialog Unit := do
  let msg ← liftResult (buildHelloCall z)
  Dialog.put msg
  match ← readMessageOn z with
  | none => .fail hostGone
  | some resp =>
      if resp.header.msgType = .methodReturn then do
        match ← readMessageOn z with
        | some _ => pure ()
        | none => .fail hostGone
      else if resp.header.msgType = .error then
        .fail (.protocol (utf8 "Host bus Hello() failed with error"))
      else
        .fail (.protocol (utf8 "Unexpected response to Hello(): "
          ++ resp.header.msgType.debug))

-- ======================================================================= SASL

/-- `{:x}` of a number below 16. -/
def hexDigit (n : Nat) : UInt8 :=
  if n < 10 then UInt8.ofNat (0x30 + n) else UInt8.ofNat (0x57 + n)

/-- `{:02x}`. -/
def hexByte (b : UInt8) : Text :=
  [hexDigit (b.toNat / 16), hexDigit (b.toNat % 16)]

/-- The user id in decimal, each digit in hexadecimal. -/
def uidHex (uid : Nat) : Text := (decimal uid).flatMap hexByte

/-- The command that asks for authentication. -/
def authCommand (uid : Nat) : Bytes :=
  utf8 "AUTH EXTERNAL " ++ uidHex uid ++ utf8 "\r\n"

def negotiateCommand : Bytes := utf8 "NEGOTIATE_UNIX_FD\r\n"

def beginCommand : Bytes := utf8 "BEGIN\r\n"

/-- Authenticates with the host bus, as the user the router runs as. The
answer to the negotiation is read and not looked at. -/
def authHostBus (z : Zvariant) (uid : Nat) (skipHello : Bool) :
    HostDialog Unit := do
  Dialog.put [0]
  Dialog.put (authCommand uid)
  let response ← readAuthLineString
  if !startsWith (utf8 "OK") response then
    .fail (.auth (utf8 "Host bus auth failed: " ++ trim response))
  else do
    Dialog.put negotiateCommand
    let _ ← readAuthLineString
    Dialog.put beginCommand
    if skipHello then pure () else sendHostHello z

end DbusRouter.Model
