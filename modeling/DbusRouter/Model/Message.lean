/-
Message parsing (`dbus/message.rs`).

A message is its parsed header next to the raw bytes it was read from.
`Message.Accepted` says what `readMessageFrom` establishes about the two
(`readMessageFrom_accepted`): every later statement about "a message the
router received" is a statement about an accepted one.

A header-field array that does not decode is not an error: the header then
has no optional field at all.
-/
import DbusRouter.Model.Zvariant
import DbusRouter.Model.Socket

namespace DbusRouter.Model

open Wire Lib

/-- Maximum message size. -/
def maxMessageSize : Nat := 64 * 1024 * 1024

/-- Fixed header size, before the header-field array. -/
def fixedHeaderSize : Nat := 12

/-- Fixed header and array length. -/
def minHeaderSize : Nat := 16

/-- Message types. -/
inductive MessageType where
  | invalid
  | methodCall
  | methodReturn
  | error
  | signal
  deriving DecidableEq, Repr

def MessageType.ofByte (v : UInt8) : MessageType :=
  if v = 1 then .methodCall
  else if v = 2 then .methodReturn
  else if v = 3 then .error
  else if v = 4 then .signal
  else .invalid

/-- Reads a `u32` off the front of a buffer. -/
def readU32 (e : Endian) (buf : Bytes) : Result Nat := do
  let arr ← slice buf 0 4
  .ok (e.nat arr)

/-- Reads the `u32` at an offset, as the source's `read_u32(&raw[p..])`. -/
def readU32At (e : Endian) (raw : Bytes) (p : Nat) : Result Nat := do
  let rest ← sliceFrom raw p
  readU32 e rest

/-- Parsed message header. -/
structure MessageHeader where
  endian : Endian
  msgType : MessageType
  flags : UInt8
  serial : Nat
  bodyLen : Nat
  destination : Option Text
  replySerial : Option Nat
  sender : Option Text
  interface : Option Text
  member : Option Text
  path : Option Text
  signature : Option Text
  /-- number of unix fds the message declares -/
  unixFds : Option Nat
  deriving DecidableEq, Repr

/-- A complete message: header, raw bytes, attached descriptors. -/
structure Message where
  header : MessageHeader
  raw : Bytes
  fds : List Fd
  deriving DecidableEq, Repr

-- =================================================================== body

/-- Where the body starts, given the raw bytes. -/
def bodyStartOf (e : Endian) (raw : Bytes) : Result Nat := do
  let arrayLen ← readU32At e raw fixedHeaderSize
  let headerEnd ← addUsize minHeaderSize arrayLen
  addUsize headerEnd ((8 - headerEnd % 8) % 8)

/-- `Message::body_start`. -/
def Message.bodyStart (msg : Message) : Result Nat :=
  bodyStartOf msg.header.endian msg.raw

/-- The service name of a `RequestName` body, or the first string of any
other body. -/
def Message.extractNameFromBody (msg : Message) : Result (Option Text) := do
  let bodyStart ← msg.bodyStart
  let lenEnd ← addUsize bodyStart 4
  if lenEnd > msg.raw.length then .ok none
  else do
    let strLen ← readU32At msg.header.endian msg.raw bodyStart
    let strStart ← addUsize bodyStart 4
    let strEnd ← addUsize strStart strLen
    if strEnd > msg.raw.length then .ok none
    else do
      let s ← slice msg.raw strStart strEnd
      .ok (fromUtf8 s)

/-- `Message::extract_string_from_body`. -/
def Message.extractStringFromBody (msg : Message) : Result (Option Text) :=
  msg.extractNameFromBody

/-- The bus daemon's name, and its interface's. -/
def busName : Text := utf8 "org.freedesktop.DBus"

/-- Whether this is a `RequestName` call to the bus daemon. -/
def Message.isRequestName (msg : Message) : Bool :=
  msg.header.destination == some busName
    && msg.header.interface == some busName
    && msg.header.member == some (utf8 "RequestName")

-- ================================================================== fields

/-- Parsed header fields. -/
structure ParsedHeaderFields where
  destination : Option Text
  replySerial : Option Nat
  sender : Option Text
  interface : Option Text
  member : Option Text
  path : Option Text
  signature : Option Text
  unixFds : Option Nat
  deriving DecidableEq, Repr

def ParsedHeaderFields.empty : ParsedHeaderFields :=
  ⟨none, none, none, none, none, none, none, none⟩

/-- `String::try_from(&value).ok()`. -/
def asString : Value → Option Text
  | .str s => some s
  | _ => none

/-- `u32::try_from(&value).ok()`. -/
def asU32 : Value → Option Nat
  | .fixed .uint32 n => some n
  | _ => none

/-- One header field entered into the result. A repeated field replaces
what the earlier one gave, except for PATH and SIGNATURE values of another
type, which are skipped. -/
def ParsedHeaderFields.enter (r : ParsedHeaderFields) (f : Field) :
    ParsedHeaderFields :=
  if f.1 = 1 then
    match f.2 with
    | .objectPath p => { r with path := some p }
    | _ => r
  else if f.1 = 2 then { r with interface := asString f.2 }
  else if f.1 = 3 then { r with member := asString f.2 }
  else if f.1 = 5 then { r with replySerial := asU32 f.2 }
  else if f.1 = 6 then { r with destination := asString f.2 }
  else if f.1 = 7 then { r with sender := asString f.2 }
  else if f.1 = 9 then { r with unixFds := asU32 f.2 }
  else if f.1 = 8 then
    match f.2 with
    | .signature ts => { r with signature := some (Ty.renderAll ts) }
    | _ => r
  else r

/-- The header fields of a decoded array. -/
def ParsedHeaderFields.ofFields (fs : List Field) : ParsedHeaderFields :=
  fs.foldl ParsedHeaderFields.enter .empty

/-- Decodes the header-field array. It stands at offset 12 of the message,
behind its length. -/
def parseHeaderFields (z : Zvariant) (buf : Bytes) (e : Endian) :
    ParsedHeaderFields :=
  match z.fields e 12 (fieldArray e buf) with
  | some fs => .ofFields fs
  | none => .empty

-- ================================================================ prologue

/-- The fixed 16-byte prologue every message starts with. -/
structure Prologue where
  endian : Endian
  msgType : MessageType
  flags : UInt8
  serial : Nat
  bodyLen : Nat
  arrayLen : Nat
  deriving DecidableEq, Repr

namespace Prologue

/-- The byte order of an endian marker. -/
def endianOf (marker : UInt8) : Result Endian :=
  if marker = 'l'.toUInt8 then .ok .little
  else if marker = 'B'.toUInt8 then .ok .big
  else .err (.protocol (utf8 "Invalid endian marker: "
    ++ decimal marker.toNat))

/-- Parses a head of at least 16 bytes. -/
def parse (head : Bytes) : Result Prologue := do
  let marker ← index head 0
  let endian ← endianOf marker
  let version ← index head 3
  if version ≠ 1 then
    .err (.protocol (utf8 "Unsupported D-Bus protocol version: "
      ++ decimal version.toNat))
  else do
    let bodyLen ← readU32 endian (← slice head 4 8)
    if bodyLen > maxMessageSize then
      .err (.protocol (utf8 "Message body too large: " ++ decimal bodyLen
        ++ utf8 " bytes"))
    else do
      let arrayLen ← readU32 endian (← slice head 12 16)
      if arrayLen > maxMessageSize then
        .err (.protocol (utf8 "Header fields array too large: "
          ++ decimal arrayLen ++ utf8 " bytes"))
      else do
        let ty ← index head 1
        let flags ← index head 2
        let serial ← readU32 endian (← slice head 8 12)
        .ok { endian := endian, msgType := .ofByte ty, flags := flags,
              serial := serial, bodyLen := bodyLen, arrayLen := arrayLen }

/-- Offset just past the header-field array. -/
def headerEnd (p : Prologue) : Nat := minHeaderSize + p.arrayLen

/-- Padding that aligns the body to an 8-byte boundary. -/
def padding (p : Prologue) : Nat := (8 - p.headerEnd % 8) % 8

/-- Total wire size of the message. Both lengths are at most 64 MiB, so
nothing here overflows. -/
def totalLen (p : Prologue) : Nat := p.headerEnd + p.padding + p.bodyLen

def intoHeader (p : Prologue) (fields : ParsedHeaderFields) :
    MessageHeader where
  endian := p.endian
  msgType := p.msgType
  flags := p.flags
  serial := p.serial
  bodyLen := p.bodyLen
  destination := fields.destination
  replySerial := fields.replySerial
  sender := fields.sender
  interface := fields.interface
  member := fields.member
  path := fields.path
  signature := fields.signature
  unixFds := fields.unixFds

end Prologue

-- =============================================================== accepted

/-- What reading a message establishes: the raw bytes are one whole frame,
the header is what they parse to, and the descriptors are those the header
declares. -/
structure Message.Accepted (z : Zvariant) (msg : Message) : Prop where
  framed : ∃ p, Prologue.parse (msg.raw.take minHeaderSize) = .ok p
    ∧ msg.raw.length = p.totalLen
    ∧ msg.header = p.intoHeader (parseHeaderFields z
        ((msg.raw.drop minHeaderSize).take p.arrayLen) p.endian)
  fds_eq : msg.fds.length = msg.header.unixFds.getD 0
  fds_le : msg.fds.length ≤ maxFdsPerMessage

instance (z : Zvariant) (msg : Message) : Decidable (msg.Accepted z) :=
  decidable_of_iff
    ((match Prologue.parse (msg.raw.take minHeaderSize) with
      | .ok p => decide (msg.raw.length = p.totalLen
          ∧ msg.header = p.intoHeader (parseHeaderFields z
              ((msg.raw.drop minHeaderSize).take p.arrayLen) p.endian))
      | _ => false) = true
      ∧ msg.fds.length = msg.header.unixFds.getD 0
      ∧ msg.fds.length ≤ maxFdsPerMessage) <| by
    constructor
    · rintro ⟨hp, heq, hle⟩
      refine ⟨?_, heq, hle⟩
      split at hp
      next p hparse =>
        rw [decide_eq_true_eq] at hp
        exact ⟨p, hparse, hp⟩
      next => cases hp
    · rintro ⟨⟨p, hparse, hp⟩, heq, hle⟩
      refine ⟨?_, heq, hle⟩
      simp only [hparse, decide_eq_true_eq]
      exact hp

-- ================================================================= reading

/-- Reads exactly `n` bytes of a plain stream. Its one error is the end of
the stream before that. -/
def readExact (n : Nat) (stream : Bytes) : Result (Bytes × Bytes) :=
  if stream.length < n then .err (.io (utf8 "early eof"))
  else .ok (stream.take n, stream.drop n)

/-- Reads into a buffer of `n` bytes, unless it is empty. -/
def readBuf (n : Nat) (stream : Bytes) : Result (Bytes × Bytes) :=
  if n = 0 then .ok ([], stream) else readExact n stream

/-- Reads one message from a plain byte stream. -/
def readMessage (z : Zvariant) (stream : Bytes) :
    Result (Option Message × Bytes) :=
  match readExact fixedHeaderSize stream with
  | .err _ => .ok (none, [])
  | .panic p => .panic p
  | .ok (start, stream) => do
      let (rest, stream) ← readExact (minHeaderSize - fixedHeaderSize) stream
      let head := start ++ rest
      let prologue ← Prologue.parse head
      let (fieldsBuf, stream) ← readExact prologue.arrayLen stream
      let (paddingBuf, stream) ← readBuf prologue.padding stream
      let (body, stream) ← readBuf prologue.bodyLen stream
      let fields := parseHeaderFields z fieldsBuf prologue.endian
      .ok (some ⟨prologue.intoHeader fields,
        head ++ fieldsBuf ++ paddingBuf ++ body, []⟩, stream)

/-- Adopts exactly the descriptors the header declared, at most 64. -/
def takeDeclaredFds (r : DbusReader) (declared : Option Nat) :
    Result (List Fd × DbusReader) :=
  let declared := declared.getD 0
  if declared > maxFdsPerMessage then
    .err (.protocol (utf8 "Message declares " ++ decimal declared
      ++ utf8 " fds, max " ++ decimal maxFdsPerMessage))
  else if declared = 0 then .ok ([], r)
  else
    match r.takeFds declared with
    | .ok x => .ok x
    | .err (.io text) => .err (.protocol text)
    | .err e => .err e
    | .panic p => .panic p

/-- Reads one message together with the descriptors it carries. -/
def readMessageFrom (z : Zvariant) (r : DbusReader) (cs : List Chunk) :
    Result (Option Message × DbusReader × List Chunk) := do
  let (filled, r, cs) ← r.fill minHeaderSize cs
  if !filled then .ok (none, r, cs)
  else do
    let prologue ← Prologue.parse (← r.head minHeaderSize)
    let total := prologue.totalLen
    let (filled, r, cs) ← r.fill total cs
    if !filled then
      .err (.protocol (utf8 "Connection closed in the middle of a message"))
    else do
      let raw ← r.head total
      let r ← r.consume total
      let buf ← slice raw minHeaderSize prologue.headerEnd
      let fields := parseHeaderFields z buf prologue.endian
      let (fds, r) ← takeDeclaredFds r fields.unixFds
      .ok (some ⟨prologue.intoHeader fields, raw, fds⟩, r, cs)

/-- Reads messages up to the end of the stream, `n` at most. -/
def readMessages (z : Zvariant) : Nat → DbusReader → List Chunk →
    Result (List Message × DbusReader × List Chunk)
  | 0, r, cs => .ok ([], r, cs)
  | n + 1, r, cs => do
      match ← readMessageFrom z r cs with
      | (none, r, cs) => .ok ([], r, cs)
      | (some msg, r, cs) => do
          let (msgs, r, cs) ← readMessages z n r cs
          .ok (msg :: msgs, r, cs)

/-- What messages put on a stream, whatever the kernel accepts of each
`sendmsg`. -/
inductive Sent : List Message → List Segment → Prop
  | nil : Sent [] []
  | cons {msg : Message} {msgs : List Message} {accepts : List Nat}
      {segments rest : List Segment} :
      DbusWriter.send accepts msg.raw msg.fds = .ok segments →
      Sent msgs rest → Sent (msg :: msgs) (segments ++ rest)

end DbusRouter.Model
