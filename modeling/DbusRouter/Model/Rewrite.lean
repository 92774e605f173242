/-
Header rewriting and match rules (`dbus/rewrite.rs`).

`rewriteHeaderField` walks the raw header fields to the first one with the
wanted code and splices a new string in. The walk (`findHeaderField`) and
the splice (`spliceString`) are separate definitions. The walk does not
use the decoded fields: it finds the next field from the first letter of
each signature, and reads that letter a second time at an offset counted
back from the aligned value, which is the first letter only when the value
needed no padding.
-/
import DbusRouter.Model.Names
import DbusRouter.Model.Message

namespace DbusRouter.Model

open Wire Lib

-- =================================================================== walk

/-- How far one step of the walk gets. -/
inductive Walk where
  /-- the walk ends without the field -/
  | stop
  /-- the value of the wanted field starts here -/
  | found (pos : Nat)
  /-- the next field is looked for from here -/
  | next (pos : Nat)
  deriving DecidableEq, Repr

/-- `(pos + a - 1) & !(a - 1)`. -/
def alignPos (a pos : Nat) : Result Nat := do
  let top ← addUsize pos (a - 1)
  .ok (top / a * a)

/-- Alignment of a value by the first letter of its signature. -/
def valueAlign (sig : UInt8) : Nat :=
  if sig = 's'.toUInt8 ∨ sig = 'o'.toUInt8 ∨ sig = 'u'.toUInt8
      ∨ sig = 'i'.toUInt8 ∨ sig = 'b'.toUInt8 ∨ sig = 'h'.toUInt8 then 4
  else if sig = 'n'.toUInt8 ∨ sig = 'q'.toUInt8 then 2
  else if sig = 'x'.toUInt8 ∨ sig = 't'.toUInt8 ∨ sig = 'd'.toUInt8 then 8
  else if sig = 'g'.toUInt8 ∨ sig = 'y'.toUInt8 then 1
  else if sig = 'a'.toUInt8 then 4
  else if sig = 'v'.toUInt8 then 1
  else if sig = '('.toUInt8 ∨ sig = '{'.toUInt8 then 8
  else 1

/-- Skips a string at `pos`. -/
def skipString (raw : Bytes) (e : Endian) (fieldsEnd pos : Nat) :
    Result Walk := do
  let lenEnd ← addUsize pos 4
  if lenEnd > fieldsEnd then .ok .stop
  else do
    let len ← readU32At e raw pos
    let next ← addUsize lenEnd (len + 1)
    .ok (.next next)

/-- Skips a signature at `pos`. -/
def skipSignature (raw : Bytes) (fieldsEnd pos : Nat) : Result Walk :=
  if pos ≥ fieldsEnd then .ok .stop
  else do
    let len ← index raw pos
    let next ← addUsize pos (1 + len.toNat + 1)
    .ok (.next next)

/-- Skips `n` bytes at `pos`. -/
def skipBytes (n pos : Nat) : Result Walk := do
  let next ← addUsize pos n
  .ok (.next next)

/-- Width of the fixed-width values the walk can skip. -/
def fixedWidth (sig : UInt8) : Option Nat :=
  if sig = 'u'.toUInt8 ∨ sig = 'i'.toUInt8 ∨ sig = 'b'.toUInt8
      ∨ sig = 'h'.toUInt8 then some 4
  else if sig = 'n'.toUInt8 ∨ sig = 'q'.toUInt8 then some 2
  else if sig = 'x'.toUInt8 ∨ sig = 't'.toUInt8 ∨ sig = 'd'.toUInt8 then
    some 8
  else if sig = 'y'.toUInt8 then some 1
  else none

/-- Skips the value inside a variant, basic types only. -/
def skipVariantValue (raw : Bytes) (e : Endian) (fieldsEnd : Nat)
    (sig : UInt8) (pos : Nat) : Result Walk :=
  if sig = 's'.toUInt8 ∨ sig = 'o'.toUInt8 then skipString raw e fieldsEnd pos
  else if sig = 'g'.toUInt8 then skipSignature raw fieldsEnd pos
  else
    match fixedWidth sig with
    | some n => skipBytes n pos
    | none => .ok .stop

/-- Skips a variant at `pos`. -/
def skipVariant (raw : Bytes) (e : Endian) (fieldsEnd pos : Nat) :
    Result Walk :=
  if pos ≥ fieldsEnd then .ok .stop
  else do
    let len ← index raw pos
    let sigEnd ← addUsize pos (1 + len.toNat + 1)
    if sigEnd > fieldsEnd then .ok .stop
    else do
      let sig ← if len.toNat > 0 then index raw (pos + 1) else .ok 0
      let start ← alignPos (valueAlign sig) sigEnd
      skipVariantValue raw e fieldsEnd sig start

/-- Skips the value at `pos` by the letter read for it. On an unknown
letter the walk ends, after slicing some context out of the message for
the log. -/
def skipValue (raw : Bytes) (e : Endian) (fieldsEnd : Nat) (sig : UInt8)
    (pos : Nat) : Result Walk :=
  if sig = 's'.toUInt8 ∨ sig = 'o'.toUInt8 then skipString raw e fieldsEnd pos
  else if sig = 'g'.toUInt8 then skipSignature raw fieldsEnd pos
  else
    match fixedWidth sig with
    | some n => skipBytes n pos
    | none =>
        if sig = 'a'.toUInt8 then do
          let lenEnd ← addUsize pos 4
          if lenEnd > fieldsEnd then .ok .stop
          else do
            let len ← readU32At e raw pos
            let next ← addUsize lenEnd len
            .ok (.next next)
        else if sig = 'v'.toUInt8 then skipVariant raw e fieldsEnd pos
        else do
          let contextEnd ← addUsize pos 16
          let _ ← slice raw (pos - 16) (min contextEnd raw.length)
          .ok .stop

/-- The first letter of a signature, counted back from `pos`. -/
def sigLetter (raw : Bytes) (sigLen : UInt8) (pos : Nat) : Result UInt8 :=
  if sigLen.toNat > 0 then do
    let start ← subUsize pos (sigLen.toNat + 1)
    index raw start
  else .ok 0

/-- One turn of the walk: the field that starts at or after `pos`. -/
def walkField (raw : Bytes) (e : Endian) (fieldsEnd : Nat)
    (fieldCode : UInt8) (pos : Nat) : Result Walk := do
  let pos ← alignPos 8 pos
  if pos ≥ fieldsEnd then .ok .stop
  else do
    let code ← index raw pos
    let pos ← addUsize pos 1
    if pos ≥ fieldsEnd then .ok .stop
    else do
      let sigLen ← index raw pos
      let pos ← addUsize pos (1 + sigLen.toNat + 1)
      let sig ← sigLetter raw sigLen pos
      let pos ← alignPos (valueAlign sig) pos
      if code = fieldCode then .ok (.found pos)
      else do
        -- read a second time, after the alignment
        let sig ← sigLetter raw sigLen pos
        skipValue raw e fieldsEnd sig pos

/-- The walk. Every turn that continues moves forward
(`walkField_next_gt`), so `fieldsEnd - pos` turns are enough
(`findFrom_fuel`). -/
def findFrom (raw : Bytes) (e : Endian) (fieldsEnd : Nat)
    (fieldCode : UInt8) : Nat → Nat → Result (Option Nat)
  | 0, _ => .ok none
  | fuel + 1, pos =>
      if pos ≥ fieldsEnd then .ok none
      else do
        match ← walkField raw e fieldsEnd fieldCode pos with
        | .stop => .ok none
        | .found p => .ok (some p)
        | .next p => findFrom raw e fieldsEnd fieldCode fuel p

/-- Where the value of the first field with a code starts. -/
def findHeaderField (raw : Bytes) (e : Endian) (fieldsEnd : Nat)
    (fieldCode : UInt8) : Result (Option Nat) :=
  findFrom raw e fieldsEnd fieldCode fieldsEnd minHeaderSize

-- ================================================================= splice

/-- Padding to an 8-byte boundary. -/
def padTo8 (n : Nat) : Nat := (8 - n % 8) % 8

/-- Replaces the string whose length prefix starts at `pos`, keeping the
fields behind it aligned and the body where the new header ends. -/
def spliceString (raw : Bytes) (e : Endian) (arrayLen pos : Nat)
    (newValue : Text) : Result Bytes := do
  let fieldsStart := minHeaderSize
  let fieldsEnd ← addUsize fieldsStart arrayLen
  let lenEnd ← addUsize pos 4
  if lenEnd > raw.length then
    .err (.protocol (utf8 "Invalid header field: truncated string length"))
  else do
    let oldLen ← readU32At e raw pos
    let oldStrEnd ← addUsize lenEnd (oldLen + 1)
    let newStrData := e.bytes 4 (newValue.length % 2 ^ 32) ++ newValue ++ [0]
    let oldNextFieldStart ← addUsize oldStrEnd (padTo8 oldStrEnd)
    let hasMoreFields := decide (oldNextFieldStart < fieldsEnd)
    let newStrEnd ← addUsize (16 + (pos - fieldsStart)) newStrData.length
    let newInternalPadding := if hasMoreFields then padTo8 newStrEnd else 0
    let oldFieldTotal := if hasMoreFields then oldNextFieldStart - pos
      else oldStrEnd - pos
    let newFieldTotal := newStrData.length + newInternalPadding
    let sizeDiff : Int := newFieldTotal - oldFieldTotal
    -- the cast back to `usize` wraps when the sum is negative
    let newArrayLen := ((arrayLen + sizeDiff) % (2 ^ 64 : Int)).toNat
    let newFieldsEnd ← addUsize fieldsStart newArrayLen
    let oldBodyStart ← addUsize fieldsEnd (padTo8 fieldsEnd)
    let fixed ← slice raw 0 12
    let before ← slice raw fieldsStart pos
    let after ← if hasMoreFields then slice raw oldNextFieldStart fieldsEnd
      else .ok []
    let body ← sliceFrom raw oldBodyStart
    .ok (fixed ++ e.bytes 4 (newArrayLen % 2 ^ 32) ++ before ++ newStrData
      ++ zeros newInternalPadding ++ after ++ zeros (padTo8 newFieldsEnd)
      ++ body)

/-- Rewrites the first header field with a code. The field not found is
no error. -/
def rewriteHeaderField (raw : Bytes) (e : Endian) (fieldCode : UInt8)
    (newValue : Text) : Result Bytes := do
  let arrayLen ← readU32At e raw fixedHeaderSize
  let fieldsEnd ← addUsize minHeaderSize arrayLen
  match ← findHeaderField raw e fieldsEnd fieldCode with
  | none => .ok raw
  | some pos => spliceString raw e arrayLen pos newValue

/-- Direction of message flow for rewriting. -/
inductive RewriteDirection where
  | toClient
  | toUpstream
  deriving DecidableEq, Repr

/-- Adds the prefix to SENDER on the way to the client, removes it from
DESTINATION on the way to a bus. -/
def rewriteMessageHeader (msg : Message) (direction : RewriteDirection)
    (sourceBus : Bus) : Result Message :=
  match direction with
  | .toClient =>
      match msg.header.sender with
      | none => .ok msg
      | some sender =>
          let fakeSender := toFakeName sender sourceBus
          if fakeSender = sender then .ok msg
          else do
            let raw ← rewriteHeaderField msg.raw msg.header.endian 7
              fakeSender
            .ok { msg with
              raw := raw
              header := { msg.header with sender := some fakeSender } }
  | .toUpstream =>
      match msg.header.destination with
      | none => .ok msg
      | some dest =>
          match fromFakeName dest with
          | none => .ok msg
          | some (realDest, _) => do
              let raw ← rewriteHeaderField msg.raw msg.header.endian 6
                realDest
              .ok { msg with
                raw := raw
                header := { msg.header with destination := some realDest } }

-- ============================================================ match rules

/-- The sender a part of a match rule names, quoted or not. -/
def senderOfPart (part : Text) : Option Text :=
  let part := trim part
  match (stripPrefix (utf8 "sender='") part).bind (stripSuffix (utf8 "'")) with
  | some value => some value
  | none => stripPrefix (utf8 "sender=") part

/-- The first sender of a match rule. -/
def parseMatchRuleSender (rule : Text) : Option Text :=
  (splitOn ','.toUInt8 rule).findSome? senderOfPart

/-- Replaces a quoted sender wherever it stands in a match rule. -/
def rewriteMatchRuleSender (rule oldSender newSender : Text) : Text :=
  replace rule (utf8 "sender='" ++ oldSender ++ utf8 "'")
    (utf8 "sender='" ++ newSender ++ utf8 "'")

/-- What routing reads of a match rule; the keys it does not read are left
out. -/
structure MatchRuleInfo where
  sender : Option Text
  interface : Option Text
  deriving DecidableEq, Repr

/-- One `key=value` part entered into the result. -/
def MatchRuleInfo.enter (info : MatchRuleInfo) (part : Text) :
    MatchRuleInfo :=
  match splitOnce '='.toUInt8 (trim part) with
  | none => info
  | some (key, value) =>
      let value := trimMatches '\''.toUInt8 value
      if key = utf8 "sender" then { info with sender := some value }
      else if key = utf8 "interface" then
        { info with interface := some value }
      else info

/-- Parses a complete match rule; of a repeated key the last one counts. -/
def parseMatchRule (rule : Text) : MatchRuleInfo :=
  (splitOn ','.toUInt8 rule).foldl MatchRuleInfo.enter ⟨none, none⟩

end DbusRouter.Model
