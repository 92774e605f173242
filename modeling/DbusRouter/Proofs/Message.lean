/-
Rewriting whole messages.

`Message.HasFields` names the fields a message's header array holds; an
accepted message holds at most one list of them, and its parsed header is
theirs, or has no optional field (`header_cases`). Rewriting a header
field then is `setFields` on that list: the rewritten bytes are a frame
with the same type, flags, serial and body (`setString_frame`).
-/
import DbusRouter.Proofs.Header

namespace DbusRouter.Model

open Wire Lib

-- ================================================================== fields

/-- The contents of a message's header-field array. -/
def Message.fieldBytes (msg : Message) : Bytes :=
  (msg.raw.drop minHeaderSize).take
    (msg.header.endian.nat ((msg.raw.drop fixedHeaderSize).take 4))

/-- The header fields of a message, as the specification decodes them. -/
def Message.HasFields (msg : Message) (fs : List Field) : Prop :=
  ValidFields msg.header.endian 16 fs
    ∧ marshalFields msg.header.endian 16 fs = msg.fieldBytes

/-- The header fields of a frame. -/
def Frame.Decodes (f : Frame) (fs : List Field) : Prop :=
  ValidFields f.endian 16 fs ∧ marshalFields f.endian 16 fs = f.array

theorem Frame.fieldBytes_message (z : Zvariant) (f : Frame)
    (fds : List Fd) : (f.message z fds).fieldBytes = f.array := by
  have ha := f.array_le
  have hlen := (layout_at_arrayLen f.endian f.array f.padding f.body
    f.fixed_length).take_drop
  have harr := (layout_at_array f.endian f.array f.padding f.body
    f.fixed_length).take_drop
  rw [Endian.bytes_length] at hlen
  show (f.bytes.drop 16).take (f.endian.nat ((f.bytes.drop 12).take 4)) = _
  unfold Frame.bytes
  rw [hlen, f.endian.nat_bytes (by norm_num; omega), harr]

theorem Frame.hasFields_message {z : Zvariant} {f : Frame} {fds : List Fd}
    {fs : List Field} : (f.message z fds).HasFields fs ↔ f.Decodes fs := by
  unfold Message.HasFields Frame.Decodes
  rw [f.fieldBytes_message]
  rfl

theorem Frame.decodes_iff {z : Zvariant} (hz : z.FollowsSpec) {f : Frame}
    {fs : List Field} :
    z.fields f.endian 12 (fieldArray f.endian f.array) = some fs
      ↔ f.Decodes fs ∧ z.Takes fs :=
  hz.fields_iff f.endian f.array fs f.array_le

/-- A frame has one list of fields. -/
theorem Frame.Decodes.unique {f : Frame} {fs gs : List Field}
    (h : f.Decodes fs) (h' : f.Decodes gs) : fs = gs := by
  have hread := decodeFields_eq_some.mpr h
  rw [decodeFields_eq_some.mpr h'] at hread
  exact (Option.some.inj hread).symm

/-- The parsed header of a frame whose array decodes. -/
theorem Frame.Decodes.header {z : Zvariant} (hz : z.FollowsSpec)
    {f : Frame} {fs : List Field} (h : f.Decodes fs) (ht : z.Takes fs) :
    f.header z = f.prologue.intoHeader (.ofFields fs) := by
  unfold Frame.header parseHeaderFields
  rw [(Frame.decodes_iff hz).mpr ⟨h, ht⟩]

/-- A frame's array decodes, or its header has no optional field. -/
theorem Frame.header_cases {z : Zvariant} (hz : z.FollowsSpec) (f : Frame) :
    (∃ fs, f.Decodes fs ∧ z.Takes fs
        ∧ f.header z = f.prologue.intoHeader (.ofFields fs))
      ∨ f.header z = f.prologue.intoHeader .empty := by
  cases hd : z.fields f.endian 12 (fieldArray f.endian f.array) with
  | some fs =>
      obtain ⟨h, ht⟩ := (Frame.decodes_iff hz).mp hd
      exact Or.inl ⟨fs, h, ht, h.header hz ht⟩
  | none =>
      right
      unfold Frame.header parseHeaderFields
      rw [hd]

/-- A message with a sender has fields. -/
theorem Frame.decodes_of_sender {z : Zvariant} (hz : z.FollowsSpec)
    {f : Frame} {u : Text} (h : (f.header z).sender = some u) :
    ∃ fs, f.Decodes fs ∧ z.Takes fs
      ∧ (ParsedHeaderFields.ofFields fs).sender = some u := by
  rcases f.header_cases hz with ⟨fs, hd, ht, hh⟩ | hh
  · rw [hh] at h
    exact ⟨fs, hd, ht, h⟩
  · rw [hh] at h
    cases h

/-- A message with a destination has fields. -/
theorem Frame.decodes_of_destination {z : Zvariant} (hz : z.FollowsSpec)
    {f : Frame} {d : Text} (h : (f.header z).destination = some d) :
    ∃ fs, f.Decodes fs ∧ z.Takes fs
      ∧ (ParsedHeaderFields.ofFields fs).destination = some d := by
  rcases f.header_cases hz with ⟨fs, hd, ht, hh⟩ | hh
  · rw [hh] at h
    exact ⟨fs, hd, ht, h⟩
  · rw [hh] at h
    cases h

/-- Fields that a sender is read from, or a destination, are decoded. -/
theorem Frame.Decodes.takes {z : Zvariant} (hz : z.FollowsSpec) {f : Frame}
    {fs : List Field} (h : f.Decodes fs)
    (hread : (f.header z).sender ≠ none ∨ (f.header z).destination ≠ none) :
    z.Takes fs := by
  rcases f.header_cases hz with ⟨gs, hd, ht, -⟩ | hh
  · rw [h.unique hd]
    exact ht
  · rw [hh] at hread
    rcases hread with h | h
    · exact absurd rfl h
    · exact absurd rfl h

-- ================================================================= setting

/-- The fields with the string of the first field with a code replaced,
if the walk gets there. -/
def setFields (code : UInt8) (new : Text) (fs : List Field) : List Field :=
  match locate code fs with
  | none => fs
  | some (pre, _, post) => pre ++ (code, .str new) :: post

/-- The new string takes no descriptor. -/
theorem Zvariant.Takes.setFields {z : Zvariant} {fs : List Field}
    (h : z.Takes fs) (code : UInt8) (new : Text) :
    z.Takes (setFields code new fs) := by
  unfold Model.setFields
  cases hl : locate code fs with
  | none => exact h
  | some x =>
      obtain ⟨pre, v, post⟩ := x
      obtain ⟨rfl, -⟩ := locate_eq_some hl
      exact h.set new

/-- The bytes of a frame with its header field rewritten. -/
def Frame.setString (f : Frame) (code : UInt8) (new : Text)
    (fs : List Field) : Bytes :=
  match locate code fs with
  | none => f.bytes
  | some (pre, _, post) =>
      f.withFieldsBytes (pre ++ (code, .str new) :: post)

theorem Frame.rewriteHeaderField_bytes {f : Frame} {code : UInt8}
    {fs : List Field} {new : Text} (h : f.Decodes fs) (hp : Plain code fs)
    (hnew : new.length < 2 ^ 28) :
    rewriteHeaderField f.bytes f.endian code new
      = .ok (f.setString code new fs) := by
  rw [rewriteHeaderField_layout f h.2 h.1 hp hnew]
  unfold Frame.setString
  cases locate code fs with
  | none => rfl
  | some x => rfl

/-- Two frames that differ in nothing but the header fields. -/
structure SameMessage (f g : Frame) : Prop where
  endian : g.endian = f.endian
  ty : g.ty = f.ty
  flags : g.flags = f.flags
  serial : g.serial = f.serial
  body : g.body = f.body

theorem SameMessage.refl (f : Frame) : SameMessage f f :=
  ⟨rfl, rfl, rfl, rfl, rfl⟩

/-- The rewritten bytes are a frame of the same message, whose fields are
the rewritten ones. -/
theorem Frame.setString_frame {f : Frame} {code : UInt8} {fs : List Field}
    {new : Text} (h : f.Decodes fs) (hp : Plain code fs) (hnew : IsStr new)
    (hlen : (marshalFields f.endian 16 (setFields code new fs)).length
      ≤ 2 ^ 26) :
    ∃ g : Frame, f.setString code new fs = g.bytes ∧ SameMessage f g
      ∧ g.Decodes (setFields code new fs) := by
  unfold setFields at hlen ⊢
  unfold Frame.setString
  cases hl : locate code fs with
  | none => exact ⟨f, rfl, .refl f, h⟩
  | some x =>
      obtain ⟨pre, v, post⟩ := x
      rw [hl] at hlen
      obtain ⟨s, rfl⟩ := hp.locate_str hl
      obtain ⟨rfl, -⟩ := locate_eq_some hl
      refine ⟨f.withArray _ hlen, f.withArray_bytes hlen,
        ⟨rfl, rfl, rfl, rfl, rfl⟩, validFields_set h.1 hnew, rfl⟩

/-- The rewritten bytes end in the same body, however long the header has
become. -/
theorem Frame.setString_body {f : Frame} {code : UInt8} {fs : List Field}
    {new : Text} (hlen : (marshalFields f.endian 16
      (setFields code new fs)).length < 2 ^ 32) :
    ∃ start, bodyStartOf f.endian (f.setString code new fs) = .ok start
      ∧ start + f.body.length = (f.setString code new fs).length
      ∧ (f.setString code new fs).drop start = f.body := by
  unfold setFields at hlen
  unfold Frame.setString
  cases hl : locate code fs with
  | none =>
      exact ⟨f.bodyStart, f.bodyStartOf_bytes, f.bytes_length.symm,
        f.drop_bodyStart⟩
  | some x =>
      obtain ⟨pre, v, post⟩ := x
      rw [hl] at hlen
      have hd := layout_drop_body f.endian
        (marshalFields f.endian 16 (pre ++ (code, .str new) :: post))
        (zeros (padTo8 (16 + (marshalFields f.endian 16
          (pre ++ (code, .str new) :: post)).length)))
        f.body f.fixed_length
      rw [zeros_length] at hd
      refine ⟨_, bodyStartOf_layout f.endian f.fixed_length hlen, ?_, hd⟩
      show _ = (f.withFieldsBytes (pre ++ (code, .str new) :: post)).length
      unfold Frame.withFieldsBytes
      rw [layout_length _ _ _ _ f.fixed_length, zeros_length]

/-- How much longer the array gets: no more than the string, up to the
alignment of what follows. -/
theorem setFields_length (e : Endian) {code : UInt8} {fs : List Field}
    {new : Text} (hp : Plain code fs) :
    (marshalFields e 16 (setFields code new fs)).length
      ≤ (marshalFields e 16 fs).length + new.length + 7 := by
  unfold setFields
  cases hl : locate code fs with
  | none =>
      show (marshalFields e 16 fs).length ≤ _
      omega
  | some x =>
      obtain ⟨pre, v, post⟩ := x
      obtain ⟨s, rfl⟩ := hp.locate_str hl
      obtain ⟨rfl, -⟩ := locate_eq_some hl
      simp only [marshalFields_string, List.length_append, strBytes_length,
        arrayAfter_length]
      have hpad := padTo8_le (16 + (arrayBefore e pre code).length
        + (new.length + 5))
      split <;> omega

/-- The array does not grow when the string does not. -/
theorem setFields_length_le (e : Endian) (pre post : List Field)
    (code : UInt8) {s new : Text} (h : new.length ≤ s.length) :
    (marshalFields e 16 (pre ++ (code, .str new) :: post)).length
      ≤ (marshalFields e 16 (pre ++ (code, .str s) :: post)).length := by
  simp only [marshalFields_string, List.length_append, strBytes_length,
    arrayAfter_length, padTo8]
  split <;> omega

/-- The array grows by at most 8 bytes when the string grows by at most
two. -/
theorem setFields_length_add (e : Endian) (pre post : List Field)
    (code : UInt8) {s new : Text} (h : new.length ≤ s.length + 2) :
    (marshalFields e 16 (pre ++ (code, .str new) :: post)).length
      ≤ (marshalFields e 16 (pre ++ (code, .str s) :: post)).length + 8 := by
  simp only [marshalFields_string, List.length_append, strBytes_length,
    arrayAfter_length, padTo8]
  split <;> omega

-- ========================================================= rewritten headers

theorem toFakeName_length (u : Text) (b : Bus) :
    (toFakeName u b).length ≤ u.length + 2 := by
  by_cases hu : isUniqueName u = true
  · obtain ⟨x, rfl⟩ := isUniqueName_iff.mp hu
    rw [toFakeName_of_unique hu]
    simp only [List.length_append, List.length_drop, fakePrefix_length,
      colon_length]
    omega
  · rw [toFakeName_of_not_unique (by simpa using hu)]
    omega

theorem fromFakeName_length {f real : Text} {b : Bus}
    (h : fromFakeName f = some (real, b)) :
    real.length + 2 = f.length := by
  obtain ⟨x, rfl, rfl⟩ := fromFakeName_eq_some h
  simp only [List.length_append, fakePrefix_length, colon_length]
  omega

/-- A string among a frame's fields is short. -/
theorem Frame.Decodes.length_of_mem {f : Frame} {fs : List Field}
    (h : f.Decodes fs) {code : UInt8} {s : Text}
    (hmem : (code, .str s) ∈ fs) : s.length + 5 ≤ 2 ^ 26 := by
  have hl := string_length_lt (e := f.endian) hmem
  have ha := f.array_le
  rw [h.2] at hl
  omega

theorem Frame.Decodes.sender_mem {f : Frame} {fs : List Field}
    (_h : f.Decodes fs) {u : Text}
    (hu : (ParsedHeaderFields.ofFields fs).sender = some u) :
    (7, .str u) ∈ fs := by
  rcases Model.sender_mem hu with hm | hm
  · exact hm
  · cases hm

theorem Frame.Decodes.destination_mem {f : Frame} {fs : List Field}
    (_h : f.Decodes fs) {d : Text}
    (hd : (ParsedHeaderFields.ofFields fs).destination = some d) :
    (6, .str d) ∈ fs := by
  rcases Model.destination_mem hd with hm | hm
  · exact hm
  · cases hm

/-- A message without a unique name as its sender is not rewritten for the
client. -/
theorem rewriteMessageHeader_toClient_of_not_unique {msg : Message}
    {b : Bus} (h : ∀ u, msg.header.sender = some u →
      isUniqueName u = false) :
    rewriteMessageHeader msg .toClient b = .ok msg := by
  unfold rewriteMessageHeader
  cases hs : msg.header.sender with
  | none => rfl
  | some u =>
      show (if toFakeName u b = u then _ else _) = _
      rw [if_pos (toFakeName_of_not_unique (h u hs) b)]

/-- Rewriting the sender for the client. -/
theorem Frame.rewriteMessageHeader_toClient {z : Zvariant} {f : Frame}
    {fds : List Fd} {fs : List Field} {u : Text} (b : Bus)
    (hz : z.FollowsSpec) (h : f.Decodes fs) (ht : z.Takes fs)
    (hp : Plain 7 fs)
    (hs : (ParsedHeaderFields.ofFields fs).sender = some u)
    (hu : isUniqueName u = true) :
    rewriteMessageHeader (f.message z fds) .toClient b
      = .ok { f.message z fds with
          raw := f.setString 7 (toFakeName u b) fs
          header := { f.header z with sender := some (toFakeName u b) } } := by
  have hlen := h.length_of_mem (h.sender_mem hs)
  have hnew := toFakeName_length u b
  have hsender : (f.message z fds).header.sender = some u := by
    show (f.header z).sender = some u
    rw [h.header hz ht]
    exact hs
  have hlt : (toFakeName u b).length < 2 ^ 28 := by omega
  have hrw := Frame.rewriteHeaderField_bytes h hp hlt
  unfold rewriteMessageHeader
  simp only [hsender]
  rw [if_neg (toFakeName_ne hu b)]
  show (rewriteHeaderField f.bytes f.endian 7 (toFakeName u b) >>= _) = _
  rw [hrw]
  rfl

/-- A message whose destination is no fake name is not rewritten for a
bus. -/
theorem rewriteMessageHeader_toUpstream_of_not_fake {msg : Message}
    {b : Bus} (h : ∀ d, msg.header.destination = some d →
      getBusFromFakeName d = none) :
    rewriteMessageHeader msg .toUpstream b = .ok msg := by
  unfold rewriteMessageHeader
  cases hd : msg.header.destination with
  | none => rfl
  | some d =>
      have hf : fromFakeName d = none := by
        unfold fromFakeName
        rw [h d hd]
        rfl
      simp only [hf]

/-- Rewriting the destination for a bus. -/
theorem Frame.rewriteMessageHeader_toUpstream {z : Zvariant} {f : Frame}
    {fds : List Fd} {fs : List Field} {d real : Text} {b : Bus} (target : Bus)
    (hz : z.FollowsSpec) (h : f.Decodes fs) (ht : z.Takes fs)
    (hp : Plain 6 fs)
    (hd : (ParsedHeaderFields.ofFields fs).destination = some d)
    (hreal : fromFakeName d = some (real, b)) :
    rewriteMessageHeader (f.message z fds) .toUpstream target
      = .ok { f.message z fds with
          raw := f.setString 6 real fs
          header := { f.header z with destination := some real } } := by
  have hlen := h.length_of_mem (h.destination_mem hd)
  have hnew := fromFakeName_length hreal
  have hdest : (f.message z fds).header.destination = some d := by
    show (f.header z).destination = some d
    rw [h.header hz ht]
    exact hd
  have hlt : real.length < 2 ^ 28 := by omega
  have hrw := Frame.rewriteHeaderField_bytes h hp hlt
  unfold rewriteMessageHeader
  simp only [hdest, hreal]
  show (rewriteHeaderField f.bytes f.endian 6 real >>= _) = _
  rw [hrw]
  rfl

-- =============================================================== composing

/-- The header bytes parse to, as whoever receives them reads it. -/
def headerOf (z : Zvariant) (raw : Bytes) : Result MessageHeader := do
  let p ← Prologue.parse (raw.take minHeaderSize)
  .ok (p.intoHeader (parseHeaderFields z
    ((raw.drop minHeaderSize).take p.arrayLen) p.endian))

theorem Frame.headerOf_bytes (z : Zvariant) (f : Frame) :
    headerOf z f.bytes = .ok (f.header z) := by
  have harr := (layout_at_array f.endian f.array f.padding f.body
    f.fixed_length).take_drop
  unfold headerOf
  rw [f.parse_bytes, Outcome.ok_bind]
  show Outcome.ok (f.prologue.intoHeader (parseHeaderFields z
    ((f.bytes.drop 16).take f.array.length) f.endian)) = _
  unfold Frame.bytes
  rw [harr]
  rfl

/-- What a reader learns from the header of anything laid out as a
message. -/
theorem headerOf_layout {z : Zvariant} {e : Endian} {ty flags : UInt8}
    {bodyLen serial : Nat} {array padding body : Bytes} {h : MessageHeader}
    (ha : array.length < 2 ^ 32)
    (hh : headerOf z (layout e (fixedHeader e ty flags bodyLen serial) array
      padding body) = .ok h) :
    array.length ≤ 2 ^ 26 ∧ h.msgType = .ofByte ty
      ∧ h.replySerial = (parseHeaderFields z array e).replySerial := by
  have harr := (layout_at_array e array padding body
    (fixedHeader_length e ty flags bodyLen serial)).take_drop
  unfold headerOf at hh
  obtain ⟨p, hp, hh⟩ := Outcome.bind_eq_ok hh
  obtain ⟨he, hty, hlen, hle⟩ := parse_layout_eq_ok ha hp
  cases hh
  refine ⟨hle, hty, ?_⟩
  show (parseHeaderFields z _ p.endian).replySerial = _
  unfold minHeaderSize
  rw [hlen, he, harr]

/-- A little-endian message with given type, serial, fields and body. -/
def Message.compose (ty : UInt8) (serial : Nat) (fs : List Field)
    (body : Bytes) (fds : List Fd) : Message where
  header := Prologue.intoHeader
    { endian := .little, msgType := .ofByte ty, flags := 0,
      serial := serial, bodyLen := body.length,
      arrayLen := (marshalFields .little 16 fs).length }
    (.ofFields fs)
  raw := layout .little (fixedHeader .little ty 0 body.length serial)
    (marshalFields .little 16 fs)
    (zeros (padTo8 (16 + (marshalFields .little 16 fs).length))) body
  fds := fds

/-- A frame's message with the descriptors it declares is accepted. -/
theorem Frame.message_accepted {z : Zvariant} {f : Frame} {fds : List Fd}
    (heq : fds.length = (f.header z).unixFds.getD 0)
    (hle : fds.length ≤ 64) : (f.message z fds).Accepted z := by
  have harr := (layout_at_array f.endian f.array f.padding f.body
    f.fixed_length).take_drop
  refine ⟨⟨f.prologue, f.parse_bytes, f.totalLen_prologue.symm, ?_⟩, heq,
    hle⟩
  show f.header z = f.prologue.intoHeader (parseHeaderFields z
    ((f.bytes.drop 16).take f.array.length) f.endian)
  unfold Frame.bytes
  rw [harr]
  rfl

/-- A call of a peer's method. -/
def Message.peerCall (serial : Nat) (destination sender : String) :
    Message :=
  .compose 1 serial
    [(1, .objectPath (utf8 "/")), (3, .str (utf8 "Get")),
     (6, .str (utf8 destination)), (7, .str (utf8 sender))] [] []

/-- A client's answer. -/
def Message.answer (serial replySerial : Nat) (destination : String) :
    Message :=
  .compose 2 serial
    [(5, .fixed .uint32 replySerial), (6, .str (utf8 destination))] [] []

/-- A client's call of a bus daemon method with one string. -/
def Message.daemonCall (serial : Nat) (member argument : String) :
    Message :=
  .compose 1 serial
    [(1, .objectPath (utf8 "/org/freedesktop/DBus")), (2, .str busName),
     (3, .str (utf8 member)), (6, .str busName), (8, .signature [.str])]
    (strBytes .little (utf8 argument)) []

end DbusRouter.Model
