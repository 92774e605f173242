/-
Rewritten messages are messages.

Where the walk reaches the wanted field and it is the only one with its
code (`WellPlaced`), rewriting the header of an accepted message gives an
accepted message: same body, same descriptors, and a header that differs
in the rewritten name alone.
-/
import DbusRouter.Proofs.Step

namespace DbusRouter.Model

open Wire Lib

/-- The walk reaches the field, which is a string and the only field with
its code. -/
def WellPlaced (code : UInt8) (fs : List Field) : Prop :=
  ∃ pre s post, locate code fs = some (pre, .str s, post) ∧ Lacks code post

/-- Every decoding of a message's header has the field well placed. -/
def Message.Readable (msg : Message) (code : UInt8) : Prop :=
  ∀ fs, msg.HasFields fs → WellPlaced code fs

/-- Whether the fields of a message have the field well placed. -/
def Message.readable (code : UInt8) (msg : Message) : Bool :=
  match decodeFields msg.header.endian 16 msg.fieldBytes with
  | none => true
  | some fs =>
      match locate code fs with
      | some (_, .str _, post) => post.all (·.1 != code)
      | _ => false

/-- The array has room for a prefix: two bytes of text, and the padding of
the fields behind it. -/
def Message.HasRoom (msg : Message) : Prop :=
  msg.fieldBytes.length + 8 ≤ 2 ^ 26

/-- The body of a message's bytes. -/
def bodyOf (e : Endian) (raw : Bytes) : Bytes :=
  match bodyStartOf e raw with
  | .ok start => raw.drop start
  | _ => []

def Message.body (msg : Message) : Bytes :=
  bodyOf msg.header.endian msg.raw

theorem Frame.bodyOf_bytes (f : Frame) : bodyOf f.endian f.bytes = f.body := by
  unfold bodyOf
  rw [f.bodyStartOf_bytes]
  exact f.drop_bodyStart

/-- Whoever reads an accepted message's bytes reads its header. -/
theorem Message.Accepted.headerOf_raw {z : Zvariant} {msg : Message}
    (h : msg.Accepted z) : headerOf z msg.raw = .ok msg.header := by
  obtain ⟨f, hraw, hheader⟩ := h.exists_frame
  rw [hraw, hheader]
  exact f.headerOf_bytes z

/-- A message holds the fields its header array decodes to. -/
theorem hasFields_iff {msg : Message} {fs : List Field} :
    msg.HasFields fs
      ↔ decodeFields msg.header.endian 16 msg.fieldBytes = some fs :=
  decodeFields_eq_some.symm

/-- What the crate decodes of an accepted message are its fields. -/
theorem fields_eq_some {z : Zvariant} (hz : z.FollowsSpec) {msg : Message}
    (hacc : msg.Accepted z) {fs : List Field} :
    z.fields msg.header.endian 12
        (fieldArray msg.header.endian msg.fieldBytes) = some fs
      ↔ msg.HasFields fs ∧ z.Takes fs := by
  obtain ⟨f, hmsg⟩ := hacc.eq_message
  generalize msg.fds = fds at hmsg
  subst hmsg
  rw [Frame.hasFields_message, f.fieldBytes_message]
  exact Frame.decodes_iff hz

/-- The check of well-placed fields is right. -/
theorem readable_iff {msg : Message} {code : UInt8} :
    msg.readable code = true ↔ msg.Readable code := by
  unfold Message.readable Message.Readable
  simp only [hasFields_iff]
  cases hf : decodeFields msg.header.endian 16 msg.fieldBytes with
  | none => simp
  | some fs =>
      simp only [Option.some.injEq, forall_eq']
      unfold WellPlaced Lacks
      rcases hl : locate code fs with _ | ⟨pre, v, post⟩
      · simp
      · cases v <;> simp

/-- A reachable field is found behind basic values, so the walk is plain. -/
theorem plain_of_locate {code : UInt8} {fs pre post : List Field} {s : Text}
    (h : locate code fs = some (pre, .str s, post)) : Plain code fs := by
  induction fs generalizing pre with
  | nil => cases h
  | cons f fs ih =>
      unfold locate at h
      unfold Plain
      split at h
      next hc =>
        rw [if_pos hc]
        simp only [Option.some.injEq, Prod.mk.injEq] at h
        exact ⟨s, h.2.1⟩
      next hc =>
        rw [if_neg hc]
        split at h
        next hs =>
          rw [Option.map_eq_some_iff] at h
          obtain ⟨⟨pre', v', post'⟩, hl, heq⟩ := h
          cases heq
          refine ⟨?_, fun _ => ih hl⟩
          obtain ⟨c, v⟩ := f
          cases v with
          | array t vs | struct vs | dictEntry k v => cases hs
          | fixed k m | str s | objectPath s | signature ts | variant v =>
              simp [Value.typeOf, Ty.render]
        next => cases h

theorem WellPlaced.plain {code : UInt8} {fs : List Field}
    (h : WellPlaced code fs) : Plain code fs := by
  obtain ⟨pre, s, post, hl, -⟩ := h
  exact plain_of_locate hl

/-- The only sender field holds the parsed sender. -/
theorem WellPlaced.sender {fs : List Field} {u : Text}
    (h : WellPlaced 7 fs)
    (hu : (ParsedHeaderFields.ofFields fs).sender = some u) :
    ∃ pre post, locate 7 fs = some (pre, .str u, post) ∧ Lacks 7 post := by
  obtain ⟨pre, s, post, hl, hlack⟩ := h
  obtain ⟨rfl, -⟩ := locate_eq_some hl
  rw [ofFields_sender pre hlack s s] at hu
  cases hu
  exact ⟨pre, post, hl, hlack⟩

theorem WellPlaced.destination {fs : List Field} {d : Text}
    (h : WellPlaced 6 fs)
    (hd : (ParsedHeaderFields.ofFields fs).destination = some d) :
    ∃ pre post, locate 6 fs = some (pre, .str d, post) ∧ Lacks 6 post := by
  obtain ⟨pre, s, post, hl, hlack⟩ := h
  obtain ⟨rfl, -⟩ := locate_eq_some hl
  rw [ofFields_destination pre hlack s s] at hd
  cases hd
  exact ⟨pre, post, hl, hlack⟩

/-- A rewritten message: accepted, with the same body, descriptors and
byte order. -/
structure Rewritten (z : Zvariant) (msg m : Message) : Prop where
  accepted : m.Accepted z
  fds : m.fds = msg.fds
  body : m.body = msg.body

theorem Rewritten.refl {z : Zvariant} {msg : Message}
    (h : msg.Accepted z) : Rewritten z msg msg :=
  ⟨h, rfl, rfl⟩

/-- A frame of the same message with a header that declares the same
descriptors. -/
theorem rewritten_of_frame {z : Zvariant} {f g : Frame} {fds : List Fd}
    {m : Message} (hacc : (f.message z fds).Accepted z)
    (hsame : SameMessage f g) (hraw : m.raw = g.bytes)
    (hheader : m.header = g.header z) (hfds : m.fds = fds)
    (hdecl : (g.header z).unixFds = (f.header z).unixFds) :
    Rewritten z (f.message z fds) m := by
  have hm : m = g.message z fds := by
    obtain ⟨header, raw, fds'⟩ := m
    simp only at hraw hheader hfds
    subst hraw hheader hfds
    rfl
  subst hm
  have hdecl' : fds.length = (g.header z).unixFds.getD 0 := by
    rw [hdecl]
    exact hacc.fds_eq
  refine ⟨Frame.message_accepted hdecl' hacc.fds_le, rfl, ?_⟩
  show bodyOf g.endian g.bytes = bodyOf f.endian f.bytes
  rw [g.bodyOf_bytes, f.bodyOf_bytes, hsame.body]

/-- The prologue keeps everything but the array length. -/
theorem header_of_same {f g : Frame} (h : SameMessage f g)
    (r : ParsedHeaderFields) :
    g.prologue.intoHeader r = f.prologue.intoHeader r := by
  unfold Prologue.intoHeader Frame.prologue
  simp only [h.endian, h.ty, h.flags, h.serial, h.body]

/-- The sender of a message gets the prefix, and nothing else changes. -/
theorem toClient_rewritten {z : Zvariant} {msg : Message} {u : Text}
    (b : Bus) (hz : z.FollowsSpec) (hacc : msg.Accepted z)
    (hread : msg.Readable 7) (hroom : msg.HasRoom)
    (hs : msg.header.sender = some u) (hu : isUniqueName u = true) :
    ∃ m, rewriteMessageHeader msg .toClient b = .ok m
      ∧ Rewritten z msg m
      ∧ m.header = { msg.header with sender := some (toFakeName u b) } := by
  obtain ⟨f, hmsg⟩ := hacc.eq_message
  generalize msg.fds = fds at hmsg
  subst hmsg
  obtain ⟨fs, hd, ht, hsender⟩ := f.decodes_of_sender hz hs
  have hwell := hread fs (Frame.hasFields_message.mpr hd)
  obtain ⟨pre, post, hl, hlack⟩ := hwell.sender hsender
  obtain ⟨heq, -⟩ := locate_eq_some hl
  have hmem : (7, Value.str u) ∈ fs := hd.sender_mem hsender
  have hstr := isStr_of_mem hd.1 hmem
  have hshort := hd.length_of_mem hmem
  have hset : setFields 7 (toFakeName u b) fs
      = pre ++ (7, .str (toFakeName u b)) :: post := by
    unfold setFields
    rw [hl]
  have hroom' : (marshalFields f.endian 16
      (setFields 7 (toFakeName u b) fs)).length ≤ 2 ^ 26 := by
    have hgrow := setFields_length_add f.endian pre post 7
      (toFakeName_length u b)
    rw [← heq, hd.2] at hgrow
    unfold Message.HasRoom at hroom
    rw [f.fieldBytes_message] at hroom
    rw [hset]
    omega
  obtain ⟨g, hbytes, hsame, hdec⟩ := Frame.setString_frame hd hwell.plain
    (isStr_toFakeName hstr b (by omega)) hroom'
  have hgh : g.header z
      = { f.header z with sender := some (toFakeName u b) } := by
    rw [hdec.header hz (ht.setFields ..), hd.header hz ht,
      header_of_same hsame, hset]
    rw [heq, ofFields_sender pre hlack u]
    rfl
  refine ⟨_, Frame.rewriteMessageHeader_toClient b hz hd ht hwell.plain
    hsender hu, ?_, rfl⟩
  refine rewritten_of_frame hacc hsame hbytes ?_ rfl ?_
  · exact hgh.symm
  · rw [hgh]

/-- The destination of a message loses the prefix, and nothing else
changes. -/
theorem toUpstream_rewritten {z : Zvariant} {msg : Message} {d real : Text}
    {b : Bus} (target : Bus) (hz : z.FollowsSpec) (hacc : msg.Accepted z)
    (hread : msg.Readable 6)
    (hd : msg.header.destination = some d)
    (hreal : fromFakeName d = some (real, b)) :
    ∃ m, rewriteMessageHeader msg .toUpstream target = .ok m
      ∧ Rewritten z msg m
      ∧ m.header = { msg.header with destination := some real } := by
  obtain ⟨f, hmsg⟩ := hacc.eq_message
  generalize msg.fds = fds at hmsg
  subst hmsg
  obtain ⟨fs, hdec, ht, hdest⟩ := f.decodes_of_destination hz hd
  have hwell := hread fs (Frame.hasFields_message.mpr hdec)
  obtain ⟨pre, post, hl, hlack⟩ := hwell.destination hdest
  obtain ⟨heq, -⟩ := locate_eq_some hl
  have hstr := isStr_of_mem hdec.1 (hdec.destination_mem hdest)
  have hlen := fromFakeName_length hreal
  have hset : setFields 6 real fs = pre ++ (6, .str real) :: post := by
    unfold setFields
    rw [hl]
  have hroom : (marshalFields f.endian 16 (setFields 6 real fs)).length
      ≤ 2 ^ 26 := by
    have hshrink := setFields_length_le f.endian pre post 6
      (show real.length ≤ d.length by omega)
    have harr := f.array_le
    rw [← heq, hdec.2] at hshrink
    rw [hset]
    omega
  obtain ⟨g, hbytes, hsame, hgdec⟩ := Frame.setString_frame hdec hwell.plain
    (isStr_fromFakeName hstr hreal) hroom
  have hgh : g.header z
      = { f.header z with destination := some real } := by
    rw [hgdec.header hz (ht.setFields ..), hdec.header hz ht,
      header_of_same hsame, hset]
    rw [heq, ofFields_destination pre hlack d]
    rfl
  refine ⟨_, Frame.rewriteMessageHeader_toUpstream target hz hdec ht
    hwell.plain hdest hreal, ?_, rfl⟩
  refine rewritten_of_frame hacc hsame hbytes ?_ rfl ?_
  · exact hgh.symm
  · rw [hgh]

end DbusRouter.Model
