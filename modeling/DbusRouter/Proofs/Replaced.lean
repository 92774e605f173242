/-
Replacing a body.

Whatever the new body, the message around it differs from the old one in
the stored length and behind the body's start, and in nothing else
(`rebuild_keeps_frame`). So another replacement undoes the first, and the
two rewriters of a unique name, one for each direction, are each other's
inverses on a body that is one name (`unique_name_there_and_back`).

The limit is the decoder's. A body of more than 64 MiB is put behind the
header like any other, with its length as it is, and the prologue in front
of it does not parse (`rebuilt_body_refused`).
-/
import DbusRouter.Proofs.NameLists
import DbusRouter.Proofs.Owner

namespace DbusRouter.Model

open Wire Lib

-- ================================================================= the frame

theorem Frame.bodyStart_dvd (f : Frame) : 8 ∣ f.bodyStart := by
  have hmod := alignUp_mod isAlign_eight (16 + f.array.length)
  rw [← add_padTo8] at hmod
  exact Nat.dvd_of_mod_eq_zero hmod

/-- The body of an accepted message starts at a multiple of eight. -/
theorem Message.Accepted.bodyStart_dvd {z : Zvariant} {msg : Message}
    {start : Nat} (hacc : msg.Accepted z)
    (h : bodyStartOf msg.header.endian msg.raw = .ok start) : 8 ∣ start := by
  obtain ⟨f, hmsg⟩ := hacc.eq_message
  rw [hmsg] at h
  have hstart : bodyStartOf f.endian f.bytes = .ok start := h
  rw [f.bodyStartOf_bytes] at hstart
  cases hstart
  exact f.bodyStart_dvd

/-- What stands between the body length and the body. -/
theorem layout_header (e : Endian) (ty flags : UInt8)
    (bodyLen serial : Nat) (array padding body : Bytes) :
    ((layout e (fixedHeader e ty flags bodyLen serial) array padding
        body).drop 8).take (8 + array.length + padding.length)
      = e.bytes 4 serial ++ (e.bytes 4 array.length ++ (array ++ padding))
    := by
  have hat : At (layout e (fixedHeader e ty flags bodyLen serial) array
      padding body) 8 (e.bytes 4 serial
      ++ (e.bytes 4 array.length ++ (array ++ padding))) :=
    ⟨[marker e, ty, flags, 1] ++ e.bytes 4 bodyLen, body,
      by simp [layout, fixedHeader], by simp⟩
  have hlen : (e.bytes 4 serial
      ++ (e.bytes 4 array.length ++ (array ++ padding))).length
        = 8 + array.length + padding.length := by
    simp
    omega
  rw [← hlen]
  exact hat.take_drop

/-- The new message is the old one around another body: the first four
bytes, the bytes between the body length and the body, and the start of the
body, at a multiple of eight, are the same. -/
structure AroundBody (e : Endian) (old raw new : Bytes) (start : Nat) :
    Prop where
  aligned : 8 ∣ start
  before : bodyStartOf e old = .ok start
  after : bodyStartOf e raw = .ok start
  first : raw.take 4 = old.take 4
  stored : (raw.drop 4).take 4 = e.bytes 4 new.length
  header : (raw.drop 8).take (start - 8) = (old.drop 8).take (start - 8)
  body : raw.drop start = new

/-- Replacing the body of an accepted message keeps the frame. -/
theorem rebuild_keeps_frame {z : Zvariant} {msg : Message} {new : Bytes}
    (hacc : msg.Accepted z) (hnew : new.length < 2 ^ 32) :
    ∃ raw start p, rebuildMessageWithBody msg.raw msg.header.endian new
        = .ok raw
      ∧ AroundBody msg.header.endian msg.raw raw new start
      ∧ Prologue.parse (msg.raw.take minHeaderSize) = .ok p
      ∧ { p with bodyLen := new.length }.totalLen = raw.length
      ∧ (new.length ≤ 2 ^ 26 →
          Prologue.parse (raw.take minHeaderSize)
              = .ok { p with bodyLen := new.length }
            ∧ headerOf z raw
              = .ok { msg.header with bodyLen := new.length }) := by
  obtain ⟨f, hmsg⟩ := hacc.eq_message
  generalize msg.fds = fds at hmsg
  subst hmsg
  have harray := f.array_le
  have hfixed : ∀ n, (fixedHeader f.endian f.ty f.flags n f.serial).length
      = 12 := fun n => fixedHeader_length ..
  refine ⟨layout f.endian
      (fixedHeader f.endian f.ty f.flags new.length f.serial) f.array
      f.padding new, f.bodyStart, f.prologue, ?_, ?_, f.parse_bytes, ?_, ?_⟩
  · have hrebuild := f.rebuild_layout new
    rw [Nat.mod_eq_of_lt hnew] at hrebuild
    exact hrebuild
  · refine ⟨f.bodyStart_dvd, f.bodyStartOf_bytes,
      bodyStartOf_layout f.endian (hfixed _) (by omega), rfl, ?_, ?_, ?_⟩
    · show ((f.endian.bytes 4 new.length ++ f.endian.bytes 4 f.serial)
          ++ _).take 4 = _
      rw [List.append_assoc]
      exact List.take_left' (f.endian.bytes_length 4 _)
    · have hstart : f.bodyStart - 8
          = 8 + f.array.length + f.padding.length := by
        unfold Frame.bodyStart
        rw [f.padding_eq]
        omega
      show _ = (f.bytes.drop 8).take (f.bodyStart - 8)
      unfold Frame.bytes Frame.fixed
      rw [hstart, layout_header, layout_header]
    · unfold Frame.bodyStart
      rw [← f.padding_eq]
      exact layout_drop_body f.endian _ _ _ (hfixed _)
  · rw [layout_length f.endian _ _ _ (hfixed _), f.padding_eq]
    rfl
  · intro hle
    have hbytes : layout f.endian
        (fixedHeader f.endian f.ty f.flags new.length f.serial) f.array
        f.padding new = (f.withBody new hle).bytes := rfl
    rw [hbytes]
    exact ⟨(f.withBody new hle).parse_bytes,
      (f.withBody new hle).headerOf_bytes z⟩

/-- What is put behind the header before makes no difference. -/
theorem rebuild_rebuild {z : Zvariant} {msg : Message} {raw between : Bytes}
    (hacc : msg.Accepted z)
    (h : rebuildMessageWithBody msg.raw msg.header.endian between = .ok raw)
    (new : Bytes) :
    rebuildMessageWithBody raw msg.header.endian new
      = rebuildMessageWithBody msg.raw msg.header.endian new := by
  obtain ⟨f, hmsg⟩ := hacc.eq_message
  generalize msg.fds = fds at hmsg
  subst hmsg
  have harray := f.array_le
  have hbetween : rebuildMessageWithBody f.bytes f.endian between = .ok raw :=
    h
  rw [f.rebuild_layout] at hbetween
  cases hbetween
  show _ = rebuildMessageWithBody f.bytes f.endian new
  rw [f.rebuild_layout]
  exact rebuildMessageWithBody_layout f.endian f.ty f.flags _ f.serial _ _
    (by omega) f.padding_eq

/-- Putting the old body back gives the old message. -/
theorem rebuild_back {z : Zvariant} {msg : Message} {raw between : Bytes}
    (hacc : msg.Accepted z)
    (h : rebuildMessageWithBody msg.raw msg.header.endian between
      = .ok raw) :
    rebuildMessageWithBody raw msg.header.endian msg.body
      = .ok msg.raw := by
  obtain ⟨start, hbody⟩ := hacc.hasBody
  rw [rebuild_rebuild hacc h, rebuildMessageWithBody_eq hbody,
    rebuilt_self hacc hbody]

-- ================================================================= one name

section oneName

variable {msg : Message} {e : Endian} {start : Nat} {s real : Text}
  {b : Bus}

/-- The string of a body that is one. -/
theorem firstBodyString_strBytes (he : msg.header.endian = e)
    (h : HasBody e msg.raw start (strBytes e s)) (hs : IsStr s) :
    msg.firstBodyString = .ok (some s) := by
  subst he
  rw [firstBodyString_eq h (Or.inr (by rw [strBytes_length]; omega)),
    stringIn_strBytes _ hs.2.2, Option.map_some, fromUtf8Lossy_of_valid hs.1]

theorem rewriteSingleNameResponse_strBytes (he : msg.header.endian = e)
    (h : HasBody e msg.raw start (strBytes e s)) (hs : IsStr s)
    (hu : isUniqueName s = true) :
    rewriteSingleNameResponse msg b
      = rebuildMessageWithString msg.raw e (toFakeName s b) := by
  unfold rewriteSingleNameResponse
  rw [firstBodyString_strBytes he h hs, Outcome.ok_bind]
  simp only [hu, if_true]
  rw [he]

theorem rewriteUniqueNameRequest_strBytes (he : msg.header.endian = e)
    (h : HasBody e msg.raw start (strBytes e s)) (hs : IsStr s)
    (hreal : fromFakeName s = some (real, b)) {raw : Bytes}
    (hraw : rebuildMessageWithString msg.raw e real = .ok raw) :
    rewriteUniqueNameRequest msg = .ok (raw, b) := by
  unfold rewriteUniqueNameRequest
  rw [firstBodyString_strBytes he h hs, Outcome.ok_bind]
  simp only [hreal]
  rw [he, hraw]
  rfl

end oneName

/-- The name of a bus, prefixed on the way to the client and stripped on
the way back, leaves the message as it was. -/
theorem unique_name_there_and_back {z : Zvariant} {msg : Message}
    {u : Text} (hacc : msg.Accepted z) (hu : isUniqueName u = true)
    (hstr : IsStr u) (hbody : msg.body = strBytes msg.header.endian u)
    (b : Bus) :
    ∃ raw, rewriteSingleNameResponse msg b = .ok raw
      ∧ ∀ header fds, header.endian = msg.header.endian →
        rewriteUniqueNameRequest ⟨header, raw, fds⟩ = .ok (msg.raw, b) := by
  obtain ⟨start, hhas⟩ := hacc.hasBody
  have hlen := hacc.body_length
  rw [hbody, strBytes_length] at hlen
  have hfake := toFakeName_length u b
  have hfakeStr := isStr_toFakeName hstr b (by omega)
  have hthere := rebuildMessageWithString_eq hhas (toFakeName u b)
  have hnew := hasBody_rebuilt hacc hhas
    (stringBody msg.header.endian (toFakeName u b))
  have hback : rebuildMessageWithString
      (rebuilt msg.header.endian msg.raw start
        (stringBody msg.header.endian (toFakeName u b)))
      msg.header.endian u = .ok msg.raw := by
    have h := rebuild_back hacc hthere
    rw [hbody, ← stringBody_eq _ (by omega)] at h
    exact h
  rw [stringBody_eq _ hfakeStr.2.2] at hnew hthere hback
  rw [hbody] at hhas
  refine ⟨_, (rewriteSingleNameResponse_strBytes rfl hhas hstr hu).trans
    hthere, ?_⟩
  intro header fds he
  exact @rewriteUniqueNameRequest_strBytes ⟨header, _, fds⟩ _ _ _ _ _ he hnew
    hfakeStr (fromFakeName_toFakeName hu b) _ hback

-- ================================================================ many names

/-- The names of a list with the prefix of their bus are what is decoded
behind the rewritten header. -/
theorem name_list_prefixed {z : Zvariant} {msg : Message}
    {names : List Text} (hs : z.StringsFollowSpec) (hacc : msg.Accepted z)
    (hholds : HoldsNames msg.header.endian msg.raw names) (b : Bus)
    (hfit : Valid msg.header.endian ⟨0, 0, 0⟩ 0
      (namesValue (names.map (prefixUnique b)))) :
    ∃ raw, rewriteStringArrayResponse z msg b = .ok raw
      ∧ ∀ header fds, header.endian = msg.header.endian →
        parseStringArray z ⟨header, raw, fds⟩
          = .ok (names.map (prefixUnique b)) := by
  have hparse := hholds.parse hs
  unfold rewriteStringArrayResponse
  rw [hparse, Outcome.ok_bind]
  cases names with
  | nil =>
      refine ⟨msg.raw, rfl, ?_⟩
      intro header fds he
      rw [← he] at hholds
      exact @HoldsNames.parse _ ⟨header, msg.raw, fds⟩ _ hs hholds
  | cons name names =>
      obtain ⟨start, hhas⟩ := hacc.hasBody
      obtain ⟨c, rfl⟩ := hacc.bodyStart_dvd hhas.start_eq
      rw [List.isEmpty_cons, if_neg Bool.false_ne_true,
        hs.encodeStrings_eq _ _ _ hfit]
      refine ⟨_, rebuildMessageWithBody_eq hhas _, ?_⟩
      intro header fds he
      refine @HoldsNames.parse _ ⟨header, _, fds⟩ _ hs ⟨8 * c, ?_, ?_⟩
      · have hnew := hasBody_rebuilt hacc hhas
          (marshal msg.header.endian 0
            (namesValue ((name :: names).map (prefixUnique b))))
        have hshift := marshal_shift msg.header.endian c
          (namesValue ((name :: names).map (prefixUnique b))) 0
        rw [Nat.zero_add] at hshift
        show HasBody header.endian _ _ (marshal header.endian _ _)
        rw [he, hshift]
        exact hnew
      · have hshift := valid_shift msg.header.endian c
          (namesValue ((name :: names).map (prefixUnique b))) ⟨0, 0, 0⟩ 0
        rw [Nat.zero_add] at hshift
        show Valid header.endian _ _ _
        rw [he, hshift]
        exact hfit

-- ================================================================ together

/-- Body replacement round-trips and keeps the frame: any new body stands
behind the unchanged header at its 8-byte boundary, with its length stored,
and the decoder takes the whole for one message unless the body exceeds 64
MiB. So a unique name put in for the client is taken out again to the same
bytes, and a list of owners decodes to the prefixed list. -/
theorem body_replacement {z : Zvariant} {msg : Message}
    (hs : z.StringsFollowSpec) (hacc : msg.Accepted z) :
    (∀ new : Bytes, new.length < 2 ^ 32 →
      ∃ raw start p, rebuildMessageWithBody msg.raw msg.header.endian new
          = .ok raw
        ∧ AroundBody msg.header.endian msg.raw raw new start
        ∧ Prologue.parse (msg.raw.take minHeaderSize) = .ok p
        ∧ { p with bodyLen := new.length }.totalLen = raw.length
        ∧ (new.length ≤ 2 ^ 26 →
            Prologue.parse (raw.take minHeaderSize)
                = .ok { p with bodyLen := new.length }
              ∧ headerOf z raw
                = .ok { msg.header with bodyLen := new.length }))
    ∧ (∀ u b, isUniqueName u = true → IsStr u →
      msg.body = strBytes msg.header.endian u →
      ∃ raw, rewriteSingleNameResponse msg b = .ok raw
        ∧ ∀ header fds, header.endian = msg.header.endian →
          rewriteUniqueNameRequest ⟨header, raw, fds⟩ = .ok (msg.raw, b))
    ∧ (∀ names b, HoldsNames msg.header.endian msg.raw names →
      Valid msg.header.endian ⟨0, 0, 0⟩ 0
        (namesValue (names.map (prefixUnique b))) →
      ∃ raw, rewriteStringArrayResponse z msg b = .ok raw
        ∧ ∀ header fds, header.endian = msg.header.endian →
          parseStringArray z ⟨header, raw, fds⟩
            = .ok (names.map (prefixUnique b))) :=
  ⟨fun _ hnew => rebuild_keeps_frame hacc hnew,
    fun _ b hu hstr hbody => unique_name_there_and_back hacc hu hstr hbody b,
    fun _ b hholds hfit => name_list_prefixed hs hacc hholds b hfit⟩

/-- A bus daemon's answer with one name. -/
def ownerAnswer : Message :=
  .compose 2 9
    [(5, .fixed .uint32 3), (6, .str (utf8 ":1.4")), (7, .str busName),
     (8, .signature [.str])] (strBytes .little (utf8 ":1.5")) []

/-- A bus daemon's answer with the queue of a name. -/
def queueAnswer : Message :=
  .compose 2 9
    [(5, .fixed .uint32 3), (6, .str (utf8 ":1.4")), (7, .str busName),
     (8, .signature [.array .str])]
    (marshal .little 0 (namesValue [utf8 ":1.5", utf8 "org.a"])) []

theorem body_replacement_answers :
    (∃ raw, rewriteSingleNameResponse ownerAnswer .host = .ok raw
      ∧ ∀ header fds, header.endian = ownerAnswer.header.endian →
        rewriteUniqueNameRequest ⟨header, raw, fds⟩
          = .ok (ownerAnswer.raw, .host))
    ∧ ∃ raw, rewriteStringArrayResponse .reference queueAnswer .sandbox
        = .ok raw
      ∧ ∀ header fds, header.endian = queueAnswer.header.endian →
        parseStringArray .reference ⟨header, raw, fds⟩
          = .ok [utf8 ":s.1.5", utf8 "org.a"] := by
  constructor
  · exact (@body_replacement .reference ownerAnswer
      Zvariant.reference_stringsFollowSpec (by decide +kernel)).2.1
      (utf8 ":1.5") .host (by decide) (by decide) (by decide +kernel)
  · have hholds : HoldsNames queueAnswer.header.endian queueAnswer.raw
        [utf8 ":1.5", utf8 "org.a"] :=
      ⟨80, ⟨by decide +kernel, by decide +kernel, by decide +kernel⟩,
        by decide +kernel⟩
    exact (@body_replacement .reference queueAnswer
      Zvariant.reference_stringsFollowSpec (by decide +kernel)).2.2
      [utf8 ":1.5", utf8 "org.a"] .sandbox hholds (by decide +kernel)

/-- A longer body is put behind the header, and refused. -/
theorem rebuilt_refused {z : Zvariant} {msg : Message} {new : Bytes}
    (hacc : msg.Accepted z) (hlong : 2 ^ 26 < new.length)
    (hnew : new.length < 2 ^ 32) :
    ∃ raw, rebuildMessageWithBody msg.raw msg.header.endian new = .ok raw
      ∧ ∀ p, Prologue.parse (raw.take minHeaderSize) ≠ .ok p := by
  obtain ⟨f, hmsg⟩ := hacc.eq_message
  rw [hmsg]
  refine ⟨_, f.rebuild_layout new, ?_⟩
  intro p hp
  have hle := (bodyLen_of_parse (Nat.mod_lt _ (by norm_num)) hp).2
  rw [Nat.mod_eq_of_lt hnew] at hle
  omega

/-- A body of one byte more than 64 MiB. -/
@[irreducible] def longBody : Bytes := zeros (2 ^ 26 + 1)

theorem longBody_length : longBody.length = 2 ^ 26 + 1 := by
  unfold longBody
  exact zeros_length _

theorem rebuilt_body_refused :
    ownerAnswer.Accepted .reference ∧ longBody.length < 2 ^ 32
    ∧ ∃ raw, rebuildMessageWithBody ownerAnswer.raw
        ownerAnswer.header.endian longBody = .ok raw
      ∧ ∀ p, Prologue.parse (raw.take minHeaderSize) ≠ .ok p := by
  have hacc : ownerAnswer.Accepted .reference := by decide +kernel
  have hlen := longBody_length
  have hlt : longBody.length < 2 ^ 32 := by
    rw [hlen]
    norm_num
  exact ⟨hacc, hlt, rebuilt_refused hacc (by rw [hlen]; norm_num) hlt⟩

end DbusRouter.Model
