/-
Letters: what a message says, apart from the bytes that say it.

Two frames of one letter differ in nothing but their padding, and an accepted
message says at most one letter (`Says.unique`), whose header is its own
(`Says.header`). On letters the two rewrites of a header are what they are
meant to be: another name in one field, with every other field, the body and
the descriptors as they were (`toClient_says`, `toUpstream_says`).
-/
import DbusRouter.Proofs.Foreign
import DbusRouter.Proofs.Renamed

namespace DbusRouter.Model

open Wire Lib

-- ================================================================== letters

/-- What a message says. -/
structure Letter where
  endian : Endian
  ty : UInt8
  flags : UInt8
  serial : Nat
  fields : List Field
  body : Bytes
  fds : List Fd

namespace Letter

/-- The header of the letter. -/
def header (l : Letter) : MessageHeader :=
  Prologue.intoHeader
    { endian := l.endian
      msgType := .ofByte l.ty
      flags := l.flags
      serial := l.serial
      bodyLen := l.body.length
      arrayLen := (marshalFields l.endian 16 l.fields).length }
    (.ofFields l.fields)

/-- The letter with another name in one field. -/
def put (code : UInt8) (name : Text) (l : Letter) : Letter :=
  { l with fields := replaced code name l.fields }

/-- A letter from bus `b` as the client is to see it: a unique name it comes
from is shown as the bus's. -/
def shown (b : Bus) (l : Letter) : Letter :=
  match l.header.sender with
  | none => l
  | some u => if isUniqueName u then l.put 7 (toFakeName u b) else l

/-- A letter of the client's as a bus is to see it: a name shown to the
client is the real one again. -/
def meant (l : Letter) : Letter :=
  match l.header.destination.bind fromFakeName with
  | none => l
  | some (real, _) => l.put 6 real

end Letter

/-- The letter of a frame. -/
def Frame.letter (f : Frame) (fs : List Field) (fds : List Fd) : Letter :=
  ⟨f.endian, f.ty, f.flags, f.serial, fs, f.body, fds⟩

/-- The message's bytes are a frame of the letter, whose fields the crate
decodes. -/
def Message.Says (z : Zvariant) (msg : Message) (l : Letter) : Prop :=
  ∃ (f : Frame) (fs : List Field), msg.raw = f.bytes ∧ f.Decodes fs
    ∧ z.Takes fs ∧ l = f.letter fs msg.fds

theorem Frame.says_letter {z : Zvariant} {f : Frame} {fs : List Field}
    (h : f.Decodes fs) (ht : z.Takes fs) (fds : List Fd) :
    (f.message z fds).Says z (f.letter fs fds) :=
  ⟨f, fs, rfl, h, ht, rfl⟩

theorem Frame.Decodes.header_letter {z : Zvariant} (hz : z.FollowsSpec)
    {f : Frame} {fs : List Field} (h : f.Decodes fs) (ht : z.Takes fs)
    (fds : List Fd) : (f.letter fs fds).header = f.header z := by
  rw [h.header hz ht]
  show f.prologue.intoHeader _ = f.prologue.intoHeader _
  rfl

/-- The bytes of a frame have one reading. -/
theorem Frame.letter_unique {f g : Frame} {fs gs : List Field}
    (h : f.bytes = g.bytes) (hf : f.Decodes fs) (hg : g.Decodes gs)
    (fds : List Fd) : f.letter fs fds = g.letter gs fds := by
  have hp : f.prologue = g.prologue := by
    have hparse := f.parse_bytes
    rw [h, g.parse_bytes] at hparse
    exact (Outcome.ok.inj hparse).symm
  have he : f.endian = g.endian := congrArg Prologue.endian hp
  have hflags : f.flags = g.flags := congrArg Prologue.flags hp
  have hserial : f.serial = g.serial := congrArg Prologue.serial hp
  have hlen : f.array.length = g.array.length :=
    congrArg Prologue.arrayLen hp
  have hty : f.ty = g.ty := by
    have hsecond := congrArg (·[1]?) h
    simpa [Frame.bytes, layout, Frame.fixed, fixedHeader] using hsecond
  have harray : f.array = g.array := by
    rw [← (layout_at_array f.endian f.array f.padding f.body
      f.fixed_length).take_drop, ← (layout_at_array g.endian g.array g.padding
      g.body g.fixed_length).take_drop, hlen]
    exact congrArg (fun bs => (bs.drop 16).take g.array.length) h
  have hbody : f.body = g.body := by
    rw [← f.bodyOf_bytes, ← g.bodyOf_bytes, h, he]
  have hfields : fs = gs := by
    unfold Frame.Decodes at hf
    rw [he, harray] at hf
    exact Frame.Decodes.unique (f := g) hf hg
  unfold Frame.letter
  rw [he, hty, hflags, hserial, hfields, hbody]

namespace Message

/-- A message says one letter. -/
theorem Says.unique {z : Zvariant} {msg : Message} {l l' : Letter}
    (h : msg.Says z l) (h' : msg.Says z l') : l = l' := by
  obtain ⟨f, fs, hraw, hf, -, rfl⟩ := h
  obtain ⟨g, gs, hraw', hg, -, rfl⟩ := h'
  exact Frame.letter_unique (hraw.symm.trans hraw') hf hg msg.fds

/-- The parsed header of a message is that of the letter it says. -/
theorem Says.header {z : Zvariant} {msg : Message} {l : Letter}
    (hz : z.FollowsSpec) (hacc : msg.Accepted z) (h : msg.Says z l) :
    msg.header = l.header := by
  obtain ⟨f, fs, hraw, hf, ht, rfl⟩ := h
  have hread := hacc.headerOf_raw
  rw [hraw, f.headerOf_bytes z] at hread
  rw [hf.header_letter hz ht]
  exact (Outcome.ok.inj hread).symm

/-- The frame of a message that says a letter. -/
theorem Says.exists_frame {z : Zvariant} {msg : Message} {l : Letter}
    (hz : z.FollowsSpec) (hacc : msg.Accepted z) (h : msg.Says z l) :
    ∃ (f : Frame) (fs : List Field), msg = f.message z msg.fds
      ∧ f.Decodes fs ∧ z.Takes fs ∧ l = f.letter fs msg.fds := by
  have hheader := h.header hz hacc
  obtain ⟨f, fs, hraw, hd, ht, rfl⟩ := h
  rw [hd.header_letter hz ht] at hheader
  refine ⟨f, fs, ?_, hd, ht, rfl⟩
  rw [Frame.message, ← hraw, ← hheader]

/-- The fields of a message are those of the letter it says. -/
theorem Says.hasFields {z : Zvariant} {msg : Message} {l : Letter}
    (hz : z.FollowsSpec) (hacc : msg.Accepted z) (h : msg.Says z l) :
    msg.HasFields l.fields := by
  obtain ⟨f, fs, hmsg, hd, -, rfl⟩ := h.exists_frame hz hacc
  rw [hmsg]
  exact Frame.hasFields_message.mpr hd

/-- An accepted message whose header fields decode says a letter. -/
theorem Accepted.exists_letter {z : Zvariant} {msg : Message} {fs : List Field}
    (hacc : msg.Accepted z) (h : msg.HasFields fs) (ht : z.Takes fs) :
    ∃ l, msg.Says z l := by
  obtain ⟨f, hmsg⟩ := hacc.eq_message
  generalize msg.fds = fds at hmsg
  subst hmsg
  exact ⟨_, Frame.says_letter (Frame.hasFields_message.mp h) ht fds⟩

end Message

-- ============================================================= other names

/-- The walk's rewrite of a field that it reaches is the rewrite of every
field with the code. -/
theorem setFields_eq_replaced {code : UInt8} {fs pre post : List Field}
    {old : Text} (new : Text) (hl : locate code fs
      = some (pre, .str old, post)) (hpost : Lacks code post) :
    setFields code new fs = replaced code new fs := by
  obtain ⟨rfl, hpre⟩ := locate_eq_some hl
  unfold setFields
  rw [hl]
  exact (replaced_append new hpre hpost).symm

/-- A frame with another name in one field. -/
theorem Frame.put {f : Frame} {code : UInt8} {fs pre post : List Field}
    {old new : Text} (hd : f.Decodes fs)
    (hl : locate code fs = some (pre, .str old, post))
    (hpost : Lacks code post) (hnew : IsStr new)
    (hroom : (marshalFields f.endian 16 (pre ++ (code, .str new) :: post)).length
      ≤ 2 ^ 26) (fds : List Fd) :
    ∃ g : Frame, f.setString code new fs = g.bytes
      ∧ g.Decodes (replaced code new fs)
      ∧ g.letter (replaced code new fs) fds
        = (f.letter fs fds).put code new := by
  have hset : setFields code new fs = pre ++ (code, .str new) :: post := by
    unfold setFields
    rw [hl]
  rw [← hset] at hroom
  obtain ⟨g, hbytes, hsame, hdec⟩ :=
    Frame.setString_frame hd (plain_of_locate hl) hnew hroom
  rw [setFields_eq_replaced new hl hpost] at hdec
  refine ⟨g, hbytes, hdec, ?_⟩
  unfold Frame.letter Letter.put
  rw [hsame.endian, hsame.ty, hsame.flags, hsame.serial, hsame.body]

namespace Letter

variable {l : Letter} {u : Text}

/-- The name a unique sender is shown under. -/
theorem shown_sender (b : Bus) (hs : l.header.sender = some u)
    (hu : isUniqueName u = true) (hwell : WellPlaced 7 l.fields) :
    (l.shown b).header.sender = some (toFakeName u b) := by
  obtain ⟨pre, post, hl, hpost⟩ := hwell.sender hs
  obtain ⟨hfields, hpre⟩ := locate_eq_some hl
  have hput : (l.put 7 (toFakeName u b)).fields
      = pre ++ (7, .str (toFakeName u b)) :: post := by
    show replaced 7 _ l.fields = _
    rw [hfields, replaced_append _ hpre hpost]
  unfold shown
  simp only [hs, hu, if_true]
  show (ParsedHeaderFields.ofFields (l.put 7 _).fields).sender = _
  rw [hput, ofFields_sender pre hpost u]

/-- A letter to a name that was shown is meant for the real one. -/
theorem meant_destination {b : Bus}
    (hd : l.header.destination = some (toFakeName u b))
    (hu : isUniqueName u = true) (hwell : WellPlaced 6 l.fields) :
    l.meant.header.destination = some u := by
  obtain ⟨pre, post, hl, hpost⟩ := hwell.destination hd
  obtain ⟨hfields, hpre⟩ := locate_eq_some hl
  have hput : (l.put 6 u).fields = pre ++ (6, .str u) :: post := by
    show replaced 6 _ l.fields = _
    rw [hfields, replaced_append _ hpre hpost]
  unfold meant
  rw [hd, Option.bind_some, fromFakeName_toFakeName hu b]
  show (ParsedHeaderFields.ofFields (l.put 6 u).fields).destination = _
  rw [hput, ofFields_destination pre hpost (toFakeName u b)]

/-- A letter to a name that is not a bus's is meant for that name. -/
theorem meant_of_not_fake (hd : l.header.destination = some u)
    (hu : getBusFromFakeName u = none) : l.meant = l := by
  have hnone : fromFakeName u = none := by
    unfold fromFakeName
    rw [hu]
    rfl
  unfold meant
  rw [hd, Option.bind_some, hnone]

end Letter

section rewritten

variable {z : Zvariant} {msg : Message} {l : Letter}

/-- What a name of its sender's needs to be shown as the bus's. -/
def Message.SenderShowable (msg : Message) : Prop :=
  ∀ u, msg.header.sender = some u → isUniqueName u = true →
    msg.SenderRewritable

/-- What a name shown to the client needs to be real again. -/
def Message.DestinationMeant (msg : Message) : Prop :=
  ∀ d, msg.header.destination = some d → getBusFromFakeName d ≠ none →
    msg.Readable 6

/-- The client is shown the letter with its sender's name as the bus's. -/
theorem toClient_says (b : Bus) (hz : z.FollowsSpec) (hacc : msg.Accepted z)
    (hsaid : msg.Says z l) (hname : msg.SenderShowable) :
    ∃ m, rewriteMessageHeader msg .toClient b = .ok m ∧ m.Accepted z
      ∧ m.fds = msg.fds ∧ m.Says z (l.shown b)
      ∧ ∃ x, m.header = { msg.header with sender := x } := by
  obtain ⟨f, fs, hmsg, hd, ht, hletter⟩ := hsaid.exists_frame hz hacc
  unfold Letter.shown
  rw [← hsaid.header hz hacc]
  by_cases hu : ∃ u, msg.header.sender = some u ∧ isUniqueName u = true
  · obtain ⟨u, hs, hu⟩ := hu
    obtain ⟨hread, hroom⟩ := hname u hs hu
    obtain ⟨m, hm, hrew, hh⟩ :=
      toClient_rewritten b hz hacc hread hroom hs hu
    refine ⟨m, hm, hrew.accepted, hrew.fds, ?_, _, hh⟩
    simp only [hs, hu, if_true]
    generalize msg.fds = fds at hmsg hletter
    subst hmsg hletter
    have hsender : (ParsedHeaderFields.ofFields fs).sender = some u := by
      rw [← hs, Frame.message, hd.header hz ht]
      rfl
    obtain ⟨pre, post, hl, hlack⟩ :=
      (hread fs (Frame.hasFields_message.mpr hd)).sender hsender
    have hmem : (7, Value.str u) ∈ fs := hd.sender_mem hsender
    have hlen := hd.length_of_mem hmem
    have hroom' : (marshalFields f.endian 16
        (pre ++ (7, .str (toFakeName u b)) :: post)).length ≤ 2 ^ 26 := by
      have hgrow := setFields_length_add f.endian pre post 7
        (toFakeName_length u b)
      rw [← (locate_eq_some hl).1, hd.2] at hgrow
      unfold Message.HasRoom at hroom
      rw [f.fieldBytes_message] at hroom
      omega
    obtain ⟨g, hbytes, hdec, hput⟩ := Frame.put hd hl hlack
      (isStr_toFakeName (isStr_of_mem hd.1 hmem) b (by omega)) hroom' fds
    rw [Frame.rewriteMessageHeader_toClient b hz hd ht (plain_of_locate hl)
      hsender hu] at hm
    cases hm
    have htaken := ht.setFields 7 (toFakeName u b)
    rw [setFields_eq_replaced _ hl hlack] at htaken
    exact ⟨g, _, hbytes, hdec, htaken, hput.symm⟩
  · have hno : ∀ u, msg.header.sender = some u → isUniqueName u = false := by
      intro u hs
      by_contra hne
      exact hu ⟨u, hs, by simpa using hne⟩
    refine ⟨msg, rewriteMessageHeader_toClient_of_not_unique hno, hacc, rfl,
      ?_, _, rfl⟩
    cases hs : msg.header.sender with
    | none => exact hsaid
    | some u =>
        simp only [hno u hs]
        exact hsaid

/-- A bus is shown the letter with the name it is meant for. -/
theorem toUpstream_says (target : Bus) (hz : z.FollowsSpec)
    (hacc : msg.Accepted z) (hsaid : msg.Says z l)
    (hname : msg.DestinationMeant) :
    ∃ m, rewriteMessageHeader msg .toUpstream target = .ok m ∧ m.Accepted z
      ∧ m.fds = msg.fds ∧ m.Says z l.meant
      ∧ ∀ d, m.header.destination = some d →
        msg.header.destination = some d ∨ isUniqueName d = true := by
  obtain ⟨f, fs, hmsg, hd, ht, hletter⟩ := hsaid.exists_frame hz hacc
  unfold Letter.meant
  rw [← hsaid.header hz hacc]
  cases hx : msg.header.destination.bind fromFakeName with
  | none =>
      refine ⟨msg, rewriteMessageHeader_toUpstream_of_not_fake ?_, hacc, rfl,
        hsaid, fun d hdest => Or.inl hdest⟩
      intro d hdest
      rw [hdest, Option.bind_some] at hx
      unfold fromFakeName at hx
      simpa using hx
  | some x =>
      obtain ⟨real, b⟩ := x
      obtain ⟨d, hdest, hreal⟩ := Option.bind_eq_some_iff.mp hx
      have hfake : getBusFromFakeName d ≠ none := by
        intro hnone
        unfold fromFakeName at hreal
        rw [hnone] at hreal
        cases hreal
      have hread := hname d hdest hfake
      obtain ⟨m, hm, hrew, hh⟩ :=
        toUpstream_rewritten target hz hacc hread hdest hreal
      refine ⟨m, hm, hrew.accepted, hrew.fds, ?_, ?_⟩
      · simp only
        generalize msg.fds = fds at hmsg hletter
        subst hmsg hletter
        have hparsed : (ParsedHeaderFields.ofFields fs).destination
            = some d := by
          rw [← hdest, Frame.message, hd.header hz ht]
          rfl
        obtain ⟨pre, post, hl, hlack⟩ :=
          (hread fs (Frame.hasFields_message.mpr hd)).destination hparsed
        have hstr := isStr_of_mem hd.1 (hd.destination_mem hparsed)
        have hlen := fromFakeName_length hreal
        have hroom : (marshalFields f.endian 16
            (pre ++ (6, .str real) :: post)).length ≤ 2 ^ 26 := by
          have hshrink := setFields_length_le f.endian pre post 6
            (show real.length ≤ d.length by omega)
          have harr := f.array_le
          rw [← (locate_eq_some hl).1, hd.2] at hshrink
          omega
        obtain ⟨g, hbytes, hdec, hput⟩ := Frame.put hd hl hlack
          (isStr_fromFakeName hstr hreal) hroom fds
        rw [Frame.rewriteMessageHeader_toUpstream target hz hd ht
          (plain_of_locate hl) hparsed hreal] at hm
        cases hm
        have htaken := ht.setFields 6 real
        rw [setFields_eq_replaced _ hl hlack] at htaken
        exact ⟨g, _, hbytes, hdec, htaken, hput.symm⟩
      · intro d' hd'
        rw [hh] at hd'
        cases hd'
        obtain ⟨y, -, rfl⟩ := fromFakeName_eq_some hreal
        exact Or.inr (isUniqueName_iff.mpr ⟨y, rfl⟩)

end rewritten

end DbusRouter.Model
