/-
Every message written to a bus is one frame.

Three things are written for a client message: the message as it came, the
message with its destination rewritten, and the message with the first
string of its body rewritten. The first is a frame because it was read as
one; the others are frames when the walk over the header reads the fields
right and the results stay within the limits of the format
(`Message.Framable`). The splice does not look at the type of the field it
finds: in `unframed_write` a client makes the router write more bytes than
the message it announces.
-/
import DbusRouter.Proofs.Presented

namespace DbusRouter.Model

open Wire Lib

-- ============================================================ one whole frame

/-- A write is one whole frame of the client's message, with the
descriptors its own header declares. -/
def FrameOf (z : Zvariant) (msg : Message) (w : Write) : Prop :=
  ∃ p, Prologue.parse (w.raw.take minHeaderSize) = .ok p
    ∧ p.totalLen = w.raw.length ∧ p.msgType = msg.header.msgType
    ∧ p.serial = msg.header.serial
    ∧ w.fds.length = (parseHeaderFields z
        ((w.raw.drop minHeaderSize).take p.arrayLen) p.endian).unixFds.getD 0

instance (z : Zvariant) (msg : Message) (w : Write) :
    Decidable (FrameOf z msg w) :=
  match hp : Prologue.parse (w.raw.take minHeaderSize) with
  | .ok p =>
      decidable_of_iff (p.totalLen = w.raw.length
        ∧ p.msgType = msg.header.msgType ∧ p.serial = msg.header.serial
        ∧ w.fds.length = (parseHeaderFields z
            ((w.raw.drop minHeaderSize).take p.arrayLen)
            p.endian).unixFds.getD 0) <| by
        unfold FrameOf
        simp [hp]
  | .err _ => .isFalse fun ⟨p, h, _⟩ => by
      rw [hp] at h
      cases h
  | .panic _ => .isFalse fun ⟨p, h, _⟩ => by
      rw [hp] at h
      cases h

theorem frameOf_bytes {z : Zvariant} {f g : Frame} {fds : List Fd}
    {peer : Peer} (hty : g.ty = f.ty) (hserial : g.serial = f.serial)
    (hfds : fds.length = (g.header z).unixFds.getD 0) :
    FrameOf z (f.message z fds) ⟨peer, g.bytes, fds⟩ := by
  have harr := (layout_at_array g.endian g.array g.padding g.body
    g.fixed_length).take_drop
  refine ⟨g.prologue, g.parse_bytes, g.totalLen_prologue, ?_, hserial, ?_⟩
  · show MessageType.ofByte g.ty = .ofByte f.ty
    rw [hty]
  · rw [hfds]
    show _ = (parseHeaderFields z ((g.bytes.drop 16).take g.array.length)
      g.endian).unixFds.getD 0
    unfold Frame.bytes
    rw [harr]
    rfl

-- ============================================================ the destination

/-- The array does not get longer than the string does, up to alignment. -/
theorem setFields_length_room (e : Endian) (pre post : List Field)
    (code : UInt8) (s new : Text) :
    (marshalFields e 16 (pre ++ (code, .str new) :: post)).length + s.length
      ≤ (marshalFields e 16 (pre ++ (code, .str s) :: post)).length
        + new.length + 7 := by
  simp only [marshalFields_string, List.length_append, strBytes_length,
    arrayAfter_length, padTo8]
  split <;> omega

/-- The prefix of the destination can be taken out: the walk reads the
fields right, and the array keeps within the limit. -/
def Message.DestinationFits (msg : Message) : Prop :=
  ∀ d real b fs, msg.header.destination = some d →
    fromFakeName d = some (real, b) → msg.HasFields fs →
    Plain 6 fs ∧ ∀ pre s post, locate 6 fs = some (pre, .str s, post) →
      real.length ≤ s.length
        ∨ msg.fieldBytes.length + real.length + 7 ≤ 2 ^ 26 + s.length

/-- A destination that stands in the only field with its code fits. -/
theorem destinationFits_of_readable {z : Zvariant} {msg : Message}
    (hz : z.FollowsSpec) (hacc : msg.Accepted z) (h : msg.Readable 6) :
    msg.DestinationFits := by
  intro d real b fs hd hreal hfs
  have hwell := h fs hfs
  refine ⟨hwell.plain, ?_⟩
  intro pre s post hl
  obtain ⟨f, hmsg⟩ := hacc.eq_message
  generalize msg.fds = fds at hmsg
  subst hmsg
  have hdec : f.Decodes fs := Frame.hasFields_message.mp hfs
  have hdest : (ParsedHeaderFields.ofFields fs).destination = some d := by
    have hh : (f.header z).destination = some d := hd
    have ht := hdec.takes hz (Or.inr (by simp [hh]))
    rw [hdec.header hz ht] at hh
    exact hh
  obtain ⟨pre', post', hl', -⟩ := hwell.destination hdest
  rw [hl] at hl'
  cases hl'
  have hlen := fromFakeName_length hreal
  exact Or.inl (by omega)

/-- Where the real name fits, the array with it keeps within its limit. -/
theorem Frame.setFields_fits {f : Frame} {fs : List Field} {real : Text}
    (hdec : f.Decodes fs) (hplain : Plain 6 fs)
    (hroom : ∀ pre s post, locate 6 fs = some (pre, .str s, post) →
      real.length ≤ s.length
        ∨ f.array.length + real.length + 7 ≤ 2 ^ 26 + s.length) :
    (marshalFields f.endian 16 (setFields 6 real fs)).length ≤ 2 ^ 26 := by
  have harr := f.array_le
  rw [← hdec.2] at harr hroom
  unfold setFields
  cases hl : locate 6 fs with
  | none => exact harr
  | some x =>
      obtain ⟨pre, v, post⟩ := x
      obtain ⟨s, rfl⟩ := hplain.locate_str hl
      obtain ⟨heq, -⟩ := locate_eq_some hl
      show (marshalFields f.endian 16
        (pre ++ (6, .str real) :: post)).length ≤ _
      rcases hroom pre s post hl with hle | hle
      · have hshrink := setFields_length_le f.endian pre post 6 hle
        rw [heq] at harr
        omega
      · have hgrow := setFields_length_room f.endian pre post 6 s real
        rw [heq] at hle
        omega

/-- A new destination leaves the number of descriptors alone. -/
theorem setFields_unixFds (new : Text) (fs : List Field) :
    (ParsedHeaderFields.ofFields (setFields 6 new fs)).unixFds
      = (ParsedHeaderFields.ofFields fs).unixFds := by
  unfold setFields
  cases hl : locate 6 fs with
  | none => rfl
  | some x =>
      obtain ⟨pre, v, post⟩ := x
      obtain ⟨heq, -⟩ := locate_eq_some hl
      obtain ⟨y, hy⟩ := ofFields_eqUpToDestination pre post v (.str new)
      simp only [hy, heq]

/-- A message on its way to a bus, its destination rewritten, is a frame
of the same message. -/
theorem toUpstream_frame {z : Zvariant} {f : Frame} {fds : List Fd}
    {m : Message} {target : Bus} (hz : z.FollowsSpec)
    (hfit : (f.message z fds).DestinationFits)
    (hm : (rewriteMessageHeader (f.message z fds) .toUpstream target).orElse
      (f.message z fds) = .ok m) :
    m = f.message z fds ∨ ∃ g : Frame, m.raw = g.bytes ∧ SameMessage f g
      ∧ (g.header z).unixFds = (f.header z).unixFds
      ∧ ∃ real, m.header.destination = some real
        ∧ isUniqueName real = true := by
  cases hd : (f.header z).destination with
  | none =>
      left
      rw [rewriteMessageHeader_toUpstream_of_not_fake, Outcome.orElse_ok]
        at hm
      · cases hm
        rfl
      · intro d hd'
        have hd' : (f.header z).destination = some d := hd'
        rw [hd] at hd'
        cases hd'
  | some d =>
      cases hreal : fromFakeName d with
      | none =>
          left
          unfold rewriteMessageHeader at hm
          have hd' : (f.message z fds).header.destination = some d := hd
          simp only [hd', hreal] at hm
          cases hm
          rfl
      | some x =>
          obtain ⟨real, b⟩ := x
          right
          obtain ⟨fs, hdec, ht, hdest⟩ := f.decodes_of_destination hz hd
          obtain ⟨hplain, hroom⟩ := hfit d real b fs hd hreal
            (Frame.hasFields_message.mpr hdec)
          have hstr := isStr_of_mem hdec.1 (hdec.destination_mem hdest)
          rw [Frame.rewriteMessageHeader_toUpstream target hz hdec ht hplain
            hdest hreal, Outcome.orElse_ok] at hm
          cases hm
          rw [f.fieldBytes_message] at hroom
          have hlen := Frame.setFields_fits hdec hplain hroom
          obtain ⟨g, hbytes, hsame, hgdec⟩ := Frame.setString_frame hdec
            hplain (isStr_fromFakeName hstr hreal) hlen
          refine ⟨g, hbytes, hsame, ?_, real, rfl, ?_⟩
          · rw [hgdec.header hz (ht.setFields ..), hdec.header hz ht]
            exact setFields_unixFds real fs
          · obtain ⟨x, -, rfl⟩ := fromFakeName_eq_some hreal
            exact isUniqueName_iff.mpr ⟨x, rfl⟩

-- ================================================================== the body

/-- A match rule does not get longer when its sender gets shorter. -/
theorem replaceFrom_length_le {pat new : Text}
    (h : new.length ≤ pat.length) :
    ∀ (s : Text) (skip : Nat), skip ≤ s.length →
      (replaceFrom pat new skip s).length + skip ≤ s.length := by
  intro s
  induction s with
  | nil =>
      intro skip hskip
      cases skip with
      | zero => exact Nat.le_refl _
      | succ n => cases hskip
  | cons b s ih =>
      intro skip hskip
      cases skip with
      | succ n =>
          rw [replaceFrom]
          have hn := ih n (by simpa using hskip)
          rw [List.length_cons]
          omega
      | zero =>
          rw [replaceFrom]
          split
          next hp =>
            have hle := (List.isPrefixOf_iff_prefix.mp hp).length_le
            rw [List.length_cons] at hle
            have hn := ih (pat.length - 1) (by omega)
            rw [List.length_append, List.length_cons]
            cases hpat : pat.length with
            | zero =>
                rw [hpat] at h hn
                simp only [Nat.zero_sub] at hn ⊢
                omega
            | succ n =>
                rw [hpat] at h hn
                simp only [Nat.add_sub_cancel] at hn ⊢
                omega
          next =>
            have hn := ih 0 (Nat.zero_le _)
            rw [List.length_cons, List.length_cons]
            omega

theorem fromFakeName_le {f real : Text} {b : Bus}
    (h : fromFakeName f = some (real, b)) : real.length ≤ f.length := by
  have hlen := fromFakeName_length h
  omega

/-- Stripping makes no string longer. -/
theorem stripFor_length {member : Option Text} {s new : Text} {b : Bus}
    (h : stripFor member s = some (new, b)) : new.length ≤ s.length := by
  unfold stripFor at h
  split at h
  next => exact fromFakeName_le h
  next =>
    split at h
    next =>
      unfold stripRule at h
      rw [Option.bind_eq_some_iff] at h
      obtain ⟨sender, -, h⟩ := h
      rw [Option.map_eq_some_iff] at h
      obtain ⟨⟨real, bus⟩, hreal, heq⟩ := h
      cases heq
      unfold rewriteMatchRuleSender replace
      have hle := fromFakeName_le hreal
      refine replaceFrom_length_le ?_ s 0 (Nat.zero_le _)
      simp only [List.length_append]
      omega
    next => cases h

/-- The first string of a request to the bus daemon can be rewritten: with
invalid UTF-8 replaced, it still fits into a body. -/
def Message.RequestFits (msg : Message) : Prop :=
  ∀ s, msg.header.destination = some busName →
    stringIn msg.header.endian msg.body = some s →
    (stripFor msg.header.member (fromUtf8Lossy s)).isSome →
    (fromUtf8Lossy s).length + 5 ≤ 2 ^ 26

/-- A message whose first string has been replaced is a frame of the same
message. -/
theorem restringed_frame {z : Zvariant} {f : Frame} {fds : List Fd}
    (hdest : (f.message z fds).header.destination = some busName)
    (hfit : (f.message z fds).RequestFits) :
    ∃ g : Frame, restringed (f.message z fds) f.bodyStart
        (strippedString (f.message z fds) f.body) = g.bytes
      ∧ g.ty = f.ty ∧ g.serial = f.serial
      ∧ (g.header z).unixFds = (f.header z).unixFds := by
  cases hnew : strippedString (f.message z fds) f.body with
  | none => exact ⟨f, rfl, rfl, rfl, rfl⟩
  | some x =>
      obtain ⟨s, b⟩ := x
      unfold strippedString at hnew
      rw [Option.bind_eq_some_iff] at hnew
      obtain ⟨old, hold, hstrip⟩ := hnew
      rw [Option.map_eq_some_iff] at hold
      obtain ⟨bs, hbs, rfl⟩ := hold
      have hbody : (f.message z fds).body = f.body := f.bodyOf_bytes
      have hle := hfit bs hdest (by rw [hbody]; exact hbs)
        (by rw [hstrip]; rfl)
      have hlen := stripFor_length hstrip
      have hnewLen : (stringBody f.endian s).length ≤ 2 ^ 26 := by
        rw [stringBody_length]
        omega
      refine ⟨f.withBody _ hnewLen, ?_, rfl, rfl, rfl⟩
      have h := f.rebuild_bytes hnewLen
      rw [rebuildMessageWithBody_eq f.hasBody] at h
      exact Outcome.ok.inj h

-- ================================================================== all of it

/-- A message the router can write to a bus as one frame. -/
structure Message.Framable (msg : Message) : Prop where
  destination : msg.DestinationFits
  request : msg.RequestFits

/-- One message of the client: everything written for it goes to a bus and
is one frame. -/
theorem client_writes_framed {L : Libs} {s s' : Session} {msg : Message}
    {ws : List Write} {w : Write} (hz : L.zvariant.FollowsSpec)
    (hstep : s.Step L (.client msg) ws s') (hfit : msg.Framable)
    (hw : w ∈ ws) :
    (∃ b, w.peer = .bus b) ∧ FrameOf L.zvariant msg w := by
  obtain ⟨hacc, hok⟩ := hstep
  have hacc : msg.Accepted L.zvariant := hacc
  obtain ⟨f, hmsg⟩ := hacc.eq_message
  generalize msg.fds = fds at hmsg
  subst hmsg
  have hfds : fds.length = (f.header L.zvariant).unixFds.getD 0 :=
    hacc.fds_eq
  have hsame : ∀ {g : Frame} {peer : Peer}, g.ty = f.ty →
      g.serial = f.serial →
      (g.header L.zvariant).unixFds = (f.header L.zvariant).unixFds →
      FrameOf L.zvariant (f.message L.zvariant fds) ⟨peer, g.bytes, fds⟩ := by
    intro g peer hty hserial hunix
    exact frameOf_bytes hty hserial (by rw [hunix]; exact hfds)
  have horiginal : ∀ peer : Peer, FrameOf L.zvariant
      (f.message L.zvariant fds) ⟨peer, f.bytes, fds⟩ :=
    fun peer => hsame rfl rfl rfl
  cases downstream_of_ok hok with
  | @reply n b m _ _ _ hm =>
      rw [List.mem_singleton] at hw
      subst hw
      refine ⟨⟨b, rfl⟩, ?_⟩
      rcases toUpstream_frame hz hfit.destination hm with rfl | ⟨g, hraw,
        hsm, hunix, -⟩
      · exact horiginal _
      · show FrameOf _ _ ⟨.bus b, m.raw, fds⟩
        rw [hraw]
        exact hsame hsm.ty hsm.serial hunix
  | @toBus target s₁ m raw _ _ _ hm hraw =>
      rw [List.mem_singleton] at hw
      subst hw
      refine ⟨⟨target, rfl⟩, ?_⟩
      rcases toUpstream_frame hz hfit.destination hm with rfl | ⟨g, hg,
        hsm, hunix, real, hreal, huniq⟩
      · rcases rewriteRequestBody_cases f.hasBody hraw with rfl | ⟨hdest, rfl⟩
        · exact horiginal _
        · obtain ⟨g, hg, hty, hserial, hunix⟩ := restringed_frame hdest
            hfit.request
          show FrameOf _ _ ⟨.bus target, _, fds⟩
          rw [hg]
          exact hsame hty hserial hunix
      · have hne : m.header.destination ≠ some busName := by
          rw [hreal]
          intro h
          exact ne_busName huniq (Option.some.inj h)
        rw [rewriteRequestBody_of_ne hne] at hraw
        cases hraw
        show FrameOf _ _ ⟨.bus target, m.raw, fds⟩
        rw [hg]
        exact hsame hsm.ty hsm.serial hunix
  | @toBoth s₁ raw _ hroute _ hraw =>
      have hframe : ∀ peer : Peer, FrameOf L.zvariant
          (f.message L.zvariant fds) ⟨peer, raw, fds⟩ := by
        intro peer
        rcases bytesForBoth_cases f.hasBody hraw with rfl | ⟨-, rfl⟩
        · exact horiginal _
        · obtain ⟨-, hdest, -⟩ := routeRequest_of_not_single hroute
            (by simp)
          obtain ⟨g, hg, hty, hserial, hunix⟩ := restringed_frame hdest
            hfit.request
          rw [hg]
          exact hsame hty hserial hunix
      rw [List.mem_cons, List.mem_singleton] at hw
      rcases hw with rfl | rfl
      · exact ⟨⟨.host, rfl⟩, hframe _⟩
      · exact ⟨⟨.sandbox, rfl⟩, hframe _⟩
  | merge =>
      rw [List.mem_cons, List.mem_singleton] at hw
      rcases hw with rfl | rfl
      · exact ⟨⟨.host, rfl⟩, horiginal _⟩
      · exact ⟨⟨.sandbox, rfl⟩, horiginal _⟩

/-- Messages from a bus are never answered to a bus. -/
theorem upstream_writes {L : Libs} {s s' : Session} {msg : Message} {b : Bus}
    {ws : List Write} (h : Upstream L s msg b s' ws) {w : Write}
    (hw : w ∈ ws) : w.peer = .client := by
  cases h with
  | firstHalf => cases hw
  | serviceCall | secondHalf | forwarded =>
      rw [List.mem_singleton] at hw
      rw [hw]

/-- Whatever is written for a client message whose header fields decode is
one frame of it. -/
def WritesFramed : Prop :=
  ∀ (L : Libs) (config : Config) (exe : Option Bytes)
    (t : List (Event × List Write)) (s s' : Session) (msg : Message)
    (ws : List Write) (w : Write),
    L.zvariant.FollowsSpec → Run L (Session.new config exe) t s →
    s.Step L (.client msg) ws s' → (∃ fs, msg.HasFields fs) → w ∈ ws →
    FrameOf L.zvariant msg w

/-- In a run of messages that can be framed, every write to a bus is one
frame of the client message it is made for. -/
theorem writes_framed {L : Libs} {config : Config} {exe : Option Bytes}
    {t : List (Event × List Write)} {s : Session}
    (hz : L.zvariant.FollowsSpec)
    (hrun : Run L (Session.new config exe) t s)
    (hfit : ∀ msg ws, (.client msg, ws) ∈ t → msg.Framable)
    {ev : Event} {ws : List Write} {w : Write} {b : Bus}
    (hmem : (ev, ws) ∈ t) (hw : w ∈ ws) (hb : w.peer = .bus b) :
    ∃ msg, ev = .client msg ∧ FrameOf L.zvariant msg w := by
  obtain ⟨u, m, m', -, hstep⟩ := hrun.mem hmem
  rcases step_cases hstep with ⟨msg, rfl, -⟩ | ⟨b', msg, rfl, hu⟩
  · exact ⟨msg, rfl, (client_writes_framed hz hstep (hfit msg ws hmem) hw).2⟩
  · rw [upstream_writes hu hw] at hb
    cases hb

-- ============================================================ one that is not

/-- No name belongs to the host. -/
def sandboxOnly : Config := ⟨[], []⟩

/-- A call whose first DESTINATION is the number 35. The second one, a
string, is the one routing reads. -/
def oddDestination : Message :=
  .compose 1 7
    [(1, .objectPath (utf8 "/")), (3, .str (utf8 "Get")),
     (6, .fixed .uint32 35), (6, .str (utf8 ":h.1.5"))] [] []

/-- The splice takes the number for the length of a string: the header it
writes announces 40 bytes, and 61 are written. -/
theorem unframed_write : ¬WritesFramed := by
  intro h
  have hacc : oddDestination.Accepted referenceLibs.zvariant := by
    decide +kernel
  have hfields : ∃ fs, oddDestination.HasFields fs := by
    simp only [hasFields_iff]
    exact Option.isSome_iff_exists.mp (by decide +kernel)
  have hw : ∃ w ∈ ((Session.new sandboxOnly none).react referenceLibs
      (.client oddDestination)).2,
        ¬FrameOf referenceLibs.zvariant oddDestination w := by
    decide +kernel
  obtain ⟨w, hmem, hno⟩ := hw
  exact hno (h _ _ _ _ _ _ _ _ w Zvariant.reference_followsSpec .nil
    (step_react (by decide +kernel) hacc) hfields hmem)

/-- A request to a prefixed name is written as one frame of its own. -/
theorem writes_framed_request :
    ∃ w, ((Session.new sandboxOnly none).react referenceLibs
        (.client directAnswer)).2 = [w] ∧ w.peer = .bus .host
      ∧ FrameOf .reference directAnswer w := by
  have hacc : directAnswer.Accepted referenceLibs.zvariant := by
    decide +kernel
  have hread : directAnswer.Readable 6 :=
    readable_iff.mp (by decide +kernel)
  have hfit : directAnswer.Framable := by
    refine ⟨destinationFits_of_readable Zvariant.reference_followsSpec hacc
      hread, ?_⟩
    intro s hdest
    exact absurd hdest (by decide)
  have hstep : (Session.new sandboxOnly none).Step referenceLibs
      (.client directAnswer)
      ((Session.new sandboxOnly none).react referenceLibs
        (.client directAnswer)).2
      ((Session.new sandboxOnly none).react referenceLibs
        (.client directAnswer)).1 :=
    step_react (by decide +kernel) hacc
  obtain ⟨w, hws, hpeer⟩ : ∃ w, ((Session.new sandboxOnly none).react
      referenceLibs (.client directAnswer)).2 = [w]
      ∧ w.peer = .bus .host := by
    refine ⟨⟨.bus .host, (((Session.new sandboxOnly none).react referenceLibs
      (.client directAnswer)).2.map Write.raw).headD [], []⟩, ?_, rfl⟩
    decide +kernel
  have hone : ∀ msg ws, (.client msg, ws) ∈ [(Event.client directAnswer,
      ((Session.new sandboxOnly none).react referenceLibs
        (.client directAnswer)).2)] → msg.Framable := by
    intro msg ws hmem
    rw [List.mem_singleton] at hmem
    cases hmem
    exact hfit
  have hw : w ∈ ((Session.new sandboxOnly none).react referenceLibs
      (.client directAnswer)).2 := by
    rw [hws]
    exact List.mem_singleton_self w
  obtain ⟨msg, hev, hframe⟩ := writes_framed
    Zvariant.reference_followsSpec (Steps.single hstep) hone
    (List.mem_singleton_self _) hw hpeer
  cases hev
  exact ⟨w, hws, hpeer, hframe⟩

end DbusRouter.Model
