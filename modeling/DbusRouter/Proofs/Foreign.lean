/-
The bodies of messages from a bus.

A body is rewritten because of a member name: the one remembered for the
serial a METHOD_RETURN carries, or the signal's own. Nobody asks who sent
the message. `Session.KeepsBody` is what keeps a body out of the
rewriters' hands, and in a run where it holds of every message that is not
the bus daemon's, no such body changes (`foreign_bodies_untouched`). A
service that has a signal called `NameOwnerChanged` is enough to break it
(`foreign_body_rewritten`).
-/
import DbusRouter.Proofs.Stripped

namespace DbusRouter.Model

open Wire Lib

-- ================================================================ the header

/-- The walk reads the fields right on its way to the sender, if that gets
a prefix. -/
def Message.SenderPlain (msg : Message) : Prop :=
  ∀ u fs, msg.header.sender = some u → isUniqueName u = true →
    msg.HasFields fs → Plain 7 fs

/-- Whatever becomes of the header, the rewritten message ends in the same
body. -/
theorem toClient_body {z : Zvariant} {msg : Message} (b : Bus)
    (hz : z.FollowsSpec) (hacc : msg.Accepted z) (hplain : msg.SenderPlain) :
    ∃ m start, rewriteMessageHeader msg .toClient b = .ok m
      ∧ HasBody msg.header.endian m.raw start msg.body := by
  by_cases hu : ∀ u, msg.header.sender = some u → isUniqueName u = false
  · obtain ⟨start, hbody⟩ := hacc.hasBody
    exact ⟨msg, start, rewriteMessageHeader_toClient_of_not_unique hu, hbody⟩
  · push Not at hu
    obtain ⟨u, hs, hu⟩ := hu
    have hu : isUniqueName u = true := by simpa using hu
    obtain ⟨f, hmsg⟩ := hacc.eq_message
    generalize msg.fds = fds at hmsg
    subst hmsg
    obtain ⟨fs, hdec, ht, hsender⟩ := f.decodes_of_sender hz hs
    have hp := hplain u fs hs hu (Frame.hasFields_message.mpr hdec)
    have hlen := hdec.length_of_mem (hdec.sender_mem hsender)
    have hname := toFakeName_length u b
    have harr := f.array_le
    rw [← hdec.2] at harr
    have hgrow : (marshalFields f.endian 16
        (setFields 7 (toFakeName u b) fs)).length
          ≤ (marshalFields f.endian 16 fs).length
            + (toFakeName u b).length + 7 := setFields_length f.endian hp
    obtain ⟨start, hstart, hend, hdrop⟩ := Frame.setString_body
      (show (marshalFields f.endian 16
        (setFields 7 (toFakeName u b) fs)).length < 2 ^ 32 by omega)
    refine ⟨_, start,
      Frame.rewriteMessageHeader_toClient b hz hdec ht hp hsender hu, ?_⟩
    have hbody : (f.message z fds).body = f.body := f.bodyOf_bytes
    rw [hbody]
    exact ⟨hstart, hend, hdrop⟩

-- ================================================================== the body

/-- What keeps the body of a message from a bus as it is. -/
structure Session.KeepsBody (s : Session) (b : Bus) (msg : Message) :
    Prop where
  /-- it does not complete a merge -/
  merge : s.isIncomingServiceCall msg b = false →
    ∀ pending, s.mergeOf msg = some pending → pending.firstResponse = none
  /-- it answers no call whose member is listed -/
  reply : msg.header.msgType = .methodReturn → ∀ n info member,
    msg.header.replySerial = some n → s.pendingCalls n = some info →
    info.bus = b → info.member = some member →
    needsResponseRewrite member = false
  /-- it is no signal whose member is listed -/
  signal : msg.header.msgType = .signal → ∀ member,
    msg.header.member = some member → signalNeedsRewrite member = false
  /-- the walk reads its fields right, if its sender is rewritten -/
  header : s.isHostServiceCall msg b = false → msg.SenderPlain

theorem rewriteBodyForClient_of_kept {z : Zvariant} {s : Session}
    {msg m : Message} {b : Bus} {x : Option Text} {raw : Bytes}
    (hk : s.KeepsBody b msg)
    (hm : m.header = { msg.header with sender := x })
    (h : rewriteBodyForClient z m b s.pendingCalls = .ok raw) :
    raw = m.raw := by
  unfold rewriteBodyForClient at h
  split at h
  next hty =>
    have hty : msg.header.msgType = .methodReturn := by
      rw [hm] at hty
      exact hty
    unfold rewriteMethodReturnBody at h
    split at h
    next =>
      cases h
      rfl
    next info hinfo =>
      rw [hm, Option.bind_eq_some_iff] at hinfo
      obtain ⟨n, hn, hinfo⟩ := hinfo
      split at h
      next =>
        cases h
        rfl
      next hbus =>
        split at h
        next =>
          cases h
          rfl
        next member hmember =>
          have hno := hk.reply hty n info member hn hinfo (by simpa using hbus)
            hmember
          rw [hno] at h
          cases h
          rfl
  next hty =>
    have hty : msg.header.msgType = .signal := by
      rw [hm] at hty
      exact hty
    unfold rewriteSignalBody at h
    split at h
    next =>
      cases h
      rfl
    next member hmember =>
      rw [hm] at hmember
      rw [hk.signal hty member hmember] at h
      cases h
      rfl
  next =>
    cases h
    rfl

/-- A message that keeps its body is delivered with it. -/
theorem kept_body {L : Libs} {s s' : Session} {msg : Message} {b : Bus}
    {ws : List Write} {w : Write} (hz : L.zvariant.FollowsSpec)
    (hstep : s.Step L (.bus b msg) ws s') (hk : s.KeepsBody b msg)
    (hw : w ∈ ws) : bodyOf msg.header.endian w.raw = msg.body := by
  obtain ⟨hacc, hok⟩ := hstep
  have hacc : msg.Accepted L.zvariant := hacc
  cases upstream_of_ok hok with
  | @serviceCall m hcall hm =>
      rw [List.mem_singleton] at hw
      subst hw
      unfold serviceCallMessage at hm
      split at hm
      next hb =>
        have hhost : s.isHostServiceCall msg b = false := by
          rw [Session.isHostServiceCall, hb]
          simp
        obtain ⟨m', start, hm', hbody⟩ := toClient_body b hz hacc
          (hk.header hhost)
        rw [hm', Outcome.orElse_ok] at hm
        cases hm
        exact hbody.bodyOf
      next =>
        cases hm
        rfl
  | firstHalf => cases hw
  | @secondHalf n pending names response hcall hn hp hfirst =>
      have hmerge : s.mergeOf msg = some pending := by
        rw [Session.mergeOf, hn]
        exact hp
      rw [hk.merge hcall pending hmerge] at hfirst
      cases hfirst
  | @forwarded raw hcall _ hraw =>
      rw [List.mem_singleton] at hw
      subst hw
      have hhost : s.isHostServiceCall msg b = false := by
        rw [Session.isHostServiceCall, hcall]
        rfl
      obtain ⟨-, m, hm, hbody⟩ := prepare_eq_ok hraw
      obtain ⟨x, hx⟩ := rewrite_toClient_header hm
      rw [rewriteBodyForClient_of_kept hk hx hbody]
      obtain ⟨m', start, hm', hbody⟩ := toClient_body b hz hacc
        (hk.header hhost)
      rw [hm', Outcome.orElse_ok] at hm
      cases hm
      exact hbody.bodyOf

-- =================================================================== in a run

/-- Every message whose sender is not the bus daemon keeps its body. -/
def ForeignBodiesUntouched : Prop :=
  ∀ (L : Libs) (config : Config) (exe : Option Bytes)
    (t : List (Event × List Write)) (s s' : Session) (b : Bus)
    (msg : Message) (ws : List Write) (w : Write),
    L.zvariant.FollowsSpec → Run L (Session.new config exe) t s →
    s.Step L (.bus b msg) ws s' → msg.header.sender ≠ some busName →
    w ∈ ws → bodyOf msg.header.endian w.raw = msg.body

/-- A foreign message that keeps its body. -/
def Session.KeepsForeign (s : Session) (ev : Event) : Prop :=
  ∀ b msg, ev = .bus b msg → msg.header.sender ≠ some busName →
    s.KeepsBody b msg

/-- In a run where the foreign messages keep their bodies, what is written
for one has the body that was received. -/
theorem foreign_bodies_untouched {L : Libs} {config : Config}
    {exe : Option Bytes} {t : List (Event × List Write)} {s : Session}
    (hz : L.zvariant.FollowsSpec)
    (hrun : Steps (Meeting (Session.Step L) Session.KeepsForeign)
      (Session.new config exe) t s)
    {b : Bus} {msg : Message} {ws : List Write} {w : Write}
    (hmem : (.bus b msg, ws) ∈ t)
    (hforeign : msg.header.sender ≠ some busName) (hw : w ∈ ws) :
    bodyOf msg.header.endian w.raw = msg.body := by
  obtain ⟨u, m, m', -, hkeeps, hstep⟩ := hrun.meeting_mem hmem
  exact kept_body hz hstep (hkeeps b msg rfl hforeign) hw

-- ============================================================ one that is not

/-- A peer's signal with the three names of an owner change. -/
def peerSignal (member : String) : Message :=
  .compose 4 3
    [(1, .objectPath (utf8 "/")), (2, .str (utf8 "org.a.Watch")),
     (3, .str (utf8 member)), (7, .str (utf8 ":1.5")),
     (8, .signature [.str, .str, .str])]
    (marshal .little 0 (.struct [.str (utf8 "org.x"), .str (utf8 ":1.7"),
      .str (utf8 ":1.8")])) []

/-- The signal of a peer is rewritten as if it were the bus daemon's. -/
theorem foreign_body_rewritten : ¬ForeignBodiesUntouched := by
  intro h
  have hw : ∃ w ∈ ((Session.new sandboxOnly none).react referenceLibs
      (.bus .host (peerSignal "NameOwnerChanged"))).2,
        bodyOf (peerSignal "NameOwnerChanged").header.endian w.raw
          ≠ (peerSignal "NameOwnerChanged").body := by
    decide +kernel
  obtain ⟨w, hmem, hno⟩ := hw
  exact hno (h _ _ _ _ _ _ _ _ _ w Zvariant.reference_followsSpec .nil
    (step_react (by decide +kernel) (by decide +kernel)) (by decide +kernel)
    hmem)

/-- Under another name it arrives as it was sent. -/
theorem foreign_bodies_untouched_signal :
    ∃ w, ((Session.new sandboxOnly none).react referenceLibs
        (.bus .host (peerSignal "OwnersChanged"))).2 = [w]
      ∧ bodyOf .little w.raw = (peerSignal "OwnersChanged").body := by
  have hacc : (peerSignal "OwnersChanged").Accepted
      referenceLibs.zvariant := by
    decide +kernel
  have hread : (peerSignal "OwnersChanged").Readable 7 :=
    readable_iff.mp (by decide +kernel)
  have hkeeps : (Session.new sandboxOnly none).KeepsForeign
      (.bus .host (peerSignal "OwnersChanged")) := by
    intro b msg hev _
    cases hev
    refine ⟨?_, ?_, ?_, ?_⟩
    · intro _ pending hp
      cases hp
    · intro hty
      cases hty
    · intro _ member hm
      cases hm
      decide
    · intro _ u fs _ _ hfs
      exact (hread fs hfs).plain
  have hstep : (Session.new sandboxOnly none).Step referenceLibs
      (.bus .host (peerSignal "OwnersChanged"))
      ((Session.new sandboxOnly none).react referenceLibs
        (.bus .host (peerSignal "OwnersChanged"))).2
      ((Session.new sandboxOnly none).react referenceLibs
        (.bus .host (peerSignal "OwnersChanged"))).1 :=
    step_react (by decide +kernel) hacc
  obtain ⟨w, hws⟩ : ∃ w, ((Session.new sandboxOnly none).react referenceLibs
      (.bus .host (peerSignal "OwnersChanged"))).2 = [w] := by
    refine ⟨⟨.client, (((Session.new sandboxOnly none).react referenceLibs
      (.bus .host (peerSignal "OwnersChanged"))).2.map Write.raw).headD [],
      []⟩, ?_⟩
    decide +kernel
  refine ⟨w, hws, ?_⟩
  refine foreign_bodies_untouched Zvariant.reference_followsSpec
    (Steps.single ⟨hkeeps, hstep⟩) (List.mem_singleton_self _)
    (by decide +kernel) ?_
  rw [hws]
  exact List.mem_singleton_self w

end DbusRouter.Model
