/-
The sender names a client is shown.

A message from bus `b` whose sender is `u` is delivered under
`toFakeName u b`, so that an answer addressed to the name finds its way
back. One path keeps the real name: a call from the host to a name the
client owns there (`Session.shownName`). Such a name does not lead back to
the host; `presented_by_real_name` is a run in which it does not.

Everything shown with a prefix routes back, from every later state
(`presented_sender_routes_back`).
-/
import DbusRouter.Proofs.Body
import DbusRouter.Proofs.Reply

namespace DbusRouter.Model

open Wire Lib

-- =================================================== the sender of some bytes

/-- The header-field array of a message's bytes. -/
def arrayIn (e : Endian) (raw : Bytes) : Bytes :=
  (raw.drop minHeaderSize).take (e.nat ((raw.drop fixedHeaderSize).take 4))

/-- The sender that bytes name, whatever the length of their body. -/
def senderIn (z : Zvariant) (raw : Bytes) : Result (Option Text) := do
  let marker ← index raw 0
  let e ← Prologue.endianOf marker
  .ok (parseHeaderFields z (arrayIn e raw) e).sender

theorem senderIn_layout (z : Zvariant) (e : Endian) (ty flags : UInt8)
    (bodyLen serial : Nat) {array : Bytes} (padding body : Bytes)
    (ha : array.length < 2 ^ 32) :
    senderIn z (layout e (fixedHeader e ty flags bodyLen serial) array
      padding body) = .ok (parseHeaderFields z array e).sender := by
  have hfixed := fixedHeader_length e ty flags bodyLen serial
  have hlen := (layout_at_arrayLen e array padding body hfixed).take_drop
  have harr := (layout_at_array e array padding body hfixed).take_drop
  rw [Endian.bytes_length] at hlen
  have harray : arrayIn e (layout e (fixedHeader e ty flags bodyLen serial)
      array padding body) = array := by
    unfold arrayIn minHeaderSize fixedHeaderSize
    rw [hlen, e.nat_bytes (by norm_num; omega), harr]
  unfold senderIn
  have hmarker : (index (layout e (fixedHeader e ty flags bodyLen serial)
      array padding body) 0 : Result UInt8) = .ok (marker e) := rfl
  rw [hmarker, Outcome.ok_bind, endianOf_marker, Outcome.ok_bind, harray]

theorem Frame.senderIn_bytes (z : Zvariant) (f : Frame) :
    senderIn z f.bytes = .ok (f.header z).sender := by
  have ha := f.array_le
  exact senderIn_layout z f.endian f.ty f.flags _ _ _ _ (by omega)

/-- A new body leaves the sender alone. -/
theorem senderIn_rewritten {z : Zvariant} {m : Message} {b : Bus}
    {calls : PMap Nat PendingCallInfo} {raw : Bytes} (hacc : m.Accepted z)
    (h : rewriteBodyForClient z m b calls = .ok raw) :
    senderIn z raw = .ok m.header.sender := by
  obtain ⟨f, hm⟩ := hacc.eq_message
  generalize m.fds = fds at hm
  subst hm
  rcases rewriteBodyForClient_cases h with rfl | ⟨new, hnew⟩
  · exact f.senderIn_bytes z
  · have hrebuilt : rebuildMessageWithBody f.bytes f.endian new = .ok raw :=
      hnew
    rw [f.rebuild_layout] at hrebuilt
    cases hrebuilt
    have ha := f.array_le
    exact senderIn_layout z f.endian f.ty f.flags _ _ _ _ (by omega)

-- ============================================================ what is shown

/-- The written bytes show the client the sender `d`. -/
def Presented (z : Zvariant) (ws : List Write) (d : Text) : Prop :=
  ∃ raw fds, ws = [⟨.client, raw, fds⟩] ∧ senderIn z raw = .ok (some d)

/-- A call from the host to a name the client owns there. -/
def Session.isHostServiceCall (s : Session) (msg : Message) (b : Bus) :
    Bool :=
  s.isIncomingServiceCall msg b && b == .host

/-- The name a sender is shown under. -/
def Session.shownName (s : Session) (msg : Message) (b : Bus) (u : Text) :
    Text :=
  if s.isHostServiceCall msg b then u else toFakeName u b

/-- The sender can be rewritten: the walk finds it, and there is room. -/
def Message.SenderRewritable (msg : Message) : Prop :=
  msg.Readable 7 ∧ msg.HasRoom

/-- A message that is delivered is written once, with its sender shown as
`shownName` has it. -/
theorem presented {L : Libs} {s s' : Session} {msg : Message} {b : Bus}
    {ws : List Write} {u : Text} (hz : L.zvariant.FollowsSpec)
    (hstep : s.Step L (.bus b msg) ws s') (htaken : s.Delivers msg b)
    (hs : msg.header.sender = some u) (hu : isUniqueName u = true)
    (hrw : s.isHostServiceCall msg b = false → msg.SenderRewritable) :
    Presented L.zvariant ws (s.shownName msg b u) := by
  obtain ⟨hacc, hok⟩ := hstep
  have hacc : msg.Accepted L.zvariant := hacc
  have hsame : senderIn L.zvariant msg.raw = .ok (some u) := by
    obtain ⟨f, hraw, hheader⟩ := hacc.exists_frame
    rw [hraw, f.senderIn_bytes, ← hheader, hs]
  unfold Session.shownName
  by_cases hhost : s.isHostServiceCall msg b = true
  · rw [if_pos hhost]
    unfold Session.isHostServiceCall at hhost
    simp only [Bool.and_eq_true, beq_iff_eq] at hhost
    obtain ⟨hcall, rfl⟩ := hhost
    cases upstream_of_ok hok with
    | @serviceCall m _ hm =>
        cases hm
        exact ⟨msg.raw, msg.fds, rfl, hsame⟩
    | firstHalf hno => rw [hcall] at hno; cases hno
    | secondHalf hno => rw [hcall] at hno; cases hno
    | forwarded hno => rw [hcall] at hno; cases hno
  · rw [if_neg hhost]
    rw [Bool.not_eq_true] at hhost
    obtain ⟨hread, hroom⟩ := hrw hhost
    obtain ⟨m', hm', hrew, hh⟩ := toClient_rewritten b hz hacc hread hroom
      hs hu
    have hsender : m'.header.sender = some (toFakeName u b) := by
      rw [hh]
    cases upstream_of_ok hok with
    | @serviceCall m hcall hm =>
        have hb : b = .sandbox := by
          cases b with
          | host => simp [Session.isHostServiceCall, hcall] at hhost
          | sandbox => rfl
        subst hb
        unfold serviceCallMessage at hm
        rw [if_pos rfl, hm', Outcome.orElse_ok] at hm
        cases hm
        obtain ⟨f, hraw, hheader⟩ := hrew.accepted.exists_frame
        refine ⟨m'.raw, msg.fds, rfl, ?_⟩
        rw [hraw, f.senderIn_bytes, ← hheader, hsender]
    | firstHalf hno hn hp => exact absurd hp (htaken.no_merge hno hn)
    | secondHalf hno hn hp => exact absurd hp (htaken.no_merge hno hn)
    | @forwarded raw _ _ hraw =>
        obtain ⟨-, m, hm, hbody⟩ := prepare_eq_ok hraw
        rw [hm', Outcome.orElse_ok] at hm
        cases hm
        refine ⟨raw, msg.fds, rfl, ?_⟩
        rw [senderIn_rewritten hrew.accepted hbody, hsender]

-- ============================================================== and back again

/-- A session keeps its configuration and its client. -/
theorem run_config {L : Libs} {s s' : Session}
    {t : List (Event × List Write)} (h : Run L s t s') :
    s'.config = s.config ∧ s'.clientExePath = s.clientExePath := by
  refine h.invariant (I := fun m => m.config = s.config
    ∧ m.clientExePath = s.clientExePath) ⟨rfl, rfl⟩ ?_
  intro m ev ws m' hm hstep
  rcases step_cases hstep with ⟨msg, -, hd⟩ | ⟨b, msg, -, hu⟩
  · obtain ⟨hconfig, hexe⟩ := downstream_config hd
    rw [hconfig, hexe]
    exact hm
  · cases hu <;> exact hm

/-- A call or signal of the client. -/
def Message.IsRequest (msg : Message) : Prop :=
  msg.header.msgType = .methodCall ∨ msg.header.msgType = .signal

/-- A request addressed to a prefixed name that is handled goes to the bus of
the prefix, to the real name. -/
theorem routes_back {L : Libs} {s s' : Session} {msg : Message} {b : Bus}
    {ws : List Write} {u : Text} (hz : L.zvariant.FollowsSpec)
    (hpass : isHostpass L.glob s.config s.clientExePath = false)
    (hstep : s.Step L (.client msg) ws s') (hreq : msg.IsRequest)
    (hu : isUniqueName u = true)
    (hd : msg.header.destination = some (toFakeName u b))
    (hread : msg.Readable 6) :
    WrittenTo L.zvariant b u ws := by
  obtain ⟨hacc, hok⟩ := hstep
  have hacc : msg.Accepted L.zvariant := hacc
  have hroute := routeRequest_unique (L := L) (s := s) hd
    (isUniqueName_toFakeName hu b)
  have hbus : s.fallbackBus L (toFakeName u b) = b := by
    unfold Session.fallbackBus
    rw [hpass, getBusFromFakeName_toFakeName hu b]
    rfl
  rw [hbus] at hroute
  cases downstream_of_ok hok with
  | reply hty =>
      rcases hreq with hr | hr
      all_goals
        rw [hr] at hty
        rcases hty with h | h <;> cases h
  | @toBus target s₁ m raw _ hrt _ hm hraw =>
      rw [hroute] at hrt
      cases hrt
      have hne : toFakeName u b ≠ u := toFakeName_ne hu b
      obtain ⟨hheader, hdest⟩ := unshown hz hacc hd hu (Or.inr rfl)
        (fun h => absurd h hne) (fun _ => hread) hm
      have hnotBus : m.header.destination ≠ some busName := by
        rw [hdest]
        intro h
        exact ne_busName hu (Option.some.inj h)
      rw [rewriteRequestBody_of_ne hnotBus] at hraw
      cases hraw
      exact ⟨m.raw, msg.fds, m.header, rfl, hheader, hdest⟩
  | toBoth _ hrt =>
      rw [hroute] at hrt
      cases hrt
  | merge _ hrt =>
      rw [hroute] at hrt
      cases hrt

/-- Every delivered sender is shown with the prefix of its bus, and the
name shown leads back to that bus. -/
def PresentedSendersRouteBack : Prop :=
  ∀ (L : Libs) (config : Config) (exe : Option Bytes)
    (t : List (Event × List Write)) (s s' : Session) (msg : Message)
    (b : Bus) (u : Text) (ws : List Write),
    L.zvariant.FollowsSpec → isHostpass L.glob config exe = false →
    Run L (Session.new config exe) t s → s.Step L (.bus b msg) ws s' →
    s.Delivers msg b → msg.header.sender = some u →
    isUniqueName u = true → getBusFromFakeName u = none →
    Presented L.zvariant ws (toFakeName u b)
      ∧ ∀ d t' s₂ later ws' s₃, Presented L.zvariant ws d →
        Run L s' t' s₂ → s₂.Step L (.client later) ws' s₃ →
        later.IsRequest → later.header.destination = some d →
        WrittenTo L.zvariant b u ws'

/-- A delivered sender is shown as `shownName` has it. Unless that is the
real name of a host peer that calls a name of the client's, every later
request addressed to it is handled, and written to its bus alone, under the
real name. -/
theorem presented_sender_routes_back {L : Libs} {config : Config}
    {exe : Option Bytes} {t : List (Event × List Write)} {s s' : Session}
    {msg : Message} {b : Bus} {u : Text} {ws : List Write}
    (hz : L.zvariant.FollowsSpec)
    (hpass : isHostpass L.glob config exe = false)
    (hrun : Run L (Session.new config exe) t s)
    (hstep : s.Step L (.bus b msg) ws s') (htaken : s.Delivers msg b)
    (hs : msg.header.sender = some u) (hu : isUniqueName u = true)
    (hrw : s.isHostServiceCall msg b = false → msg.SenderRewritable) :
    Presented L.zvariant ws (s.shownName msg b u)
      ∧ (s.isHostServiceCall msg b = false →
        ∀ t' s₂ later, Run L s' t' s₂ → later.Accepted L.zvariant →
          later.IsRequest →
          later.header.destination = some (s.shownName msg b u) →
          later.Readable 6 →
          ∃ ws' s₃, s₂.Step L (.client later) ws' s₃
            ∧ WrittenTo L.zvariant b u ws') := by
  refine ⟨presented hz hstep htaken hs hu hrw, ?_⟩
  intro hhost t' s₂ later hrun' hacc hreq hd hread
  unfold Session.shownName at hd
  rw [hhost] at hd
  obtain ⟨hconfig, hexe⟩ := run_config
    ((hrun.append (Steps.single hstep)).append hrun')
  obtain ⟨ws', s₃, hstep'⟩ := handled_unique (s := s₂) hz hacc hd
    (isUniqueName_toFakeName hu b) (fun _ => hread)
  refine ⟨ws', s₃, hstep', routes_back hz ?_ hstep' hreq hu hd hread⟩
  rw [hconfig, hexe]
  exact hpass

-- ================================================================= one of each

/-- The host peer of `hostCall` is shown to the client under its real
name. -/
theorem presented_by_real_name : ¬PresentedSendersRouteBack := by
  intro h
  obtain ⟨t, hrun⟩ := registered_run
  have hstep : registered.Step referenceLibs (.bus .host hostCall)
      (registered.react referenceLibs (.bus .host hostCall)).2
      (registered.react referenceLibs (.bus .host hostCall)).1 :=
    step_react (by decide +kernel) (by decide +kernel)
  obtain ⟨⟨raw, fds, hws, hsender⟩, -⟩ := h referenceLibs twoNames none t
    registered _ hostCall .host (utf8 ":1.5") _
    Zvariant.reference_followsSpec rfl hrun hstep
    (Or.inl (by decide +kernel)) rfl rfl (by decide +kernel)
  have hraw : _ = [raw] := congrArg (List.map Write.raw) hws
  have hwritten : (registered.react referenceLibs
      (.bus .host hostCall)).2.map Write.raw = [hostCall.raw] := by
    decide +kernel
  rw [hwritten] at hraw
  cases hraw
  revert hsender
  decide +kernel

/-- A host peer that calls the client by its unique name. -/
def directCall : Message := .peerCall 8 ":1.20" ":1.5"

/-- The client calls that peer by the name it was shown. -/
def directAnswer : Message := .peerCall 9 ":h.1.5" ":1.20"

/-- The peer is shown as `:h.1.5`, and the call to that name is written to
the host alone, for `:1.5`. -/
theorem presented_sender_routes_back_host :
    Presented .reference
        (registered.react referenceLibs (.bus .host directCall)).2
        (utf8 ":h.1.5")
      ∧ ∃ ws s', (registered.react referenceLibs (.bus .host directCall)
          ).1.Step referenceLibs (.client directAnswer) ws s'
        ∧ WrittenTo .reference .host (utf8 ":1.5") ws := by
  obtain ⟨t, hrun⟩ := registered_run
  have hacc : directCall.Accepted referenceLibs.zvariant := by
    decide +kernel
  have hacc' : directAnswer.Accepted referenceLibs.zvariant := by
    decide +kernel
  have hread : directCall.Readable 7 :=
    readable_iff.mp (by decide +kernel)
  have hread' : directAnswer.Readable 6 :=
    readable_iff.mp (by decide +kernel)
  have hroom : directCall.HasRoom := by
    unfold Message.HasRoom
    decide +kernel
  have hstep : registered.Step referenceLibs (.bus .host directCall)
      (registered.react referenceLibs (.bus .host directCall)).2
      (registered.react referenceLibs (.bus .host directCall)).1 :=
    step_react (by decide +kernel) hacc
  obtain ⟨hshown, hback⟩ := presented_sender_routes_back
    Zvariant.reference_followsSpec rfl hrun hstep
    (Or.inr (by decide +kernel)) rfl (by decide +kernel)
    (fun _ => ⟨hread, hroom⟩)
  refine ⟨?_, hback (by decide +kernel) [] _ directAnswer .nil hacc'
    (Or.inl rfl) ?_ hread'⟩
  · have hname : registered.shownName directCall .host (utf8 ":1.5")
        = utf8 ":h.1.5" := by
      decide +kernel
    rw [← hname]
    exact hshown
  · decide +kernel

end DbusRouter.Model
