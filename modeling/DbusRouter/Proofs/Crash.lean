/-
Messages the router survives.

Two places slice without looking. The body rewriters read a string length
from a body of one to three bytes, and the walk over the header, once it
has misread a signature, takes lengths and positions from wherever it is.
`Session.Safe` says that a message reaches neither, and in every reachable
state a safe message is handled without a panic (`no_crash`). Everything
else the handlers slice is inside the message: an accepted message has its
body where its header says, and so has the rewritten one.
-/
import DbusRouter.Proofs.Merge

namespace DbusRouter.Model

open Wire Lib

-- ================================================================== condition

/-- A body the rewriters do not read past: an empty one, or one with room
for a length. -/
def Message.BodyReadable (msg : Message) : Prop :=
  msg.body.length = 0 ∨ 4 ≤ msg.body.length

/-- The walk reads the fields right on its way to the destination, if that
loses a prefix. -/
def Message.DestinationPlain (msg : Message) : Prop :=
  ∀ d real b fs, msg.header.destination = some d →
    fromFakeName d = some (real, b) → msg.HasFields fs → Plain 6 fs

/-- A call of the bus daemon whose first string is looked at. -/
def Message.AsksAboutString (msg : Message) : Prop :=
  msg.header.destination = some busName ∧ ∃ member,
    msg.header.member = some member ∧ (needsRequestRewrite member = true
      ∨ isMatchRuleMember member = true)

/-- A METHOD_RETURN whose first string is looked at. -/
def Session.TellsName (s : Session) (msg : Message) (b : Bus) : Prop :=
  msg.header.msgType = .methodReturn ∧ ∃ n info member,
    msg.header.replySerial = some n ∧ s.pendingCalls n = some info
      ∧ info.bus = b ∧ info.member = some member
      ∧ needsResponseRewrite member = true
      ∧ member ≠ utf8 "ListQueuedOwners"

/-- A message that is handled without reading past anything. -/
def Session.Safe (s : Session) : Event → Prop
  | .client msg => msg.DestinationPlain
      ∧ (¬s.AnswersCall msg → msg.AsksAboutString → msg.BodyReadable)
  | .bus b msg => s.ReadsSender msg b
      ∧ (s.Forwards msg b → s.TellsName msg b → msg.BodyReadable)

/-- The bus daemon's name has no prefix to lose. -/
theorem destinationPlain_of_busName {msg : Message}
    (h : msg.header.destination = some busName) : msg.DestinationPlain := by
  intro d real b fs hd hreal
  rw [h] at hd
  cases hd
  have hnone : fromFakeName busName = none := by decide
  rw [hnone] at hreal
  cases hreal

-- =================================================================== rewriting

/-- A write does not panic. -/
theorem send_noPanic (peer : Peer) (raw : Bytes) (fds : List Fd) :
    (send peer raw fds).NoPanic := by
  unfold send
  split
  · exact Outcome.noPanic_err _
  · exact Outcome.noPanic_ok _

/-- Writing to both buses does not panic. -/
theorem sendBoth_noPanic (raw : Bytes) (fds : List Fd) :
    (sendBoth raw fds).NoPanic := by
  unfold sendBoth
  refine (send_noPanic _ _ _).bind fun host _ => ?_
  refine (send_noPanic _ _ _).bind fun sandbox _ => ?_
  exact Outcome.noPanic_ok _

section bodies

variable {m : Message} {start : Nat} {body : Bytes}

/-- A list of names is read from any body that is found. -/
theorem parseStringArray_ok (z : Zvariant)
    (h : HasBody m.header.endian m.raw start body) :
    ∃ names, parseStringArray z m = .ok names := by
  have hlen := h.length
  unfold parseStringArray Message.bodyStart
  rw [h.start_eq, Outcome.ok_bind]
  split
  next => exact ⟨[], rfl⟩
  next =>
    rw [sliceFrom_ok (by omega)]
    exact ⟨_, rfl⟩

/-- A frame whose body is found is built anew. -/
theorem rebuildMessageWithBody_noPanic
    (h : HasBody m.header.endian m.raw start body) (new : Bytes) :
    (rebuildMessageWithBody m.raw m.header.endian new).NoPanic := by
  rw [rebuildMessageWithBody_eq h]
  exact Outcome.noPanic_ok _

/-- So the names of a list are translated without a panic. -/
theorem rewriteStringArrayResponse_noPanic (z : Zvariant) (b : Bus)
    (h : HasBody m.header.endian m.raw start body) :
    (rewriteStringArrayResponse z m b).NoPanic := by
  obtain ⟨names, hnames⟩ := parseStringArray_ok z h
  unfold rewriteStringArrayResponse
  rw [hnames, Outcome.ok_bind]
  split
  next => exact Outcome.noPanic_ok _
  next =>
    refine Outcome.NoPanic.bind ?_ fun new _ =>
      rebuildMessageWithBody_noPanic h new
    cases z.encodeStrings m.header.endian 0 (names.map (prefixUnique b)) with
    | none => exact Outcome.noPanic_err _
    | some new => exact Outcome.noPanic_ok _

/-- The names of an owner change are translated without a panic. -/
theorem rewriteNameOwnerChanged_noPanic (z : Zvariant) (b : Bus)
    (h : HasBody m.header.endian m.raw start body) :
    (rewriteNameOwnerChanged z m b).NoPanic := by
  have hlen := h.length
  unfold rewriteNameOwnerChanged Message.bodyStart
  rw [h.start_eq, Outcome.ok_bind]
  split
  next => exact Outcome.noPanic_ok _
  next =>
    rw [sliceFrom_ok (by omega), Outcome.ok_bind]
    split
    next => exact Outcome.noPanic_ok _
    next name oldOwner newOwner _ =>
      refine Outcome.NoPanic.bind ?_ fun new _ =>
        rebuildMessageWithBody_noPanic h new
      cases z.encodeTriple m.header.endian 0 (name,
          prefixUnique b oldOwner, prefixUnique b newOwner) with
      | none => exact Outcome.noPanic_err _
      | some new => exact Outcome.noPanic_ok _

/-- A single name needs its four bytes of length. -/
theorem rewriteSingleNameResponse_noPanic (b : Bus)
    (h : HasBody m.header.endian m.raw start body)
    (hbody : body.length = 0 ∨ 4 ≤ body.length) :
    (rewriteSingleNameResponse m b).NoPanic := by
  unfold rewriteSingleNameResponse
  rw [firstBodyString_eq h hbody, Outcome.ok_bind]
  split
  next => exact Outcome.noPanic_ok _
  next =>
    split
    next => exact rebuildMessageWithBody_noPanic h _
    next => exact Outcome.noPanic_ok _

end bodies

/-- The body of a message for the client is rewritten without a panic. -/
theorem rewriteBodyForClient_noPanic {z : Zvariant} {s : Session}
    {msg m : Message} {b : Bus} {x : Option Text} {start : Nat}
    (hm : m.header = { msg.header with sender := x })
    (h : HasBody m.header.endian m.raw start msg.body)
    (hbody : s.TellsName msg b → msg.BodyReadable) :
    (rewriteBodyForClient z m b s.pendingCalls).NoPanic := by
  unfold rewriteBodyForClient
  split
  next hty =>
    unfold rewriteMethodReturnBody
    split
    next => exact Outcome.noPanic_ok _
    next info hinfo =>
      split
      next => exact Outcome.noPanic_ok _
      next hbus =>
        split
        next => exact Outcome.noPanic_ok _
        next member hmember =>
          split
          next => exact Outcome.noPanic_ok _
          next hneeds =>
            split
            next =>
              exact (rewriteStringArrayResponse_noPanic z b h).orElse
            next hsingle =>
              refine (rewriteSingleNameResponse_noPanic b h
                (hbody ?_)).orElse
              rw [hm] at hty hinfo
              rw [Option.bind_eq_some_iff] at hinfo
              obtain ⟨n, hn, hinfo⟩ := hinfo
              exact ⟨hty, n, info, member, hn, hinfo, by simpa using hbus,
                hmember, by simpa using hneeds, hsingle⟩
  next =>
    unfold rewriteSignalBody
    split
    next => exact Outcome.noPanic_ok _
    next =>
      split
      next => exact Outcome.noPanic_ok _
      next => exact (rewriteNameOwnerChanged_noPanic z b h).orElse
  next => exact Outcome.noPanic_ok _

/-- A destination is rewritten without a panic or an error. -/
theorem toUpstream_ok {z : Zvariant} {msg : Message} (target : Bus)
    (hz : z.FollowsSpec) (hacc : msg.Accepted z)
    (hplain : msg.DestinationPlain) :
    ∃ m, rewriteMessageHeader msg .toUpstream target = .ok m := by
  obtain ⟨f, hmsg⟩ := hacc.eq_message
  generalize msg.fds = fds at hmsg
  subst hmsg
  cases hd : (f.header z).destination with
  | none =>
      refine ⟨_, rewriteMessageHeader_toUpstream_of_not_fake ?_⟩
      intro d hd'
      have hd' : (f.header z).destination = some d := hd'
      rw [hd] at hd'
      cases hd'
  | some d =>
      cases hreal : fromFakeName d with
      | none =>
          refine ⟨f.message z fds, ?_⟩
          have hd' : (f.message z fds).header.destination = some d := hd
          unfold rewriteMessageHeader
          simp only [hd', hreal]
      | some y =>
          obtain ⟨real, b⟩ := y
          obtain ⟨fs, hdec, ht, hdest⟩ := f.decodes_of_destination hz hd
          exact ⟨_, Frame.rewriteMessageHeader_toUpstream target hz hdec ht
            (hplain d real b fs hd hreal (Frame.hasFields_message.mpr hdec))
            hdest hreal⟩

/-- A request is rewritten without a panic, after its header. -/
theorem rewriteRequestBody_noPanic {z : Zvariant} {msg m : Message}
    {target : Bus} (hacc : msg.Accepted z)
    (hm : rewriteMessageHeader msg .toUpstream target = .ok m)
    (hread : msg.AsksAboutString → msg.BodyReadable) :
    (rewriteRequestBody m).NoPanic := by
  by_cases hdest : m.header.destination = some busName
  · have hsame : m = msg := by
      have hm' : (rewriteMessageHeader msg .toUpstream target).orElse msg
          = .ok m := by
        rw [hm]
        rfl
      rcases rewrite_toUpstream_header hm' with h | ⟨d, real, b, -, hreal, hh⟩
      · exact h
      · rw [hh] at hdest
        have hreal' : real = busName := Option.some.inj hdest
        obtain ⟨x, -, hx⟩ := fromFakeName_eq_some hreal
        exact absurd hreal' (ne_busName (isUniqueName_iff.mpr ⟨x, hx⟩))
    subst hsame
    obtain ⟨start, hbody⟩ := hacc.hasBody
    by_cases hasks : m.AsksAboutString
    · rw [rewriteRequestBody_eq hbody (hread hasks) hdest]
      exact Outcome.noPanic_ok _
    · unfold rewriteRequestBody
      rw [if_neg (by simp [hdest])]
      split
      next => exact Outcome.noPanic_ok _
      next member hmember =>
        have hno : needsRequestRewrite member = false
            ∧ isMatchRuleMember member = false := by
          by_contra hsome
          rw [not_and_or, Bool.not_eq_false, Bool.not_eq_false] at hsome
          exact hasks ⟨hdest, member, hmember, hsome⟩
        rw [hno.1, hno.2]
        exact Outcome.noPanic_ok _
  · rw [rewriteRequestBody_of_ne hdest]
    exact Outcome.noPanic_ok _

/-- What goes to both buses is written if the rule in it can be read. -/
theorem bytesForBoth_noPanic {msg : Message} {start : Nat}
    (hbody : HasBody msg.header.endian msg.raw start msg.body)
    (hdest : msg.header.destination = some busName)
    (hmember : msg.header.member.any isMatchRuleMember = true)
    (hread : msg.AsksAboutString → msg.BodyReadable) :
    (bytesForBoth msg).NoPanic := by
  have hasks : msg.AsksAboutString := by
    rw [Option.any_eq_true] at hmember
    obtain ⟨member, hm, hrule⟩ := hmember
    exact ⟨hdest, member, hm, Or.inr hrule⟩
  unfold bytesForBoth
  rw [if_pos hmember, matchRuleBodyOrOriginal_eq hbody (hread hasks)]
  exact Outcome.noPanic_ok _

-- ==================================================================== handling

/-- An accepted message is routed somewhere. -/
theorem routeRequest_ok {glob : Glob} {config : Config} {msg : Message}
    {exe : Option Bytes} {start : Nat}
    (hbody : HasBody msg.header.endian msg.raw start msg.body) :
    ∃ d, routeRequest glob config msg exe = .ok d := by
  have hname := extractNameFromBody_eq hbody
  unfold routeRequest
  split
  next => exact ⟨_, rfl⟩
  next =>
    split
    next => exact ⟨_, rfl⟩
    next =>
      split
      next =>
        unfold routeDbusMethod Message.extractStringFromBody
        rw [hname]
        split
        next => exact ⟨_, rfl⟩
        next =>
          simp only [Outcome.ok_bind]
          split
          next => exact ⟨_, rfl⟩
          next => split <;> exact ⟨_, rfl⟩
          next => exact ⟨_, rfl⟩
      next => split <;> exact ⟨_, rfl⟩

/-- Following exported names never fails. -/
theorem track_ok {s : Session} {msg : Message} (d : RouteDecision)
    {start : Nat} (hbody : HasBody msg.header.endian msg.raw start msg.body) :
    ∃ s₁, s.trackExportedService msg d = .ok s₁ := by
  unfold Session.trackExportedService
  split
  next => exact ⟨_, rfl⟩
  next =>
    rw [extractNameFromBody_eq hbody, Outcome.ok_bind]
    split
    next => exact ⟨_, rfl⟩
    next => split <;> exact ⟨_, rfl⟩

/-- An answer is forwarded if its destination has no bytes after the name. -/
theorem forwardReply_noPanic {z : Zvariant} {s : Session} {msg : Message}
    (hz : z.FollowsSpec) (hacc : msg.Accepted z)
    (hplain : msg.DestinationPlain) :
    (s.forwardReplyToCaller msg).NoPanic := by
  unfold Session.forwardReplyToCaller
  split
  next => exact Outcome.noPanic_ok _
  next =>
    split
    next => exact Outcome.noPanic_ok _
    next =>
      split
      next => exact Outcome.noPanic_ok _
      next b _ =>
        obtain ⟨m, hm⟩ := toUpstream_ok b hz hacc hplain
        rw [hm, Outcome.orElse_ok, Outcome.ok_bind]
        exact (send_noPanic _ _ _).bind fun _ _ => Outcome.noPanic_ok _

/-- A safe message from the client is handled. -/
theorem client_noPanic {L : Libs} {s : Session} {msg : Message}
    (hz : L.zvariant.FollowsSpec) (hacc : msg.Accepted L.zvariant)
    (hsafe : s.Safe (.client msg)) :
    (s.handleClientMessage L msg).NoPanic := by
  obtain ⟨hplain, hread⟩ := hsafe
  obtain ⟨start, hbody⟩ := hacc.hasBody
  unfold Session.handleClientMessage
  refine (forwardReply_noPanic hz hacc hplain).bind fun r hr => ?_
  rcases forwardReply_cases hr with ⟨rfl, hno⟩ | ⟨n, b, m, -, -, -, -, rfl⟩
  · unfold Session.routeClientMessage
    obtain ⟨decision, hroute⟩ := routeRequest_ok hbody
    obtain ⟨s₁, htrack⟩ := track_ok decision hbody
    rw [hroute, Outcome.ok_bind, htrack, Outcome.ok_bind]
    cases decision with
    | single target =>
        obtain ⟨m, hm⟩ := toUpstream_ok target hz hacc hplain
        show (s₁.forwardToBus msg target).NoPanic
        unfold Session.forwardToBus
        rw [hm, Outcome.orElse_ok, Outcome.ok_bind]
        refine (rewriteRequestBody_noPanic hacc hm (hread hno)).bind
          fun raw _ => ?_
        exact (send_noPanic _ _ _).bind fun _ _ => Outcome.noPanic_ok _
    | both =>
        obtain ⟨-, hdest, -, hmethod⟩ := routeRequest_of_not_single hroute
          (by simp)
        show (s₁.forwardToBoth msg).NoPanic
        unfold Session.forwardToBoth
        refine (bytesForBoth_noPanic hbody hdest (member_of_both hmethod)
          (hread hno)).bind fun raw _ => ?_
        exact (sendBoth_noPanic _ _).bind fun _ _ => Outcome.noPanic_ok _
    | merge =>
        show (s₁.forwardForMerge msg).NoPanic
        unfold Session.forwardForMerge
        exact (sendBoth_noPanic _ _).bind fun _ _ => Outcome.noPanic_ok _
  · exact Outcome.noPanic_ok _

/-- A merge answers from a request that is still decoded. -/
theorem processMergeResponse_noPanic {z : Zvariant} {s : Session}
    {msg : Message} {b : Bus} (hz : z.FollowsSpec) (hacc : msg.Accepted z)
    (hmerges : s.MergesKept z) :
    (processMergeResponse z msg b s.pendingMerges).NoPanic := by
  obtain ⟨start, hbody⟩ := hacc.hasBody
  obtain ⟨names, hnames⟩ := parseStringArray_ok z hbody
  unfold processMergeResponse
  split
  next => exact Outcome.noPanic_ok _
  next n _ =>
    split
    next => exact Outcome.noPanic_ok _
    next pending hp =>
      rw [hnames, Outcome.orElse_ok, Outcome.ok_bind]
      split
      next => exact Outcome.noPanic_ok _
      next =>
        refine Outcome.NoPanic.bind ?_ fun response _ =>
          Outcome.noPanic_ok _
        exact (buildListNamesResponse_noPanic hz
          (hmerges n pending hp).1.serial_lt _).orElse

/-- What merging says of a message that is forwarded. -/
theorem mergeOf_of_notMerging {z : Zvariant} {s : Session} {msg : Message}
    {b : Bus} {merges : PMap Nat PendingMerge}
    (h : processMergeResponse z msg b s.pendingMerges
      = .ok (.notMerging, merges)) : s.mergeOf msg = none := by
  unfold processMergeResponse at h
  unfold Session.mergeOf
  cases hn : msg.header.replySerial with
  | none => rfl
  | some n =>
      rw [hn] at h
      cases hp : s.pendingMerges n with
      | none => exact hp
      | some pending =>
          simp only [hp] at h
          obtain ⟨names, -, h⟩ := Outcome.bind_eq_ok h
          split at h
          next => cases h
          next =>
            obtain ⟨response, -, h⟩ := Outcome.bind_eq_ok h
            cases h

/-- A safe message from a bus is handled. -/
theorem bus_noPanic {L : Libs} {s : Session} {msg : Message} {b : Bus}
    (hz : L.zvariant.FollowsSpec) (hmerges : s.MergesKept L.zvariant)
    (hacc : msg.Accepted L.zvariant) (hsafe : s.Safe (.bus b msg)) :
    (s.handleUpstreamMessage L msg b).NoPanic := by
  obtain ⟨hplain, hread⟩ := hsafe
  unfold Session.handleUpstreamMessage
  split
  next hcall =>
    refine Outcome.NoPanic.bind ?_ ?_
    · unfold serviceCallMessage
      split
      next hb =>
        obtain ⟨m, start, hm, -⟩ := toClient_body b hz hacc
          (hplain (Or.inr ⟨hcall, hb⟩))
        rw [hm]
        exact Outcome.noPanic_ok _
      next => exact Outcome.noPanic_ok _
    · intro m _
      exact (send_noPanic _ _ _).bind fun _ _ => Outcome.noPanic_ok _
  next hcall =>
    rw [Bool.not_eq_true] at hcall
    refine (processMergeResponse_noPanic hz hacc hmerges).bind
      fun x hmerge => ?_
    obtain ⟨outcome, merges⟩ := x
    cases outcome with
    | awaiting => exact Outcome.noPanic_ok _
    | merged response =>
        exact (send_noPanic _ _ _).bind fun _ _ => Outcome.noPanic_ok _
    | notMerging =>
        have hforward : s.Forwards msg b :=
          ⟨hcall, mergeOf_of_notMerging hmerge⟩
        obtain ⟨m, start, hm, hbody⟩ := toClient_body b hz hacc
          (hplain (Or.inl hforward))
        have hm' : (rewriteMessageHeader msg .toClient b).orElse msg
            = .ok m := by
          rw [hm]
          rfl
        obtain ⟨x, hx⟩ := rewrite_toClient_header hm'
        have hprepare : (prepareMessageForClient L.zvariant msg b
            s.pendingCalls).NoPanic := by
          unfold prepareMessageForClient
          rw [hm', Outcome.ok_bind]
          refine Outcome.NoPanic.bind ?_ fun _ _ => Outcome.noPanic_ok _
          have hbody' : HasBody m.header.endian m.raw start msg.body := by
            rw [hx]
            exact hbody
          exact rewriteBodyForClient_noPanic hx hbody' (hread hforward)
        refine hprepare.bind fun x _ => ?_
        exact (send_noPanic _ _ _).bind fun _ _ => Outcome.noPanic_ok _

-- ===================================================================== errors

/-- A write of few enough descriptors is no error. -/
theorem send_noErr {peer : Peer} {raw : Bytes} {fds : List Fd}
    (h : fds.length ≤ maxFdsPerMessage) : (send peer raw fds).NoErr := by
  rw [send_ok h]
  exact Outcome.noErr_ok _

/-- Writing few enough descriptors to both buses is no error. -/
theorem sendBoth_noErr {raw : Bytes} {fds : List Fd}
    (h : fds.length ≤ maxFdsPerMessage) : (sendBoth raw fds).NoErr := by
  unfold sendBoth
  rw [send_ok h, send_ok h]
  exact Outcome.noErr_ok _

/-- A rule that cannot be read is forwarded as it is. -/
theorem matchRuleBodyOrOriginal_noErr (msg : Message) :
    (matchRuleBodyOrOriginal msg).NoErr := by
  unfold matchRuleBodyOrOriginal
  exact (Outcome.noErr_orElse _ _).bind fun _ _ => Outcome.noErr_ok _

/-- A request whose body cannot be read is forwarded as it is. -/
theorem rewriteRequestBody_noErr (msg : Message) :
    (rewriteRequestBody msg).NoErr := by
  unfold rewriteRequestBody
  split
  next => exact Outcome.noErr_ok _
  next =>
    split
    next => exact Outcome.noErr_ok _
    next =>
      split
      next =>
        exact (Outcome.noErr_orElse _ _).bind fun _ _ => Outcome.noErr_ok _
      next =>
        split
        next => exact matchRuleBodyOrOriginal_noErr msg
        next => exact Outcome.noErr_ok _

/-- A message from the client is never refused. -/
theorem client_noErr {L : Libs} {s : Session} {msg : Message}
    (hacc : msg.Accepted L.zvariant) :
    (s.handleClientMessage L msg).NoErr := by
  obtain ⟨start, hbody⟩ := hacc.hasBody
  have hreply : (s.forwardReplyToCaller msg).NoErr := by
    unfold Session.forwardReplyToCaller
    split
    next => exact Outcome.noErr_ok _
    next =>
      split
      next => exact Outcome.noErr_ok _
      next =>
        split
        next => exact Outcome.noErr_ok _
        next =>
          refine (Outcome.noErr_orElse _ _).bind fun m _ => ?_
          exact (send_noErr hacc.fds_le).bind fun _ _ => Outcome.noErr_ok _
  unfold Session.handleClientMessage
  refine hreply.bind fun r _ => ?_
  cases r with
  | some result => exact Outcome.noErr_ok _
  | none =>
      show (s.routeClientMessage L msg).NoErr
      unfold Session.routeClientMessage
      obtain ⟨decision, hroute⟩ := routeRequest_ok hbody
      obtain ⟨s₁, htrack⟩ := track_ok decision hbody
      rw [hroute, Outcome.ok_bind, htrack, Outcome.ok_bind]
      cases decision with
      | single target =>
          show (s₁.forwardToBus msg target).NoErr
          unfold Session.forwardToBus
          refine (Outcome.noErr_orElse _ _).bind fun m _ => ?_
          refine (rewriteRequestBody_noErr m).bind fun raw _ => ?_
          exact (send_noErr hacc.fds_le).bind fun _ _ => Outcome.noErr_ok _
      | both =>
          show (s₁.forwardToBoth msg).NoErr
          have hbytes : (bytesForBoth msg).NoErr := by
            unfold bytesForBoth
            split
            next => exact matchRuleBodyOrOriginal_noErr msg
            next => exact Outcome.noErr_ok _
          unfold Session.forwardToBoth
          refine hbytes.bind fun raw _ => ?_
          exact (sendBoth_noErr hacc.fds_le).bind fun _ _ => Outcome.noErr_ok _
      | merge =>
          show (s₁.forwardForMerge msg).NoErr
          unfold Session.forwardForMerge
          exact (sendBoth_noErr hacc.fds_le).bind fun _ _ => Outcome.noErr_ok _

/-- A merge that fails is given up. -/
theorem processMergeResponse_noErr (z : Zvariant) (msg : Message) (b : Bus)
    (merges : PMap Nat PendingMerge) :
    (processMergeResponse z msg b merges).NoErr := by
  unfold processMergeResponse
  split
  next => exact Outcome.noErr_ok _
  next =>
    split
    next => exact Outcome.noErr_ok _
    next =>
      refine (Outcome.noErr_orElse _ _).bind fun names _ => ?_
      split
      next => exact Outcome.noErr_ok _
      next =>
        exact (Outcome.noErr_orElse _ _).bind fun _ _ => Outcome.noErr_ok _

/-- A body that cannot be translated is shown as it is. -/
theorem prepare_noErr (z : Zvariant) (msg : Message) (b : Bus)
    (calls : PMap Nat PendingCallInfo) :
    (prepareMessageForClient z msg b calls).NoErr := by
  unfold prepareMessageForClient
  refine (Outcome.noErr_orElse _ _).bind fun m _ => ?_
  refine Outcome.NoErr.bind ?_ fun raw _ => Outcome.noErr_ok _
  unfold rewriteBodyForClient rewriteMethodReturnBody rewriteSignalBody
  split
  next =>
    split
    next => exact Outcome.noErr_ok _
    next =>
      split
      next => exact Outcome.noErr_ok _
      next =>
        split
        next => exact Outcome.noErr_ok _
        next =>
          split
          next => exact Outcome.noErr_ok _
          next => split <;> exact Outcome.noErr_orElse _ _
  next =>
    split
    next => exact Outcome.noErr_ok _
    next =>
      split
      next => exact Outcome.noErr_ok _
      next => exact Outcome.noErr_orElse _ _
  next => exact Outcome.noErr_ok _

/-- A message from a bus is never refused. -/
theorem bus_noErr {L : Libs} {s : Session} {msg : Message} {b : Bus}
    (hacc : msg.Accepted L.zvariant) :
    (s.handleUpstreamMessage L msg b).NoErr := by
  unfold Session.handleUpstreamMessage
  split
  next =>
    refine Outcome.NoErr.bind ?_ fun m _ => ?_
    · unfold serviceCallMessage
      split
      next => exact Outcome.noErr_orElse _ _
      next => exact Outcome.noErr_ok _
    · exact (send_noErr hacc.fds_le).bind fun _ _ => Outcome.noErr_ok _
  next =>
    refine (processMergeResponse_noErr _ _ _ _).bind fun x _ => ?_
    obtain ⟨outcome, merges⟩ := x
    cases outcome with
    | awaiting => exact Outcome.noErr_ok _
    | merged response =>
        exact (send_noErr (Nat.zero_le _)).bind fun _ _ => Outcome.noErr_ok _
    | notMerging =>
        refine Outcome.NoErr.bind (prepare_noErr _ _ _ _) fun x hx => ?_
        obtain ⟨raw, fds⟩ := x
        obtain ⟨rfl, -⟩ := prepare_eq_ok hx
        exact (send_noErr hacc.fds_le).bind fun _ _ => Outcome.noErr_ok _

/-- A safe message from the client is handled. -/
theorem client_handled {L : Libs} {s : Session} {msg : Message}
    (hz : L.zvariant.FollowsSpec) (hacc : msg.Accepted L.zvariant)
    (hsafe : s.Safe (.client msg)) :
    ∃ ws s', s.Step L (.client msg) ws s' := by
  obtain ⟨x, hx⟩ :=
    (client_noPanic hz hacc hsafe).exists_ok (client_noErr hacc)
  exact ⟨x.2, x.1, hacc, hx⟩

/-- A safe message from a bus is handled. -/
theorem bus_handled {L : Libs} {s : Session} {msg : Message} {b : Bus}
    (hz : L.zvariant.FollowsSpec) (hmerges : s.MergesKept L.zvariant)
    (hacc : msg.Accepted L.zvariant) (hsafe : s.Safe (.bus b msg)) :
    ∃ ws s', s.Step L (.bus b msg) ws s' := by
  obtain ⟨x, hx⟩ :=
    (bus_noPanic hz hmerges hacc hsafe).exists_ok (bus_noErr hacc)
  exact ⟨x.2, x.1, hacc, hx⟩

-- =================================================================== in a run

/-- No accepted message ends a session in a panic. -/
def NoCrash : Prop :=
  ∀ (L : Libs) (config : Config) (exe : Option Bytes)
    (t : List (Event × List Write)) (s : Session) (ev : Event),
    L.zvariant.FollowsSpec → Run L (Session.new config exe) t s →
    ev.msg.Accepted L.zvariant → (s.handle L ev).NoPanic

/-- In every reachable state, a safe message is handled without a
panic. -/
theorem no_crash {L : Libs} {config : Config} {exe : Option Bytes}
    {t : List (Event × List Write)} {s : Session} {ev : Event}
    (hz : L.zvariant.FollowsSpec)
    (hrun : Run L (Session.new config exe) t s)
    (hacc : ev.msg.Accepted L.zvariant) (hsafe : s.Safe ev) :
    (s.handle L ev).NoPanic := by
  cases ev with
  | client msg => exact client_noPanic hz hacc hsafe
  | bus b msg => exact bus_noPanic hz (mergesKept_run hrun) hacc hsafe

/-- A match rule of one byte. -/
def shortRule : Message :=
  .compose 1 7
    [(1, .objectPath (utf8 "/org/freedesktop/DBus")), (2, .str busName),
     (3, .str (utf8 "AddMatch")), (6, .str busName),
     (8, .signature [.fixed .byte])]
    [0] []

/-- The rewriter of match rules slices four bytes out of one. -/
theorem short_rule_crashes : ¬NoCrash := by
  intro h
  have hno := h referenceLibs sandboxOnly none [] _ (.client shortRule)
    Zvariant.reference_followsSpec .nil (by decide +kernel)
  have hpanic : ¬((Session.new sandboxOnly none).handle referenceLibs
      (.client shortRule)).NoPanic := by
    decide +kernel
  exact hpanic hno

/-- A call that asks for the owner of a name, and the answer of the sandbox's
daemon. -/
def ownerAsked : Message := .daemonCall 3 "GetNameOwner" "org.a"

def ownerTold : Message :=
  .compose 2 9
    [(5, .fixed .uint32 3), (7, .str busName), (8, .signature [.str])]
    (strBytes .little (utf8 ":1.6")) []

/-- A match rule whose sender is translated is handled, and so is an answer
with a name that is shown under another. -/
theorem no_crash_owner_told :
    ((Session.new sandboxOnly none).handle referenceLibs (.client
        (.daemonCall 7 "AddMatch" "type='signal',sender=':h.1.5'"))).NoPanic
      ∧ (((Session.new sandboxOnly none).react referenceLibs
          (.client ownerAsked)).1.handle referenceLibs
            (.bus .sandbox ownerTold)).NoPanic := by
  constructor
  · apply no_crash Zvariant.reference_followsSpec .nil (by decide +kernel)
    refine ⟨destinationPlain_of_busName rfl, fun _ _ => ?_⟩
    exact Or.inr (by decide +kernel)
  · have hsurvives : (Session.new sandboxOnly none).survives referenceLibs
        [.client ownerAsked] = true := by
      decide +kernel
    obtain ⟨t, hrun⟩ := run_after hsurvives (by decide +kernel)
    apply no_crash Zvariant.reference_followsSpec hrun (by decide +kernel)
    refine ⟨fun _ u fs hs hu _ => ?_, fun _ _ => ?_⟩
    · have hsender : ownerTold.header.sender = some busName := rfl
      rw [hsender] at hs
      cases hs
      exact absurd hu (by decide +kernel)
    · exact Or.inr (by decide +kernel)

end DbusRouter.Model
