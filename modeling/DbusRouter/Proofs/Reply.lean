/-
Replies to calls that came in from a bus: how the call is shown to the client,
and where a message to the shown name goes.

A call is delivered to the client under a sender name, and the client's
answer names that sender as its destination. Two things must bring the
answer home: the bus, which comes from `incomingCalls` under the call's
serial or, without an entry, from the destination; and the name, from
which the prefix is removed again. Which call an entry is of is another matter
(`Proofs.Callers`).
-/
import DbusRouter.Proofs.Rewritten

namespace DbusRouter.Model

open Wire Lib

-- ============================================================== the situation

/-- A message taken for a call, and not for half of a pending merge. -/
def Session.Delivers (s : Session) (msg : Message) (b : Bus) : Prop :=
  s.isIncomingServiceCall msg b = true ∨ s.mergeOf msg = none

/-- A message that is delivered completes no merge and starts none. -/
theorem Session.Delivers.no_merge {s : Session} {msg : Message} {b : Bus}
    {n : Nat} {pending : PendingMerge} (h : s.Delivers msg b)
    (hcall : s.isIncomingServiceCall msg b = false)
    (hn : msg.header.replySerial = some n) :
    s.pendingMerges n ≠ some pending := by
  intro hp
  rcases h with h | h
  · rw [h] at hcall
    cases hcall
  · rw [Session.mergeOf, hn, Option.bind_some, hp] at h
    cases h

/-- The sender a reader of the written bytes sees. -/
def ShownSender (z : Zvariant) (ws : List Write) (d : Text) : Prop :=
  ∃ raw fds header, ws = [⟨.client, raw, fds⟩]
    ∧ headerOf z raw = .ok header ∧ header.sender = some d

/-- What is written goes to bus `b` and nowhere else, addressed to `u`. -/
def WrittenTo (z : Zvariant) (b : Bus) (u : Text) (ws : List Write) :
    Prop :=
  ∃ raw fds header, ws = [⟨.bus b, raw, fds⟩]
    ∧ headerOf z raw = .ok header ∧ header.destination = some u

-- =============================================================== the fallback

/-- Where a message addressed to `d` goes that answers no incoming call. -/
def Session.fallbackBus (L : Libs) (s : Session) (d : Text) : Bus :=
  if isHostpass L.glob s.config s.clientExePath then .host
  else
    match getBusFromFakeName d with
    | some b => b
    | none => if s.config.shouldRouteToHost d then .host else .sandbox

-- ================================================================= delivery

/-- The message a delivered call is written as. -/
def Session.deliveredCall (s : Session) (c : Message) (b : Bus) :
    Result Message :=
  if s.isIncomingServiceCall c b = true ∧ b = .host then .ok c
  else (rewriteMessageHeader c .toClient b).orElse c

/-- A delivered call is written once, as `deliveredCall`. -/
theorem delivered_call {L : Libs} {s s' : Session} {c : Message} {b : Bus}
    {ws : List Write} (h : Upstream L s c b s' ws)
    (hcall : c.header.msgType = .methodCall) (htaken : s.Delivers c b) :
    ∃ m, s.deliveredCall c b = .ok m ∧ ws = [⟨.client, m.raw, c.fds⟩] := by
  unfold Session.deliveredCall
  cases h with
  | @serviceCall m hc hm =>
      refine ⟨m, ?_, rfl⟩
      unfold serviceCallMessage at hm
      cases b with
      | host =>
          rw [if_pos ⟨hc, rfl⟩]
          exact hm
      | sandbox =>
          rw [if_neg (by simp)]
          exact hm
  | firstHalf hc hn hp => exact absurd hp (htaken.no_merge hc hn)
  | secondHalf hc hn hp => exact absurd hp (htaken.no_merge hc hn)
  | forwarded hc _ hraw =>
      have hno : ¬(s.isIncomingServiceCall c b = true ∧ b = .host) := by
        rw [hc]
        rintro ⟨h, -⟩
        cases h
      rw [if_neg hno]
      obtain ⟨-, m, hm, hbody⟩ := prepare_eq_ok hraw
      refine ⟨m, hm, ?_⟩
      obtain ⟨x, hx⟩ := rewrite_toClient_header hm
      have hty : m.header.msgType = .methodCall := by
        rw [hx]
        exact hcall
      unfold rewriteBodyForClient at hbody
      rw [hty] at hbody
      cases hbody
      rfl

/-- A call is shown under its sender's real name or with the prefix of its
bus. -/
theorem shown_cases {L : Libs} {s s' : Session} {c : Message} {b : Bus}
    {u d : Text} {ws : List Write} (hz : L.zvariant.FollowsSpec)
    (hstep : s.Step L (.bus b c) ws s')
    (hcall : c.header.msgType = .methodCall) (htaken : s.Delivers c b)
    (hs : c.header.sender = some u) (hu : isUniqueName u = true)
    (hheader : (s.isIncomingServiceCall c b = true ∧ b = .host)
      ∨ (c.Readable 7 ∧ c.HasRoom))
    (hshown : ShownSender L.zvariant ws d) :
    d = u ∨ d = toFakeName u b := by
  obtain ⟨hacc, hok⟩ := hstep
  have hacc : c.Accepted L.zvariant := hacc
  obtain ⟨raw, fds, header, hws, hread, hsender⟩ := hshown
  obtain ⟨m, hm, rfl⟩ := delivered_call (upstream_of_ok hok) hcall htaken
  cases hws
  unfold Session.deliveredCall at hm
  by_cases hhost : s.isIncomingServiceCall c b = true ∧ b = .host
  · rw [if_pos hhost] at hm
    cases hm
    rw [hacc.headerOf_raw] at hread
    cases hread
    rw [hs] at hsender
    cases hsender
    exact Or.inl rfl
  · rw [if_neg hhost] at hm
    rcases hheader with hh | ⟨hreadable, hroom⟩
    · exact absurd hh hhost
    · obtain ⟨m', hm', hrew, hh⟩ := toClient_rewritten b hz hacc hreadable
        hroom hs hu
      rw [hm', Outcome.orElse_ok] at hm
      cases hm
      rw [hrew.accepted.headerOf_raw] at hread
      cases hread
      rw [hh] at hsender
      cases hsender
      exact Or.inr rfl

-- ================================================================== routing

/-- A unique name is not the bus daemon's. -/
theorem ne_busName {d : Text} (h : isUniqueName d = true) :
    d ≠ busName := by
  rintro rfl
  revert h
  decide

theorem isUniqueName_toFakeName {u : Text} (h : isUniqueName u = true)
    (b : Bus) : isUniqueName (toFakeName u b) = true :=
  isUniqueName_of_getBus (getBusFromFakeName_toFakeName h b)

/-- A message to a unique name goes to one bus, found from the name. -/
theorem routeRequest_unique {L : Libs} {s : Session} {msg : Message}
    {d : Text} (hd : msg.header.destination = some d)
    (hu : isUniqueName d = true) :
    routeRequest L.glob s.config msg s.clientExePath
      = .ok (.single (s.fallbackBus L d)) := by
  unfold routeRequest Session.fallbackBus
  by_cases hp : isHostpass L.glob s.config s.clientExePath = true
  · rw [if_pos hp, if_pos hp]
  · rw [if_neg hp, if_neg hp, hd, Option.bind_some]
    cases getBusFromFakeName d with
    | some b => rfl
    | none =>
        have hne : ¬(some d = some busName
            ∧ msg.header.interface = some busName) := by
          rintro ⟨h, -⟩
          exact ne_busName hu (Option.some.inj h)
        simp only [if_neg hne, Option.any_some]
        split
        next => rfl
        next => rfl

/-- A message that is not addressed to the bus daemon keeps its body. -/
theorem rewriteRequestBody_of_ne {m : Message}
    (h : m.header.destination ≠ some busName) :
    rewriteRequestBody m = .ok m.raw := by
  unfold rewriteRequestBody
  rw [if_pos h]

/-- The destination of a message to a shown name, once the prefix is taken
out. -/
theorem unshown {z : Zvariant} {r m : Message} {u d : Text} {b target : Bus}
    (hz : z.FollowsSpec) (hacc : r.Accepted z)
    (hd : r.header.destination = some d) (hu : isUniqueName u = true)
    (hshown : d = u ∨ d = toFakeName u b)
    (hname : d = u → getBusFromFakeName u = none)
    (hread : getBusFromFakeName d ≠ none → r.Readable 6)
    (hm : (rewriteMessageHeader r .toUpstream target).orElse r = .ok m) :
    headerOf z m.raw = .ok m.header ∧ m.header.destination = some u := by
  by_cases hdu : d = u
  · have hnone : ∀ d', r.header.destination = some d' →
        getBusFromFakeName d' = none := by
      intro d' hd'
      rw [hd] at hd'
      cases hd'
      rw [hdu]
      exact hname hdu
    rw [rewriteMessageHeader_toUpstream_of_not_fake hnone,
      Outcome.orElse_ok] at hm
    cases hm
    refine ⟨hacc.headerOf_raw, ?_⟩
    rw [hd, hdu]
  · rcases hshown with h | rfl
    · exact absurd h hdu
    · have hfake := getBusFromFakeName_toFakeName hu b
      have hreadable := hread (by rw [hfake]; simp)
      obtain ⟨m', hm', hrew, hh⟩ := toUpstream_rewritten target hz hacc
        hreadable hd (fromFakeName_toFakeName hu b)
      rw [hm', Outcome.orElse_ok] at hm
      cases hm
      refine ⟨hrew.accepted.headerOf_raw, ?_⟩
      rw [hh]

/-- The header of a message to a unique name is rewritten, and not for the
bus daemon. -/
theorem toUpstream_unique {z : Zvariant} {msg : Message} {d : Text}
    (target : Bus) (hz : z.FollowsSpec) (hacc : msg.Accepted z)
    (hd : msg.header.destination = some d) (hu : isUniqueName d = true)
    (hread : getBusFromFakeName d ≠ none → msg.Readable 6) :
    ∃ m, rewriteMessageHeader msg .toUpstream target = .ok m
      ∧ m.header.destination ≠ some busName := by
  cases hreal : fromFakeName d with
  | none =>
      refine ⟨msg, ?_, ?_⟩
      · unfold rewriteMessageHeader
        simp only [hd, hreal]
      · rw [hd]
        intro h
        exact ne_busName hu (Option.some.inj h)
  | some x =>
      obtain ⟨real, b⟩ := x
      have hbus := getBusFromFakeName_of_fromFakeName hreal
      obtain ⟨m, hm, -, hheader⟩ := toUpstream_rewritten target hz hacc
        (hread (by rw [hbus]; simp)) hd hreal
      refine ⟨m, hm, ?_⟩
      rw [hheader]
      intro h
      obtain ⟨x, -, hx⟩ := fromFakeName_eq_some hreal
      exact ne_busName (isUniqueName_iff.mpr ⟨x, hx⟩) (Option.some.inj h)

/-- A message to a unique name is handled, if its prefix, should it have
one, can be taken out. -/
theorem handled_unique {L : Libs} {s : Session} {msg : Message} {d : Text}
    (hz : L.zvariant.FollowsSpec) (hacc : msg.Accepted L.zvariant)
    (hd : msg.header.destination = some d) (hu : isUniqueName d = true)
    (hread : getBusFromFakeName d ≠ none → msg.Readable 6) :
    ∃ ws s', s.Step L (.client msg) ws s' := by
  have hroute : ∃ x, s.routeClientMessage L msg = .ok x := by
    obtain ⟨m, hm, hne⟩ := toUpstream_unique (s.fallbackBus L d) hz hacc hd
      hu hread
    have hname : msg.isRequestName = false := by
      unfold Message.isRequestName
      rw [hd, beq_eq_false_iff_ne.mpr fun h =>
        ne_busName hu (Option.some.inj h)]
      rfl
    unfold Session.routeClientMessage
    rw [routeRequest_unique hd hu, Outcome.ok_bind]
    unfold Session.trackExportedService
    rw [hname]
    show ∃ x, s.forwardToBus msg (s.fallbackBus L d) = .ok x
    unfold Session.forwardToBus
    rw [hm, Outcome.orElse_ok, Outcome.ok_bind, rewriteRequestBody_of_ne hne,
      Outcome.ok_bind, send_ok hacc.fds_le]
    exact ⟨_, rfl⟩
  have hhandle : ∃ x, s.handleClientMessage L msg = .ok x := by
    have hreply : ∃ r, s.forwardReplyToCaller msg = .ok r := by
      unfold Session.forwardReplyToCaller
      split
      next => exact ⟨_, rfl⟩
      next =>
        split
        next => exact ⟨_, rfl⟩
        next =>
          split
          next => exact ⟨_, rfl⟩
          next b _ =>
            obtain ⟨m, hm, -⟩ := toUpstream_unique b hz hacc hd hu hread
            rw [hm, Outcome.orElse_ok, Outcome.ok_bind,
              send_ok hacc.fds_le]
            exact ⟨_, rfl⟩
    obtain ⟨r, hr⟩ := hreply
    unfold Session.handleClientMessage
    rw [hr, Outcome.ok_bind]
    cases r with
    | none => exact hroute
    | some x => exact ⟨x, rfl⟩
  obtain ⟨⟨s', ws⟩, hok⟩ := hhandle
  exact ⟨ws, s', hacc, hok⟩

-- ============================================================ two callers

/-- The wire format's own codec, and no glob patterns. -/
def referenceLibs : Libs := ⟨.reference, fun _ => none⟩

/-- The host owns one of the two names the client asks for. -/
def twoNames : Config := ⟨[⟨utf8 "org.a"⟩], []⟩

/-- A session whose client owns `org.a` on the host and `org.c` on the
sandbox. -/
def registered : Session :=
  (Session.new twoNames none).after referenceLibs
    [.client (.daemonCall 1 "RequestName" "org.a"),
     .client (.daemonCall 2 "RequestName" "org.c")]

theorem registered_run :
    ∃ t, Run referenceLibs (.new twoNames none) t registered := by
  apply run_after
  · decide +kernel
  · decide +kernel

/-- A host peer calls the client under serial 7. -/
def hostCall : Message := .peerCall 7 "org.a" ":1.5"

/-- A sandbox peer does so under the same serial. -/
def sandboxCall : Message := .peerCall 7 "org.c" ":1.6"

/-- The client's answer to the host peer. -/
def hostAnswer : Message := .answer 3 7 ":1.5"

end DbusRouter.Model
