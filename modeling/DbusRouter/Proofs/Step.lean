/-
What one event can do to a session, said once.

`Upstream` and `Downstream` list the ways a message from a bus and a
message from the client can be handled without an error, each with the
next state and the writes. Every statement about runs is proved from
these cases and never from the handlers.
-/
import DbusRouter.Proofs.Message

namespace DbusRouter.Model

open Wire Lib

theorem send_eq_ok {peer : Peer} {raw : Bytes} {fds : List Fd}
    {ws : List Write} (h : send peer raw fds = .ok ws) :
    ws = [⟨peer, raw, fds⟩] := by
  unfold send at h
  split at h
  next => cases h
  next =>
    cases h
    rfl

theorem send_ok {peer : Peer} {raw : Bytes} {fds : List Fd}
    (h : fds.length ≤ maxFdsPerMessage) :
    send peer raw fds = .ok [⟨peer, raw, fds⟩] := by
  unfold send
  rw [if_neg (Nat.not_lt.mpr h)]

theorem sendBoth_eq_ok {raw : Bytes} {fds : List Fd} {ws : List Write}
    (h : sendBoth raw fds = .ok ws) :
    ws = [⟨.bus .host, raw, fds⟩, ⟨.bus .sandbox, raw, fds⟩] := by
  unfold sendBoth at h
  obtain ⟨ws₁, h₁, h⟩ := Outcome.bind_eq_ok h
  obtain ⟨ws₂, h₂, h⟩ := Outcome.bind_eq_ok h
  cases h
  rw [send_eq_ok h₁, send_eq_ok h₂]
  rfl

/-- Towards the client the parsed header changes in the sender only. -/
theorem rewrite_toClient_header {msg m : Message} {b : Bus}
    (h : (rewriteMessageHeader msg .toClient b).orElse msg = .ok m) :
    ∃ x, m.header = { msg.header with sender := x } := by
  rcases Outcome.orElse_eq_ok h with h | ⟨-, rfl⟩
  · unfold rewriteMessageHeader at h
    cases hs : msg.header.sender with
    | none =>
        simp only [hs] at h
        cases h
        exact ⟨_, rfl⟩
    | some u =>
        simp only [hs] at h
        split at h
        next =>
          cases h
          exact ⟨_, rfl⟩
        next =>
          obtain ⟨raw, -, h⟩ := Outcome.bind_eq_ok h
          cases h
          exact ⟨_, rfl⟩
  · exact ⟨_, rfl⟩

/-- Towards a bus the parsed header changes in the destination only: a
fake name there becomes the real one. -/
theorem rewrite_toUpstream_header {msg m : Message} {b : Bus}
    (h : (rewriteMessageHeader msg .toUpstream b).orElse msg = .ok m) :
    (m = msg) ∨ ∃ d real b', msg.header.destination = some d
      ∧ fromFakeName d = some (real, b')
      ∧ m.header = { msg.header with destination := some real } := by
  rcases Outcome.orElse_eq_ok h with h | ⟨-, rfl⟩
  · unfold rewriteMessageHeader at h
    cases hd : msg.header.destination with
    | none =>
        simp only [hd] at h
        cases h
        exact Or.inl rfl
    | some d =>
        simp only [hd] at h
        cases hreal : fromFakeName d with
        | none =>
            simp only [hreal] at h
            cases h
            exact Or.inl rfl
        | some x =>
            obtain ⟨real, b'⟩ := x
            simp only [hreal] at h
            obtain ⟨raw, -, h⟩ := Outcome.bind_eq_ok h
            cases h
            exact Or.inr ⟨d, real, b', rfl, hreal, rfl⟩
  · exact Or.inl rfl

/-- A message to the bus daemon keeps its header: the daemon's name has no
prefix to lose. -/
theorem toUpstream_busName {msg m : Message} {b : Bus}
    (hdest : msg.header.destination = some busName)
    (h : (rewriteMessageHeader msg .toUpstream b).orElse msg = .ok m) :
    m = msg := by
  rcases rewrite_toUpstream_header h with hm | ⟨d, real, b', hd, hreal, -⟩
  · exact hm
  · rw [hdest] at hd
    cases hd
    have hnone : fromFakeName busName = none := by decide
    rw [hnone] at hreal
    cases hreal

-- ========================================================= towards the client

/-- The pending merge a message belongs to. -/
def Session.mergeOf (s : Session) (msg : Message) : Option PendingMerge :=
  msg.header.replySerial.bind s.pendingMerges

/-- What handling a message from a bus can do. -/
inductive Upstream (L : Libs) (s : Session) (msg : Message) (b : Bus) :
    Session → List Write → Prop
  | serviceCall {m : Message}
      (hcall : s.isIncomingServiceCall msg b = true)
      (hm : serviceCallMessage msg b = .ok m) :
      Upstream L s msg b
        { s with incomingCalls := s.incomingCalls.insert msg.header.serial b }
        [⟨.client, m.raw, msg.fds⟩]
  | firstHalf {n : Nat} {pending : PendingMerge} {names : List Text}
      (hcall : s.isIncomingServiceCall msg b = false)
      (hn : msg.header.replySerial = some n)
      (hp : s.pendingMerges n = some pending)
      (hfirst : pending.firstResponse = none) :
      Upstream L s msg b
        { s with pendingMerges :=
            s.pendingMerges.insert n (pending.answered b names) }
        []
  | secondHalf {n : Nat} {pending : PendingMerge} {names : List Text}
      {response : Bytes}
      (hcall : s.isIncomingServiceCall msg b = false)
      (hn : msg.header.replySerial = some n)
      (hp : s.pendingMerges n = some pending)
      (hfirst : pending.firstResponse.isSome = true)
      (hbuild : (buildListNamesResponse L.zvariant pending.originalRequest
        names).orElse msg.raw = .ok response) :
      Upstream L s msg b
        { s with pendingMerges := s.pendingMerges.remove n }
        [⟨.client, response, []⟩]
  | forwarded {raw : Bytes}
      (hcall : s.isIncomingServiceCall msg b = false)
      (hmerge : s.mergeOf msg = none)
      (hraw : prepareMessageForClient L.zvariant msg b s.pendingCalls
        = .ok (raw, msg.fds)) :
      Upstream L s msg b s [⟨.client, raw, msg.fds⟩]

/-- A service call is a METHOD_CALL. -/
theorem msgType_of_serviceCall {s : Session} {msg : Message} {b : Bus}
    (h : s.isIncomingServiceCall msg b = true) :
    msg.header.msgType = .methodCall := by
  unfold Session.isIncomingServiceCall at h
  rw [Bool.and_eq_true] at h
  simpa using h.1

/-- A prepared message is the body's rewrite of the header's rewrite. -/
theorem prepare_eq_ok {z : Zvariant} {msg : Message} {b : Bus}
    {calls : PMap Nat PendingCallInfo} {raw : Bytes} {fds : List Fd}
    (h : prepareMessageForClient z msg b calls = .ok (raw, fds)) :
    fds = msg.fds ∧ ∃ m,
      (rewriteMessageHeader msg .toClient b).orElse msg = .ok m
        ∧ rewriteBodyForClient z m b calls = .ok raw := by
  unfold prepareMessageForClient at h
  obtain ⟨m, hm, h⟩ := Outcome.bind_eq_ok h
  obtain ⟨r, hr, h⟩ := Outcome.bind_eq_ok h
  cases h
  exact ⟨rfl, m, hm, hr⟩

/-- Every message from a bus is handled in one of the ways of
`Upstream`. -/
theorem upstream_of_ok {L : Libs} {s s' : Session} {msg : Message} {b : Bus}
    {ws : List Write}
    (h : s.handleUpstreamMessage L msg b = .ok (s', ws)) :
    Upstream L s msg b s' ws := by
  unfold Session.handleUpstreamMessage at h
  split at h
  next hcall =>
    obtain ⟨m, hm, h⟩ := Outcome.bind_eq_ok h
    obtain ⟨ws', hws, h⟩ := Outcome.bind_eq_ok h
    cases h
    rw [send_eq_ok hws]
    exact .serviceCall hcall hm
  next hcall =>
    rw [Bool.not_eq_true] at hcall
    obtain ⟨⟨outcome, merges⟩, hmerge, h⟩ := Outcome.bind_eq_ok h
    unfold processMergeResponse at hmerge
    cases hn : msg.header.replySerial with
    | none =>
        rw [hn] at hmerge
        cases hmerge
        obtain ⟨⟨raw, fds⟩, hraw, h⟩ := Outcome.bind_eq_ok h
        obtain ⟨ws', hws, h⟩ := Outcome.bind_eq_ok h
        cases h
        obtain ⟨rfl, -⟩ := prepare_eq_ok hraw
        rw [send_eq_ok hws]
        refine .forwarded hcall ?_ hraw
        rw [Session.mergeOf, hn]
        rfl
    | some n =>
        rw [hn] at hmerge
        cases hp : s.pendingMerges n with
        | none =>
            simp only [hp] at hmerge
            cases hmerge
            obtain ⟨⟨raw, fds⟩, hraw, h⟩ := Outcome.bind_eq_ok h
            obtain ⟨ws', hws, h⟩ := Outcome.bind_eq_ok h
            cases h
            obtain ⟨rfl, -⟩ := prepare_eq_ok hraw
            rw [send_eq_ok hws]
            refine .forwarded hcall ?_ hraw
            rw [Session.mergeOf, hn]
            exact hp
        | some pending =>
            simp only [hp] at hmerge
            obtain ⟨names, -, hmerge⟩ := Outcome.bind_eq_ok hmerge
            cases hfirst : pending.firstResponse with
            | none =>
                simp only [hfirst] at hmerge
                cases hmerge
                cases h
                exact .firstHalf hcall hn hp hfirst
            | some first =>
                obtain ⟨firstBus, firstNames⟩ := first
                simp only [hfirst] at hmerge
                obtain ⟨response, hbuild, hmerge⟩ :=
                  Outcome.bind_eq_ok hmerge
                cases hmerge
                obtain ⟨ws', hws, h⟩ := Outcome.bind_eq_ok h
                cases h
                rw [send_eq_ok hws]
                refine .secondHalf hcall hn hp ?_ hbuild
                rw [hfirst]
                rfl

-- =========================================================== towards the buses

/-- A reply or error that answers a call some bus made. -/
def Session.AnswersCall (s : Session) (msg : Message) : Prop :=
  (msg.header.msgType = .methodReturn ∨ msg.header.msgType = .error)
    ∧ ∃ n, msg.header.replySerial = some n ∧ (s.incomingCalls n).isSome

theorem answersCall_of_incoming {s : Session} {msg : Message} {n : Nat}
    {b : Bus} (hty : msg.header.msgType = .methodReturn
      ∨ msg.header.msgType = .error)
    (hn : msg.header.replySerial = some n)
    (hin : s.incomingCalls n = some b) : s.AnswersCall msg :=
  ⟨hty, n, hn, by rw [hin]; rfl⟩

/-- A call is no answer. -/
theorem not_answers_of_call {msg : Message}
    (h : msg.header.msgType = .methodCall) (s : Session) :
    ¬s.AnswersCall msg := by
  rintro ⟨hty, -⟩
  rw [h] at hty
  rcases hty with hty | hty <;> cases hty

/-- What handling a message from the client can do. -/
inductive Downstream (L : Libs) (s : Session) (msg : Message) :
    Session → List Write → Prop
  | reply {n : Nat} {b : Bus} {m : Message}
      (hty : msg.header.msgType = .methodReturn
        ∨ msg.header.msgType = .error)
      (hn : msg.header.replySerial = some n)
      (hin : s.incomingCalls n = some b)
      (hm : (rewriteMessageHeader msg .toUpstream b).orElse msg = .ok m) :
      Downstream L s msg
        { s with incomingCalls := s.incomingCalls.remove n }
        [⟨.bus b, m.raw, msg.fds⟩]
  | toBus {target : Bus} {s₁ : Session} {m : Message} {raw : Bytes}
      (hno : ¬s.AnswersCall msg)
      (hroute : routeRequest L.glob s.config msg s.clientExePath
        = .ok (.single target))
      (htrack : s.trackExportedService msg (.single target) = .ok s₁)
      (hm : (rewriteMessageHeader msg .toUpstream target).orElse msg = .ok m)
      (hraw : rewriteRequestBody m = .ok raw) :
      Downstream L s msg (s₁.rememberCall msg target)
        [⟨.bus target, raw, msg.fds⟩]
  | toBoth {s₁ : Session} {raw : Bytes}
      (hno : ¬s.AnswersCall msg)
      (hroute : routeRequest L.glob s.config msg s.clientExePath = .ok .both)
      (htrack : s.trackExportedService msg .both = .ok s₁)
      (hraw : bytesForBoth msg = .ok raw) :
      Downstream L s msg (s₁.rememberCall msg .sandbox)
        [⟨.bus .host, raw, msg.fds⟩, ⟨.bus .sandbox, raw, msg.fds⟩]
  | merge {s₁ : Session}
      (hno : ¬s.AnswersCall msg)
      (hroute : routeRequest L.glob s.config msg s.clientExePath
        = .ok .merge)
      (htrack : s.trackExportedService msg .merge = .ok s₁) :
      Downstream L s msg
        { s₁ with pendingMerges :=
            s₁.pendingMerges.insert msg.header.serial ⟨msg, none⟩ }
        [⟨.bus .host, msg.raw, msg.fds⟩,
          ⟨.bus .sandbox, msg.raw, msg.fds⟩]

/-- The reply path either takes the message or leaves it alone. -/
theorem forwardReply_cases {s : Session} {msg : Message}
    {r : Option (Session × List Write)}
    (h : s.forwardReplyToCaller msg = .ok r) :
    (r = none ∧ ¬s.AnswersCall msg)
      ∨ ∃ n b m, (msg.header.msgType = .methodReturn
          ∨ msg.header.msgType = .error)
        ∧ msg.header.replySerial = some n ∧ s.incomingCalls n = some b
        ∧ (rewriteMessageHeader msg .toUpstream b).orElse msg = .ok m
        ∧ r = some ({ s with incomingCalls := s.incomingCalls.remove n },
            [⟨.bus b, m.raw, msg.fds⟩]) := by
  unfold Session.forwardReplyToCaller at h
  split at h
  next hty =>
    cases h
    refine Or.inl ⟨rfl, ?_⟩
    rintro ⟨hr | he, -⟩
    · exact hty.1 hr
    · exact hty.2 he
  next hty =>
    have hty' : msg.header.msgType = .methodReturn
        ∨ msg.header.msgType = .error := by
      by_contra hno
      push Not at hno
      exact hty hno
    cases hn : msg.header.replySerial with
    | none =>
        rw [hn] at h
        cases h
        refine Or.inl ⟨rfl, ?_⟩
        rintro ⟨-, n, hn', -⟩
        rw [hn] at hn'
        cases hn'
    | some n =>
        rw [hn] at h
        cases hin : s.incomingCalls n with
        | none =>
            simp only [hin] at h
            cases h
            refine Or.inl ⟨rfl, ?_⟩
            rintro ⟨-, n', hn', hsome⟩
            rw [hn] at hn'
            cases hn'
            rw [hin] at hsome
            cases hsome
        | some b =>
            simp only [hin] at h
            obtain ⟨m, hm, h⟩ := Outcome.bind_eq_ok h
            obtain ⟨ws, hws, h⟩ := Outcome.bind_eq_ok h
            cases h
            rw [send_eq_ok hws]
            exact Or.inr ⟨n, b, m, hty', rfl, hin, hm, rfl⟩

/-- Every message from the client is handled in one of the ways of
`Downstream`. -/
theorem downstream_of_ok {L : Libs} {s s' : Session} {msg : Message}
    {ws : List Write} (h : s.handleClientMessage L msg = .ok (s', ws)) :
    Downstream L s msg s' ws := by
  unfold Session.handleClientMessage at h
  obtain ⟨r, hr, h⟩ := Outcome.bind_eq_ok h
  rcases forwardReply_cases hr with ⟨rfl, hno⟩ | ⟨n, b, m, hty, hn, hin, hm,
    rfl⟩
  · unfold Session.routeClientMessage at h
    obtain ⟨decision, hroute, h⟩ := Outcome.bind_eq_ok h
    obtain ⟨s₁, htrack, h⟩ := Outcome.bind_eq_ok h
    cases decision with
    | single target =>
        unfold Session.forwardToBus at h
        obtain ⟨m, hm, h⟩ := Outcome.bind_eq_ok h
        obtain ⟨raw, hraw, h⟩ := Outcome.bind_eq_ok h
        obtain ⟨ws', hws, h⟩ := Outcome.bind_eq_ok h
        cases h
        rw [send_eq_ok hws]
        exact .toBus hno hroute htrack hm hraw
    | both =>
        unfold Session.forwardToBoth at h
        obtain ⟨raw, hraw, h⟩ := Outcome.bind_eq_ok h
        obtain ⟨ws', hws, h⟩ := Outcome.bind_eq_ok h
        cases h
        rw [sendBoth_eq_ok hws]
        exact .toBoth hno hroute htrack hraw
    | merge =>
        unfold Session.forwardForMerge at h
        obtain ⟨ws', hws, h⟩ := Outcome.bind_eq_ok h
        cases h
        rw [sendBoth_eq_ok hws]
        exact .merge hno hroute htrack
  · cases h
    exact .reply hty hn hin hm

/-- Tracking a service touches the two service lists only. -/
theorem track_eq {s s₁ : Session} {msg : Message} {d : RouteDecision}
    (h : s.trackExportedService msg d = .ok s₁) :
    ∃ exported sandbox, s₁ = { s with
      exportedServices := exported, sandboxServices := sandbox } := by
  unfold Session.trackExportedService at h
  split at h
  next =>
    cases h
    exact ⟨_, _, rfl⟩
  next =>
    obtain ⟨name, -, h⟩ := Outcome.bind_eq_ok h
    cases name with
    | none =>
        cases h
        exact ⟨_, _, rfl⟩
    | some name =>
        rcases d with (_ | _) | _ | _
        all_goals
          cases h
          exact ⟨_, _, rfl⟩

/-- A client message leaves the configuration alone. -/
theorem downstream_config {L : Libs} {s s' : Session} {msg : Message}
    {ws : List Write} (h : Downstream L s msg s' ws) :
    s'.config = s.config ∧ s'.clientExePath = s.clientExePath := by
  cases h with
  | reply => exact ⟨rfl, rfl⟩
  | toBus _ _ htrack | toBoth _ _ htrack | merge _ _ htrack =>
      obtain ⟨exported, sandbox, rfl⟩ := track_eq htrack
      exact ⟨rfl, rfl⟩

/-- A client message takes out the entry of the call it answers, if any,
and leaves the others alone. -/
theorem downstream_incoming {L : Libs} {s s' : Session} {msg : Message}
    {ws : List Write} (h : Downstream L s msg s' ws) :
    s'.incomingCalls = s.incomingCalls
      ∨ ∃ n, (msg.header.msgType = .methodReturn
          ∨ msg.header.msgType = .error)
        ∧ msg.header.replySerial = some n
        ∧ s'.incomingCalls = s.incomingCalls.remove n := by
  cases h with
  | @reply n _ _ hty hn => exact Or.inr ⟨n, hty, hn, rfl⟩
  | toBus _ _ htrack | toBoth _ _ htrack | merge _ _ htrack =>
      obtain ⟨exported, sandbox, rfl⟩ := track_eq htrack
      exact Or.inl rfl

/-- A client message starts a merge under its serial, or leaves the merges
alone and, if it is a call, is not routed to one. -/
theorem downstream_merges {L : Libs} {s s' : Session} {msg : Message}
    {ws : List Write} (h : Downstream L s msg s' ws) :
    (routeRequest L.glob s.config msg s.clientExePath = .ok .merge
        ∧ s'.pendingMerges
          = s.pendingMerges.insert msg.header.serial ⟨msg, none⟩)
      ∨ (s'.pendingMerges = s.pendingMerges
        ∧ (msg.header.msgType = .methodCall →
          routeRequest L.glob s.config msg s.clientExePath ≠ .ok .merge)) := by
  cases h with
  | reply hty =>
      refine Or.inr ⟨rfl, fun hcall => ?_⟩
      rw [hcall] at hty
      rcases hty with h | h <;> cases h
  | toBus _ hroute htrack | toBoth _ hroute htrack =>
      obtain ⟨exported, sandbox, rfl⟩ := track_eq htrack
      refine Or.inr ⟨rfl, fun _ => ?_⟩
      rw [hroute]
      simp
  | merge _ hroute htrack =>
      obtain ⟨exported, sandbox, rfl⟩ := track_eq htrack
      exact Or.inl ⟨hroute, rfl⟩

-- ==================================================================== events

/-- What one event of a run can do. -/
theorem step_cases {L : Libs} {s s' : Session} {ev : Event}
    {ws : List Write} (h : s.Step L ev ws s') :
    (∃ msg, ev = .client msg ∧ Downstream L s msg s' ws)
      ∨ ∃ b msg, ev = .bus b msg ∧ Upstream L s msg b s' ws := by
  cases ev with
  | client msg => exact Or.inl ⟨msg, rfl, downstream_of_ok h.2⟩
  | bus b msg => exact Or.inr ⟨b, msg, rfl, upstream_of_ok h.2⟩

/-- Handling one accepted event is a step. -/
theorem step_react {L : Libs} {s : Session} {ev : Event}
    (h : s.survives L [ev] = true) (hacc : ev.msg.Accepted L.zvariant) :
    s.Step L ev (s.react L ev).2 (s.react L ev).1 := by
  refine ⟨hacc, ?_⟩
  unfold Session.survives at h
  unfold Session.react
  cases hr : s.handle L ev with
  | ok r => rfl
  | err e =>
      rw [hr] at h
      cases h
  | panic p =>
      rw [hr] at h
      cases h

/-- A trace is a trace of its events. -/
theorem trace_events {L : Libs} {evs : List Event} :
    ∀ s : Session, (s.trace L evs).map Prod.fst = evs := by
  induction evs with
  | nil => exact fun _ => rfl
  | cons ev evs ih =>
      intro s
      unfold Session.trace
      rw [List.map_cons, ih]

theorem mem_of_mem_trace {L : Libs} {evs : List Event} {s : Session}
    {x : Event × List Write} (h : x ∈ s.trace L evs) : x.1 ∈ evs := by
  have hmem : x.1 ∈ (s.trace L evs).map Prod.fst := List.mem_map_of_mem h
  rwa [trace_events] at hmem

/-- Handling accepted events in order is a run, of steps that meet whatever
condition they meet one by one. -/
theorem run_trace {L : Libs} {C : Session → Event → Prop}
    {evs : List Event} :
    ∀ {s : Session}, s.survives L evs = true →
      (∀ ev ∈ evs, ev.msg.Accepted L.zvariant) →
      (∀ u ev v, evs = u ++ ev :: v → C (s.after L u) ev) →
      Steps (Meeting (Session.Step L) C) s (s.trace L evs)
        (s.after L evs) := by
  induction evs with
  | nil => exact fun _ _ _ => .nil
  | cons ev evs ih =>
      intro s h hacc hc
      unfold Session.survives at h
      have hreact : s.Step L ev (s.react L ev).2 (s.react L ev).1 := by
        refine step_react ?_ (hacc ev (List.mem_cons_self ..))
        unfold Session.survives
        cases hr : s.handle L ev with
        | ok r => rfl
        | err e =>
            rw [hr] at h
            cases h
        | panic p =>
            rw [hr] at h
            cases h
      have hrest : (s.react L ev).1.survives L evs = true := by
        unfold Session.react
        cases hr : s.handle L ev with
        | ok r =>
            rw [hr] at h
            exact h
        | err e =>
            rw [hr] at h
            cases h
        | panic p =>
            rw [hr] at h
            cases h
      have hfirst : C s ev := hc [] ev evs rfl
      refine (Steps.single ⟨hfirst, hreact⟩).append (ih hrest ?_ ?_)
      · exact fun ev' h' => hacc ev' (List.mem_cons_of_mem _ h')
      · intro u ev' v huv
        exact hc (ev :: u) ev' v (by rw [huv]; rfl)

/-- Handling accepted events in order is a run. -/
theorem run_after {L : Libs} {evs : List Event} {s : Session}
    (h : s.survives L evs = true)
    (hacc : ∀ ev ∈ evs, ev.msg.Accepted L.zvariant) :
    ∃ t, Run L s t (s.after L evs) :=
  ⟨_, (run_trace (C := fun _ _ => True) h hacc
    fun _ _ _ _ => trivial).of_meeting⟩

end DbusRouter.Model
