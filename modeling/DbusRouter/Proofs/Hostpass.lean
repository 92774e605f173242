/-
A hostpass client and the sandbox bus.

Routing sends every request of such a client to the host, but replies do
not go through routing: they go to the bus `incomingCalls` names. So the
invariant is a joint one (`Session.HostOnly`): no name of the client's is
known to the sandbox, hence no call from there is entered, hence no reply
goes there; and no merge is pending. It holds along every run, whatever the
three peers send.

What can go wrong is that a message is not handled at all: a match rule of
one byte (`Session.Safe`).
-/
import DbusRouter.Model.Loop
import DbusRouter.Proofs.Crash

namespace DbusRouter.Model

open Wire Lib

-- ============================================================ loop and session

/-- The event a message from a peer is. -/
def Peer.event : Peer → Message → Event
  | .client, msg => .client msg
  | .bus b, msg => .bus b msg

/-- The event a read gives a session, if any. -/
def eventOf (i : Peer × ReadResult) : Option Event :=
  match i.2 with
  | .message msg => some (i.1.event msg)
  | _ => none

/-- The messages of a run of the loop, with what is written on each. -/
def messages (t : List ((Peer × ReadResult) × List Write)) :
    List (Event × List Write) :=
  t.filterMap fun x => (eventOf x.1).map fun ev => (ev, x.2)

theorem messages_snoc (t : List ((Peer × ReadResult) × List Write))
    (i : Peer × ReadResult) (ws : List Write) :
    messages (t ++ [(i, ws)])
      = messages t ++ ((eventOf i).map fun ev => (ev, ws)).toList := by
  unfold messages
  rw [List.filterMap_append]
  cases h : eventOf i with
  | none => simp [h]
  | some ev => simp [h]

/-- A turn that goes on behind a handled message. -/
theorem of_handled {l l' : ForwardLoop} {ws : List Write}
    {x : Result (Session × List Write)}
    (h : (x >>= fun r => Outcome.ok (l.handled r))
      = Outcome.ok (Turn.next l' ws)) :
    x = .ok (l'.session, ws) ∧ l' = { l with session := l'.session } := by
  obtain ⟨⟨s, ws'⟩, rfl, h⟩ := Outcome.bind_eq_ok h
  cases h
  exact ⟨rfl, rfl⟩

/-- A turn handles a message as the session does, or detaches the sandbox
from a hostpass client. -/
theorem loop_cases {L : Libs} {l l' : ForwardLoop} {p : Peer}
    {r : ReadResult} {ws : List Write} (h : l.Step L (p, r) ws l') :
    (∃ msg, r = .message msg ∧ l.session.Step L (p.event msg) ws l'.session
        ∧ l' = { l with session := l'.session })
      ∨ (eventOf (p, r) = none ∧ l.isHostpass = true ∧ ws = []
        ∧ l' = { l with sandboxActive := false }) := by
  obtain ⟨-, hacc, hturn⟩ := h
  unfold ForwardLoop.turn at hturn
  cases r with
  | message msg =>
      refine Or.inl ⟨msg, rfl, ?_⟩
      have hmsg : msg.Accepted L.zvariant := hacc msg rfl
      cases p with
      | client =>
          obtain ⟨hok, hl⟩ := of_handled hturn
          exact ⟨⟨hmsg, hok⟩, hl⟩
      | bus b =>
          cases b with
          | host =>
              obtain ⟨hok, hl⟩ := of_handled hturn
              exact ⟨⟨hmsg, hok⟩, hl⟩
          | sandbox =>
              obtain ⟨hok, hl⟩ := of_handled hturn
              exact ⟨⟨hmsg, hok⟩, hl⟩
  | disconnected | failed =>
      refine Or.inr ⟨rfl, ?_⟩
      rcases p with _ | _ | _
      · cases hturn
      · cases hturn
      · simp only at hturn
        split at hturn
        next => cases hturn
        next hpass =>
          cases hturn
          exact ⟨by simpa using hpass, rfl, rfl⟩

/-- The session of a loop runs on the messages of the loop. -/
theorem session_run {L : Libs} {s : Session} {l : ForwardLoop}
    {t : List ((Peer × ReadResult) × List Write)}
    (h : LoopRun L (s.forwardLoop L) t l) :
    Run L s (messages t) l.session := by
  refine h.history (P := fun t l => Run L s (messages t) l.session) .nil ?_
  rintro t l ⟨p, r⟩ ws l' - hrun hstep
  rw [messages_snoc]
  rcases loop_cases hstep with ⟨msg, rfl, hs, -⟩ | ⟨hnone, -, -, rfl⟩
  · exact .snoc hrun hs
  · rw [hnone]
    exact (List.append_nil (messages t)).symm ▸ hrun

/-- A message the session handles is a turn. -/
theorem turn_of_step {L : Libs} {l : ForwardLoop} {p : Peer}
    {msg : Message} {ws : List Write} {s' : Session}
    (hactive : p = .bus .sandbox → l.sandboxActive = true)
    (h : l.session.Step L (p.event msg) ws s') :
    l.Step L (p, .message msg) ws { l with session := s' } := by
  obtain ⟨hacc, hok⟩ := h
  refine ⟨hactive, ?_, ?_⟩
  · intro m hm
    cases hm
    cases p with
    | client => exact hacc
    | bus b => exact hacc
  · unfold ForwardLoop.turn ForwardLoop.handled
    rcases p with _ | _ | _
    all_goals
      have hok' := hok
      unfold Session.handle Peer.event at hok'
      simp only at hok' ⊢
      rw [hok']
      rfl

-- ==================================================================== invariant

/-- The session has nothing to do with the sandbox. -/
def Session.HostOnly (s : Session) : Prop :=
  s.sandboxServices = [] ∧ (∀ n, s.incomingCalls n ≠ some .sandbox)
    ∧ ∀ n, s.pendingMerges n = none

/-- A client message is written once, to the host, with the headers and the
body the rewriting gives it. -/
def Message.SentToHost (msg : Message) (ws : List Write) : Prop :=
  ∃ m raw, ws = [⟨.bus .host, raw, msg.fds⟩]
    ∧ (rewriteMessageHeader msg .toUpstream .host).orElse msg = .ok m
    ∧ (raw = m.raw ∨ rewriteRequestBody m = .ok raw)

/-- Tracking towards the host leaves the names on the sandbox alone. -/
theorem track_host {s s₁ : Session} {msg : Message}
    (h : s.trackExportedService msg (.single .host) = .ok s₁) :
    ∃ exported, s₁ = { s with exportedServices := exported } := by
  unfold Session.trackExportedService at h
  split at h
  next =>
    cases h
    exact ⟨_, rfl⟩
  next =>
    obtain ⟨name, -, h⟩ := Outcome.bind_eq_ok h
    cases name with
    | none =>
        cases h
        exact ⟨_, rfl⟩
    | some name =>
        cases h
        exact ⟨_, rfl⟩

theorem Session.HostOnly.not_serviceCall {s : Session} (h : s.HostOnly)
    (msg : Message) : s.isIncomingServiceCall msg .sandbox = false := by
  unfold Session.isIncomingServiceCall
  rw [h.1]
  cases msg.header.destination with
  | none => exact Bool.and_false _
  | some d => exact Bool.and_false _

/-- No message from a bus ends the invariant, and what is written on it is
written to the client. -/
theorem hostOnly_bus {L : Libs} {s s' : Session} {msg : Message} {b : Bus}
    {ws : List Write} (h : Upstream L s msg b s' ws) (hs : s.HostOnly) :
    s'.HostOnly ∧ ∀ w ∈ ws, w.peer = .client := by
  obtain ⟨hnames, hincoming, hmerges⟩ := hs
  cases h with
  | serviceCall hcall =>
      refine ⟨⟨hnames, ?_, hmerges⟩, ?_⟩
      · intro n hn
        have hb : b = .host := by
          cases b with
          | host => rfl
          | sandbox =>
              have hno := Session.HostOnly.not_serviceCall
                ⟨hnames, hincoming, hmerges⟩ msg
              rw [hno] at hcall
              cases hcall
        subst hb
        change s.incomingCalls.insert _ _ n = _ at hn
        rw [PMap.insert_apply] at hn
        split at hn
        next => cases hn
        next => exact hincoming n hn
      · intro w hw
        rw [List.mem_singleton] at hw
        rw [hw]
  | firstHalf _ _ hp | secondHalf _ _ hp =>
      rw [hmerges] at hp
      cases hp
  | forwarded =>
      refine ⟨⟨hnames, hincoming, hmerges⟩, ?_⟩
      intro w hw
      rw [List.mem_singleton] at hw
      rw [hw]

/-- No client message ends the invariant, and it is written once, to the
host. -/
theorem hostOnly_client {L : Libs} {s s' : Session} {msg : Message}
    {ws : List Write}
    (hpass : isHostpass L.glob s.config s.clientExePath = true)
    (h : Downstream L s msg s' ws) (hs : s.HostOnly) :
    s'.HostOnly ∧ msg.SentToHost ws := by
  obtain ⟨hnames, hincoming, hmerges⟩ := hs
  have hhost : routeRequest L.glob s.config msg s.clientExePath
      = .ok (.single .host) := by
    unfold routeRequest
    rw [if_pos hpass]
  cases h with
  | @reply n b m hty hn hin hm =>
      have hb : b = .host := by
        cases b with
        | host => rfl
        | sandbox => exact absurd hin (hincoming n)
      subst hb
      refine ⟨⟨hnames, ?_, hmerges⟩, m, m.raw, rfl, hm, Or.inl rfl⟩
      intro k hk
      change s.incomingCalls.remove n k = _ at hk
      rw [PMap.remove_apply] at hk
      split at hk
      next => cases hk
      next => exact hincoming k hk
  | @toBus target s₁ m raw _ hroute htrack hm hraw =>
      rw [hhost] at hroute
      cases hroute
      obtain ⟨exported, rfl⟩ := track_host htrack
      exact ⟨⟨hnames, hincoming, hmerges⟩, m, raw, rfl, hm, Or.inr hraw⟩
  | toBoth _ hroute | merge _ hroute =>
      rw [hhost] at hroute
      cases hroute

theorem hostOnly_run {L : Libs} {config : Config} {exe : Option Bytes}
    {t : List (Event × List Write)} {s : Session}
    (hpass : isHostpass L.glob config exe = true)
    (hrun : Run L (Session.new config exe) t s) : s.HostOnly := by
  have hinv : s.HostOnly ∧ isHostpass L.glob s.config s.clientExePath
      = true := by
    refine hrun.invariant (I := fun s => s.HostOnly
      ∧ isHostpass L.glob s.config s.clientExePath = true)
      ⟨⟨rfl, fun _ => nofun, fun _ => rfl⟩, hpass⟩ ?_
    rintro m ev ws m' ⟨hm, hpass⟩ hstep
    rcases step_cases hstep with ⟨msg, rfl, hd⟩ | ⟨b, msg, rfl, hu⟩
    · obtain ⟨hconfig, hexe⟩ := downstream_config hd
      rw [hconfig, hexe]
      exact ⟨(hostOnly_client hpass hd hm).1, hpass⟩
    · refine ⟨(hostOnly_bus hu hm).1, ?_⟩
      cases hu <;> exact hpass
  exact hinv.1

-- ==================================================================== the loop

/-- What holds of a run of the loop that has come to `l`. -/
structure ForwardLoop.SparesSandbox (L : Libs) (l : ForwardLoop)
    (t : List ((Peer × ReadResult) × List Write)) : Prop where
  /-- no name, no call and no merge has to do with the sandbox -/
  state : l.session.HostOnly
  /-- nothing has been written to it -/
  quiet : ∀ x ∈ t, ∀ w ∈ x.2, w.peer ≠ .bus .sandbox
  /-- each message of the client has been written once, to the host -/
  sent : ∀ msg ws, ((.client, .message msg), ws) ∈ t → msg.SentToHost ws
  /-- and so will be the next that is safe -/
  sends : ∀ msg, msg.Accepted L.zvariant → l.session.Safe (.client msg) →
    ∃ ws l', l.Step L (.client, .message msg) ws l' ∧ msg.SentToHost ws
  /-- a safe message from a bus leaves the loop running -/
  takes : ∀ b msg, (b = .sandbox → l.sandboxActive = true) →
    msg.Accepted L.zvariant → l.session.Safe (.bus b msg) →
    ∃ ws l', l.Step L (.bus b, .message msg) ws l'
  /-- and so does the sandbox when it goes -/
  outlives : ∀ r, (∀ msg, r ≠ .message msg) → l.turn L (.bus .sandbox) r
    = .ok (.next { l with sandboxActive := false } [])

/-- The loop keeps what it has found out about its client. -/
theorem isHostpass_run {L : Libs} {s : Session} {l : ForwardLoop}
    {t : List ((Peer × ReadResult) × List Write)}
    (h : LoopRun L (s.forwardLoop L) t l) :
    l.isHostpass = isHostpass L.glob s.config s.clientExePath := by
  refine h.invariant (I := fun l => l.isHostpass
    = isHostpass L.glob s.config s.clientExePath) rfl ?_
  rintro l ⟨p, r⟩ ws l' hl hstep
  rcases loop_cases hstep with ⟨msg, -, -, hl'⟩ | ⟨-, -, -, rfl⟩
  · rw [hl']
    exact hl
  · exact hl

/-- What one event of a hostpass session writes. -/
theorem hostOnly_step {L : Libs} {config : Config} {exe : Option Bytes}
    {t : List (Event × List Write)} {s s' : Session} {ev : Event}
    {ws : List Write} (hpass : isHostpass L.glob config exe = true)
    (hrun : Run L (Session.new config exe) t s) (hstep : s.Step L ev ws s') :
    (∀ w ∈ ws, w.peer ≠ .bus .sandbox)
      ∧ ∀ msg, ev = .client msg → msg.SentToHost ws := by
  obtain ⟨hconfig, hexe⟩ := run_config hrun
  have hs := hostOnly_run hpass hrun
  rcases step_cases hstep with ⟨msg, rfl, hd⟩ | ⟨b, msg, rfl, hu⟩
  · have hsent := (hostOnly_client (by rw [hconfig, hexe]; exact hpass) hd
      hs).2
    refine ⟨?_, ?_⟩
    · obtain ⟨m, raw, rfl, -, -⟩ := hsent
      intro w hw
      rw [List.mem_singleton] at hw
      rw [hw]
      simp
    · intro msg' hev
      cases hev
      exact hsent
  · refine ⟨?_, fun msg' hev => nomatch hev⟩
    intro w hw
    rw [(hostOnly_bus hu hs).2 w hw]
    simp

/-- Every turn of a hostpass loop writes what its message makes the session
write. -/
theorem hostOnly_turns {L : Libs} {config : Config} {exe : Option Bytes}
    {t : List ((Peer × ReadResult) × List Write)} {l : ForwardLoop}
    (hpass : isHostpass L.glob config exe = true)
    (hrun : LoopRun L ((Session.new config exe).forwardLoop L) t l) :
    ∀ x ∈ t, (∀ w ∈ x.2, w.peer ≠ .bus .sandbox)
      ∧ ∀ msg, x.1 = (.client, .message msg) → msg.SentToHost x.2 := by
  refine hrun.history (P := fun t _ => ∀ x ∈ t,
    (∀ w ∈ x.2, w.peer ≠ .bus .sandbox)
      ∧ ∀ msg, x.1 = (.client, .message msg) → msg.SentToHost x.2)
    (fun x hx => absurd hx List.not_mem_nil) ?_
  rintro t l ⟨p, r⟩ ws l' hbefore ih hstep x hx
  rcases List.mem_append.mp hx with hx | hx
  · exact ih x hx
  · rw [List.mem_singleton] at hx
    subst hx
    rcases loop_cases hstep with ⟨msg, rfl, hs, -⟩ | ⟨hnone, -, rfl, -⟩
    · obtain ⟨hquiet, hsent⟩ := hostOnly_step hpass (session_run hbefore) hs
      refine ⟨hquiet, ?_⟩
      intro msg' heq
      cases heq
      exact hsent msg rfl
    · refine ⟨fun w hw => absurd hw List.not_mem_nil, ?_⟩
      intro msg heq
      cases heq
      cases hnone

/-- A hostpass loop spares the sandbox, whatever it reads. -/
theorem hostpass_spares_sandbox {L : Libs} {config : Config}
    {exe : Option Bytes} {t : List ((Peer × ReadResult) × List Write)}
    {l : ForwardLoop} (hz : L.zvariant.FollowsSpec)
    (hpass : isHostpass L.glob config exe = true)
    (hrun : LoopRun L ((Session.new config exe).forwardLoop L) t l) :
    l.SparesSandbox L t := by
  have hsession := session_run hrun
  have hturns := hostOnly_turns hpass hrun
  constructor
  · exact hostOnly_run hpass hsession
  · exact fun x hx => (hturns x hx).1
  · exact fun msg ws hx => (hturns _ hx).2 msg rfl
  · intro msg hacc hsafe
    obtain ⟨ws, s', hstep⟩ := client_handled hz hacc hsafe
    exact ⟨ws, _, turn_of_step nofun hstep,
      (hostOnly_step hpass hsession hstep).2 msg rfl⟩
  · intro b msg hactive hacc hsafe
    obtain ⟨ws, s', hstep⟩ :=
      bus_handled hz (mergesKept_run hsession) hacc hsafe
    refine ⟨ws, _, turn_of_step ?_ hstep⟩
    intro hb
    cases hb
    exact hactive rfl
  · intro r hr
    have hl : l.isHostpass = true := (isHostpass_run hrun).trans hpass
    cases r with
    | message msg => exact absurd rfl (hr msg)
    | disconnected | failed =>
        unfold ForwardLoop.turn
        rw [hl]
        rfl

-- ================================================================= one of each

/-- Every message a hostpass client sends is written once, to the host. -/
def HostpassDelivers : Prop :=
  ∀ (L : Libs) (config : Config) (exe : Option Bytes)
    (t : List ((Peer × ReadResult) × List Write)) (l : ForwardLoop)
    (msg : Message), L.zvariant.FollowsSpec →
    isHostpass L.glob config exe = true →
    LoopRun L ((Session.new config exe).forwardLoop L) t l →
    msg.Accepted L.zvariant →
    ∃ ws l', l.Step L (.client, .message msg) ws l' ∧ msg.SentToHost ws

/-- Patterns without wildcards. -/
def literalLibs : Libs :=
  ⟨.reference, fun pattern => some fun exe => exe == pattern⟩

/-- The host is open to one program. -/
def hostApp : Config := ⟨[], [⟨utf8 "/usr/bin/app"⟩]⟩

/-- A session of that program. -/
def hostAppSession : Session :=
  .new hostApp (some (utf8 "/usr/bin/app"))

/-- A match rule of one byte is not written. -/
theorem short_rule_lost : ¬HostpassDelivers := by
  intro h
  obtain ⟨ws, l', hstep, -⟩ := h literalLibs hostApp
    (some (utf8 "/usr/bin/app")) [] _ shortRule
    Zvariant.reference_followsSpec (by decide +kernel) .nil
    (by decide +kernel)
  have hpanic : ¬(hostAppSession.handle literalLibs
      (.client shortRule)).NoPanic := by
    decide +kernel
  rcases loop_cases hstep with ⟨msg, hmsg, hs, -⟩ | ⟨hnone, -⟩
  · cases hmsg
    have hok : hostAppSession.handle literalLibs (.client shortRule)
        = .ok (l'.session, ws) := hs.2
    rw [hok] at hpanic
    exact hpanic (Outcome.noPanic_ok _)
  · cases hnone

/-- The client asks for a name after the sandbox has gone. -/
theorem hostpass_spares_sandbox_detached :
    ∃ (l : ForwardLoop) (ws : List Write), l.sandboxActive = false
      ∧ l.SparesSandbox literalLibs
        [((.bus .sandbox, .disconnected), []),
         ((.client, .message (.daemonCall 1 "RequestName" "org.a")), ws)] := by
  have hpass : isHostpass literalLibs.glob hostApp
      (some (utf8 "/usr/bin/app")) = true := by
    decide +kernel
  have hgone : ForwardLoop.Step literalLibs
      (hostAppSession.forwardLoop literalLibs)
      (.bus .sandbox, .disconnected) []
      { hostAppSession.forwardLoop literalLibs with
        sandboxActive := false } := by
    refine ⟨fun _ => rfl, ?_, ?_⟩
    · intro msg hm
      cases hm
    · exact (hostpass_spares_sandbox Zvariant.reference_followsSpec hpass
        .nil).outlives .disconnected fun msg hm => by cases hm
  have hstep : hostAppSession.Step literalLibs
      (.client (.daemonCall 1 "RequestName" "org.a")) _ _ :=
    step_react (by decide +kernel) (by decide +kernel)
  have hcall := turn_of_step (p := .client)
    (l := { hostAppSession.forwardLoop literalLibs with
      sandboxActive := false })
    (fun hp => by cases hp) hstep
  exact ⟨_, _, rfl, hostpass_spares_sandbox Zvariant.reference_followsSpec
    hpass (.snoc (.snoc .nil hgone) hcall)⟩

end DbusRouter.Model
