/-
Which caller an answer goes to.

`incomingCalls` knows nothing of a call but its serial, and a serial is only
unique per sender. So what it holds under a serial is the bus of the last call
that came with it to a name of the client's, until the client answers that
serial (`incoming_iff_lastCaller`). A second call with the serial replaces the
entry of the first, and the first answer removes it: `replies_not_routed` is
such a run. `reply_routed` says of which runs an answer comes home.
-/
import DbusRouter.Proofs.Serials
import DbusRouter.Proofs.Services

namespace DbusRouter.Model

open Wire Lib

-- ============================================================== the situation

/-- In the run `t`, the call `c` of `u` arrived from bus `b`, was delivered in
state `m` and shown to come from `d`; in state `s`, at its end, the client
answers it with `r`. -/
structure Answering (L : Libs) (config : Config) (exe : Option Bytes)
    (t : List (Event × List Write)) (b : Bus) (c r : Message) (u d : Text)
    (m s : Session) : Prop where
  delivered : ∃ t₁ m' ws t₂, t = t₁ ++ (.bus b c, ws) :: t₂
    ∧ Run L (Session.new config exe) t₁ m
    ∧ m.Step L (.bus b c) ws m' ∧ ShownSender L.zvariant ws d
    ∧ Run L m' t₂ s
  call : c.header.msgType = .methodCall
  taken : m.Delivers c b
  sender : c.header.sender = some u
  unique : isUniqueName u = true
  answer : r.header.msgType = .methodReturn ∨ r.header.msgType = .error
  replySerial : r.header.replySerial = some c.header.serial
  destination : r.header.destination = some d

/-- Every answer is written to the bus of the call it answers, to the real
sender of the call. -/
def RepliesRouted : Prop :=
  ∀ (L : Libs) (config : Config) (exe : Option Bytes)
    (t : List (Event × List Write)) (b : Bus) (c r : Message) (u d : Text)
    (m s s' : Session) (ws : List Write),
    L.zvariant.FollowsSpec → Answering L config exe t b c r u d m s →
    s.Step L (.client r) ws s' → WrittenTo L.zvariant b u ws

-- ============================================================ the last caller

/-- The event, which comes behind the run `u`, is a call from bus `b` with the
serial `n`, to a name the client has requested there. -/
def ServiceCall (L : Libs) (config : Config) (exe : Option Bytes)
    (u : List (Event × List Write)) (n : Nat) (b : Bus) (ev : Event) : Prop :=
  ∃ c name, ev = .bus b c ∧ c.header.msgType = .methodCall
    ∧ c.header.serial = n ∧ c.header.destination = some name
    ∧ Requested L config exe u b name

/-- In the run `t`, the last such call with the serial `n` came from bus `b`,
and no METHOD_RETURN or ERROR of the client with that reply serial has
followed. -/
def LastCaller (L : Libs) (config : Config) (exe : Option Bytes)
    (t : List (Event × List Write)) (n : Nat) (b : Bus) : Prop :=
  ∃ u ev ws v, t = u ++ (ev, ws) :: v ∧ ServiceCall L config exe u n b ev
    ∧ ∀ v₁ ev' ws' v₂, v = v₁ ++ (ev', ws') :: v₂ →
      ev'.isClientAnswer n = false
        ∧ ∀ b', ¬ServiceCall L config exe (u ++ (ev, ws) :: v₁) n b' ev'

section runs

variable {L : Libs} {config : Config} {exe : Option Bytes}
  {t : List (Event × List Write)} {s : Session} {n : Nat} {b : Bus}

theorem LastCaller.nil : ¬LastCaller L config exe [] n b := by
  intro h
  obtain ⟨u, ev, ws, v, ht, -⟩ := h
  simp at ht

/-- One event more is the last call, or neither a call nor an answer. -/
theorem lastCaller_snoc {ev : Event} {ws : List Write} :
    LastCaller L config exe (t ++ [(ev, ws)]) n b
      ↔ ServiceCall L config exe t n b ev
        ∨ (ev.isClientAnswer n = false
          ∧ (∀ b', ¬ServiceCall L config exe t n b' ev)
          ∧ LastCaller L config exe t n b) := by
  constructor
  · intro h
    obtain ⟨u, ev', ws', v, ht, hcall, hsince⟩ := h
    rcases List.eq_nil_or_concat v with rfl | ⟨v, x, rfl⟩
    · obtain ⟨rfl, hlast⟩ := List.append_inj' ht rfl
      cases hlast
      exact Or.inl hcall
    · right
      rw [List.concat_eq_append, ← List.cons_append,
        ← List.append_assoc] at ht
      obtain ⟨rfl, hlast⟩ := List.append_inj' ht rfl
      cases hlast
      obtain ⟨hanswer, hno⟩ := hsince v ev ws [] (List.concat_eq_append ..)
      refine ⟨hanswer, hno, u, ev', ws', v, rfl, hcall, ?_⟩
      intro v₁ ev₁ ws₁ v₂ hv
      apply hsince v₁ ev₁ ws₁ (v₂ ++ [(ev, ws)])
      rw [hv, List.concat_eq_append, List.append_assoc, List.cons_append]
  · intro h
    rcases h with hcall | ⟨hanswer, hno, u, ev', ws', v, rfl, hcall, hsince⟩
    · refine ⟨t, ev, ws, [], rfl, hcall, ?_⟩
      intro v₁ ev₁ ws₁ v₂ hv
      simp at hv
    · refine ⟨u, ev', ws', v ++ [(ev, ws)], ?_, hcall, ?_⟩
      · rw [List.append_assoc, List.cons_append]
      intro v₁ ev₁ ws₁ v₂ hv
      rcases List.eq_nil_or_concat v₂ with rfl | ⟨v₂, x, rfl⟩
      · obtain ⟨rfl, hlast⟩ := List.append_inj' hv rfl
        cases hlast
        exact ⟨hanswer, hno⟩
      · rw [List.concat_eq_append, ← List.cons_append,
          ← List.append_assoc] at hv
        obtain ⟨rfl, -⟩ := List.append_inj' hv rfl
        exact hsince v₁ ev₁ ws₁ v₂ rfl

/-- A call from a bus is one to a name the client has requested there exactly
when the session takes it for one. -/
theorem serviceCall_iff (hrun : Run L (Session.new config exe) t s)
    {b' : Bus} {c : Message} :
    ServiceCall L config exe t n b (.bus b' c)
      ↔ b' = b ∧ c.header.serial = n
        ∧ s.isIncomingServiceCall c b = true := by
  constructor
  · intro h
    obtain ⟨c', name, hev, hty, hserial, hdest, hreq⟩ := h
    cases hev
    refine ⟨rfl, hserial, ?_⟩
    rw [isIncomingServiceCall_iff hty hdest, services_run hrun]
    exact hreq
  · intro h
    obtain ⟨rfl, hserial, hcall⟩ := h
    have hty := msgType_of_serviceCall hcall
    cases hdest : c.header.destination with
    | none =>
        unfold Session.isIncomingServiceCall at hcall
        rw [hdest, Bool.and_false] at hcall
        cases hcall
    | some name =>
        rw [isIncomingServiceCall_iff hty hdest, services_run hrun] at hcall
        exact ⟨c, name, rfl, hty, hserial, hdest, hcall⟩

/-- A client message is no call from a bus. -/
theorem not_serviceCall_client (msg : Message) :
    ¬ServiceCall L config exe t n b (.client msg) := by
  intro h
  obtain ⟨c, name, hev, -⟩ := h
  cases hev

/-- What is remembered under a serial is the bus of its last caller. -/
theorem incoming_iff_lastCaller
    (hrun : Run L (Session.new config exe) t s) :
    s.incomingCalls n = some b ↔ LastCaller L config exe t n b := by
  induction hrun with
  | nil => exact iff_of_false (fun h => by cases h) LastCaller.nil
  | @snoc t m ev ws s hrun hstep ih =>
      rw [lastCaller_snoc, ← ih]
      rcases step_cases hstep with ⟨msg, rfl, hd⟩ | ⟨b', msg, rfl, hu⟩
      · -- the client answers the serial, or nothing changes under it
        rw [downstream_incoming_apply hd]
        cases hanswer : (Event.client msg).isClientAnswer n with
        | true => simp [not_serviceCall_client]
        | false => simp [not_serviceCall_client]
      · simp only [serviceCall_iff hrun]
        rcases upstream_incoming hu with ⟨hcall, hentries⟩ | ⟨hno, hentries⟩
        · rw [hentries, PMap.insert_apply]
          by_cases hn : n = msg.header.serial
          · rw [if_pos hn, Option.some.injEq]
            constructor
            · intro hb
              subst hb
              exact Or.inl ⟨rfl, hn.symm, hcall⟩
            · intro h
              rcases h with ⟨hb, -⟩ | ⟨-, hno, -⟩
              · exact hb
              · exact absurd ⟨rfl, hn.symm, hcall⟩ (hno b')
          · rw [if_neg hn]
            simp [Ne.symm hn, Event.isClientAnswer]
        · rw [hentries]
          have hnone : ∀ b'', ¬(b' = b'' ∧ msg.header.serial = n
              ∧ m.isIncomingServiceCall msg b'' = true) := by
            intro b'' h
            obtain ⟨rfl, -, hcall⟩ := h
            rw [hno] at hcall
            cases hcall
          simp only [hnone, false_or, not_false_eq_true, implies_true,
            true_and, Event.isClientAnswer]

end runs

-- ============================================================== the condition

/-- What brings the answer `r` home. -/
structure ReplyCondition (L : Libs) (config : Config) (exe : Option Bytes)
    (t : List (Event × List Write)) (b : Bus) (c r : Message) (u d : Text)
    (m s : Session) : Prop where
  /-- a call with the answer's serial that came last to a name of the client's,
  and that the client has not answered, came from the bus of the call -/
  caller : ∀ b', LastCaller L config exe t c.header.serial b' → b' = b
  /-- without one, the shown name leads to that bus -/
  shown : (∀ b', ¬LastCaller L config exe t c.header.serial b') →
    s.fallbackBus L d = b
  /-- the prefix got into the call's header, where one was put in -/
  callHeader : (m.isIncomingServiceCall c b = true ∧ b = .host)
    ∨ (c.Readable 7 ∧ c.HasRoom)
  /-- the prefix can be taken out of the answer's header, if it has one -/
  replyHeader : getBusFromFakeName d ≠ none → r.Readable 6
  /-- a name shown as it is does not look prefixed -/
  name : d = u → getBusFromFakeName u = none

-- ================================================================ the answer

section answer

variable {L : Libs} {config : Config} {exe : Option Bytes}
  {t : List (Event × List Write)} {b : Bus} {c r : Message} {u d : Text}
  {m s s' : Session} {ws : List Write}

/-- The run up to the answer. -/
theorem Answering.run (ha : Answering L config exe t b c r u d m s) :
    Run L (Session.new config exe) t s := by
  obtain ⟨t₁, m', ws, t₂, rfl, hbefore, hdeliver, -, hafter⟩ := ha.delivered
  exact hbefore.append ((Steps.single hdeliver).append hafter)

/-- What is remembered under the serial, or the fallback for want of it, is the
bus of the call. -/
theorem ReplyCondition.entry
    (hc : ReplyCondition L config exe t b c r u d m s)
    (hrun : Run L (Session.new config exe) t s) :
    (∀ b', s.incomingCalls c.header.serial = some b' → b' = b)
      ∧ (s.incomingCalls c.header.serial = none → s.fallbackBus L d = b) := by
  constructor
  · intro b' h
    apply hc.caller
    rw [← incoming_iff_lastCaller hrun]
    exact h
  · intro h
    apply hc.shown
    intro b' hlast
    rw [← incoming_iff_lastCaller hrun, h] at hlast
    cases hlast

/-- A call is shown under its sender's name or that name with the prefix. -/
theorem Answering.shown (hz : L.zvariant.FollowsSpec)
    (ha : Answering L config exe t b c r u d m s)
    (hheader : (m.isIncomingServiceCall c b = true ∧ b = .host)
      ∨ (c.Readable 7 ∧ c.HasRoom)) : d = u ∨ d = toFakeName u b := by
  obtain ⟨t₁, m', ws, t₂, -, -, hdeliver, hshown, -⟩ := ha.delivered
  exact shown_cases hz hdeliver ha.call ha.taken ha.sender ha.unique hheader
    hshown

/-- The name a caller is shown under is a unique name. -/
theorem Answering.shown_unique (hz : L.zvariant.FollowsSpec)
    (ha : Answering L config exe t b c r u d m s)
    (hheader : (m.isIncomingServiceCall c b = true ∧ b = .host)
      ∨ (c.Readable 7 ∧ c.HasRoom)) : isUniqueName d = true := by
  rcases ha.shown hz hheader with rfl | rfl
  · exact ha.unique
  · exact isUniqueName_toFakeName ha.unique b

/-- An answer that is handled comes home when the last caller under its serial,
or for want of one its destination, leads to the bus of the call. -/
theorem answer_written (hz : L.zvariant.FollowsSpec)
    (ha : Answering L config exe t b c r u d m s)
    (hstep : s.Step L (.client r) ws s')
    (hc : ReplyCondition L config exe t b c r u d m s) :
    WrittenTo L.zvariant b u ws := by
  have hd := ha.shown hz hc.callHeader
  have hdu := ha.shown_unique hz hc.callHeader
  obtain ⟨hacc, hok⟩ := hstep
  have hacc : r.Accepted L.zvariant := hacc
  obtain ⟨hsome, hnone⟩ := hc.entry ha.run
  have hroute := routeRequest_unique (L := L) (s := s) ha.destination hdu
  cases downstream_of_ok hok with
  | @reply n b' mb hty hn hin hm =>
      rw [ha.replySerial] at hn
      cases hn
      obtain rfl := hsome b' hin
      obtain ⟨hread, hdest⟩ := unshown hz hacc ha.destination ha.unique hd
        hc.name hc.replyHeader hm
      exact ⟨mb.raw, r.fds, mb.header, rfl, hread, hdest⟩
  | @toBus target s₁ mb raw hno hrt htrack hm hraw =>
      have hentry : s.incomingCalls c.header.serial = none := by
        by_contra hin
        refine hno ⟨ha.answer, _, ha.replySerial, ?_⟩
        exact Option.isSome_iff_ne_none.mpr hin
      rw [hroute] at hrt
      cases hrt
      obtain ⟨hread, hdest⟩ := unshown hz hacc ha.destination ha.unique hd
        hc.name hc.replyHeader hm
      have hne : mb.header.destination ≠ some busName := by
        rw [hdest]
        intro h
        exact ne_busName ha.unique (Option.some.inj h)
      rw [rewriteRequestBody_of_ne hne] at hraw
      cases hraw
      rw [hnone hentry]
      exact ⟨mb.raw, r.fds, mb.header, rfl, hread, hdest⟩
  | toBoth _ hrt =>
      rw [hroute] at hrt
      cases hrt
  | merge _ hrt =>
      rw [hroute] at hrt
      cases hrt

/-- An answer is handled, and comes home when the last caller under its serial,
or for want of one its destination, leads to the bus of the call. -/
theorem reply_routed (hz : L.zvariant.FollowsSpec)
    (ha : Answering L config exe t b c r u d m s)
    (hacc : r.Accepted L.zvariant)
    (hc : ReplyCondition L config exe t b c r u d m s) :
    ∃ ws s', s.Step L (.client r) ws s' ∧ WrittenTo L.zvariant b u ws := by
  obtain ⟨ws, s', hstep⟩ := handled_unique (s := s) hz hacc ha.destination
    (ha.shown_unique hz hc.callHeader) hc.replyHeader
  exact ⟨ws, s', hstep, answer_written hz ha hstep hc⟩

end answer

-- ============================================================ two callers

/-- The client's answer, after whatever else arrived. -/
theorem answering_host (evs : List Event)
    (halive : ((registered.react referenceLibs (.bus .host hostCall)).1
      ).survives referenceLibs evs = true)
    (hacc : ∀ ev ∈ evs, ev.msg.Accepted referenceLibs.zvariant) :
    ∃ t, Answering referenceLibs twoNames none t .host hostCall hostAnswer
      (utf8 ":1.5") (utf8 ":1.5") registered
      ((registered.react referenceLibs (.bus .host hostCall)).1.after
        referenceLibs evs) := by
  obtain ⟨t₁, hbefore⟩ := registered_run
  obtain ⟨t₂, hafter⟩ := run_after halive hacc
  refine ⟨_, ⟨t₁, _, _, t₂, rfl, hbefore, step_react ?_ ?_, ?_, hafter⟩, rfl,
    Or.inl ?_, rfl, rfl, Or.inl rfl, rfl, rfl⟩
  · decide +kernel
  · decide +kernel
  · refine ⟨hostCall.raw, [], hostCall.header, ?_, ?_, ?_⟩
    all_goals decide +kernel
  · decide +kernel

/-- With two calls of one serial outstanding, the answer to the host peer
is written to the sandbox bus. -/
theorem replies_not_routed : ¬RepliesRouted := by
  intro h
  have hacc : ∀ ev ∈ [Event.bus .sandbox sandboxCall],
      ev.msg.Accepted referenceLibs.zvariant := by
    decide +kernel
  obtain ⟨t, ha⟩ :=
    answering_host [.bus .sandbox sandboxCall] (by decide +kernel) hacc
  obtain ⟨raw, fds, header, hws, -⟩ := h _ _ _ _ _ _ _ _ _ _ _ _ _
    Zvariant.reference_followsSpec ha
    (step_react (by decide +kernel) (by decide +kernel))
  have hpeer : _ = [Peer.bus .host] := congrArg (List.map Write.peer) hws
  revert hpeer
  decide +kernel

/-- With the host's call alone, the answer comes home. -/
theorem reply_routed_host :
    ∃ ws s', ((registered.react referenceLibs (.bus .host hostCall)).1.after
        referenceLibs []).Step referenceLibs (.client hostAnswer) ws s'
      ∧ WrittenTo .reference .host (utf8 ":1.5") ws := by
  obtain ⟨t, ha⟩ := answering_host [] rfl (by simp)
  have hentry : ((registered.react referenceLibs (.bus .host hostCall)).1.after
      referenceLibs []).incomingCalls hostCall.header.serial
        = some .host := by
    decide +kernel
  refine reply_routed (L := referenceLibs) Zvariant.reference_followsSpec ha
    (by decide +kernel) ⟨?_, ?_, Or.inl ⟨?_, rfl⟩, ?_, ?_⟩
  · intro b' hlast
    rw [← incoming_iff_lastCaller ha.run, hentry] at hlast
    cases hlast
    rfl
  · intro hnone
    rw [incoming_iff_lastCaller ha.run] at hentry
    exact absurd hentry (hnone .host)
  · decide +kernel
  · intro hne
    exact absurd rfl hne
  · intro _
    rfl

end DbusRouter.Model
