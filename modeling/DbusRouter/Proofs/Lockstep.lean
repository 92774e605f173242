/-
Authentication of peers that wait for each other.

`line_lost` and `ends_early` need a side that does not wait: a bus that speaks
before it is spoken to, or a client that sends its BEGIN before it is answered.
A `Handshake` is what is sent by a client that waits for each answer before its
next command, and by a bus that gives one answer to each command. Whatever
arrives in whatever pieces, and with messages right behind the last line of
either side, the authentication of such peers drops nothing, does not fail,
does not wait for ever, and ends behind the last answer and the BEGIN
(`lockstep_completes`).

The invariant is `Stage`: the peers take turns, so there is a part of a line on
one side at most, and the count of answers to wait for is that of one command.
-/
import DbusRouter.Lib.Simulation
import DbusRouter.Proofs.Auth

namespace DbusRouter.Model

open Wire Lib

-- ================================================================ the handshake

/-- What the two peers send: commands up to a BEGIN, an answer to each command
in front of it, and then messages. -/
structure Handshake where
  /-- the commands in front of the last -/
  front : List Bytes
  last : Bytes
  answers : List Bytes
  /-- what the client sends behind its last command -/
  clientRest : Bytes
  /-- what the bus sends behind its last answer -/
  busRest : Bytes
  commands_lines : ∀ line ∈ front ++ [last],
    IsLine line ∧ line.length ≤ authBufferSize
  answers_lines : ∀ line ∈ answers,
    IsLine line ∧ line.length ≤ authBufferSize
  front_begin : ∀ line ∈ front, isBeginLine line = false
  last_begin : isBeginLine last = true
  answered : List.Forall₂
    (fun command answer =>
      isNegotiateUnixFd command = true → isResponse answer = true)
    front answers

namespace Handshake

def commands (h : Handshake) : List Bytes := h.front ++ [h.last]

/-- What the client has sent when it has got `n` answers. -/
def clientSent (h : Handshake) (n : Nat) : Bytes :=
  0 :: ((h.commands.take (n + 1)).flatten
    ++ if h.front.length ≤ n then h.clientRest else [])

/-- What the bus has sent when it has got `n` commands. -/
def busSent (h : Handshake) (n : Nat) : Bytes :=
  (h.answers.take n).flatten
    ++ if h.front.length < n then h.busRest else []

/-- The next byte that is read may be this one: it has been sent. -/
def Offers (h : Handshake) (t : AuthTrace) : AuthEvent → Prop
  | .client (some c) =>
      readFromClient t ++ [c] <+: h.clientSent (writesToClient t).length
  | .bus (some c) =>
      readFromBus t ++ [c] <+: h.busSent ((writesToBus t).length - 1)
  | _ => False

/-- Nothing was read before it was sent. -/
def Attended (h : Handshake) (t : AuthTrace) : Prop :=
  ∀ u ev ws v, t = u ++ (ev, ws) :: v → h.Offers u ev

instance (h : Handshake) (t : AuthTrace) (ev : AuthEvent) :
    Decidable (h.Offers t ev) :=
  match ev with
  | .client (some _) => inferInstanceAs (Decidable (_ <+: _))
  | .client none => inferInstanceAs (Decidable False)
  | .bus (some _) => inferInstanceAs (Decidable (_ <+: _))
  | .bus none => inferInstanceAs (Decidable False)

theorem Attended.nil {h : Handshake} : h.Attended [] := by
  intro u ev ws v ht
  simp at ht

theorem Attended.snoc {h : Handshake} {t : AuthTrace} {ev : AuthEvent}
    {ws : List AuthWrite} (ha : h.Attended (t ++ [(ev, ws)])) :
    h.Attended t ∧ h.Offers t ev := by
  refine ⟨?_, ha t ev ws [] rfl⟩
  intro u ev' ws' v ht
  apply ha u ev' ws' (v ++ [(ev, ws)])
  rw [ht, List.append_assoc, List.cons_append]

theorem answers_length (h : Handshake) : h.answers.length = h.front.length :=
  h.answered.length_eq.symm

/-- The command that comes next is the last, or one that is answered next. -/
theorem next_command (h : Handshake) {asked rest : List Bytes} {line : Bytes}
    (hsplit : h.commands = asked ++ line :: rest) :
    (asked = h.front ∧ line = h.last)
      ∨ ∃ behind, h.front = asked ++ line :: behind := by
  unfold commands at hsplit
  rcases List.append_eq_append_iff.mp hsplit with
    ⟨x, hasked, hlast⟩ | ⟨x, hfront, hline⟩
  · left
    cases x with
    | nil =>
        simp only [List.nil_append, List.cons.injEq] at hlast
        exact ⟨by simpa using hasked, hlast.1.symm⟩
    | cons y ys => simp at hlast
  · cases x with
    | nil =>
        left
        simp only [List.nil_append, List.cons.injEq] at hline
        exact ⟨by simpa using hfront.symm, hline.1⟩
    | cons y ys =>
        right
        simp only [List.cons_append, List.cons.injEq] at hline
        exact ⟨ys, by rw [hfront, hline.1]⟩

end Handshake

-- ==================================================================== one byte

section bytes

variable {l : AuthLoop} {c : UInt8}

/-- A byte inside a line of the client's is read. -/
theorem step_clientByte (hbegin : l.beginReceived = false)
    (hends : endsLine (l.clientResult ++ [c]) = false)
    (hroom : (l.clientResult ++ [c]).length < authBufferSize) :
    AuthState.Step (.loop l) (.client (some c)) []
      (.loop { l with clientResult := l.clientResult ++ [c] }) := by
  refine ⟨by simp [AuthState.reads, hbegin], ?_⟩
  have hread : readAuthLine l.clientResult (some c)
      = .ok (.more (l.clientResult ++ [c])) := by
    simp only [readAuthLine, hends, if_neg (Nat.not_le.mpr hroom)]
    rfl
  simp only [AuthState.authPassthrough, hread, Outcome.ok_bind]

/-- A line of the client's is read to its end and forwarded. -/
theorem step_clientLine (hbegin : l.beginReceived = false)
    (hends : endsLine (l.clientResult ++ [c]) = true)
    (hcount : l.pendingResponses + 1 < 2 ^ 32) :
    AuthState.Step (.loop l) (.client (some c))
      [.toBus (l.clientResult ++ [c])]
      (.next (if isNegotiateUnixFd (l.clientResult ++ [c])
          then l.pendingResponses + 1 else l.pendingResponses)
        (isBeginLine (l.clientResult ++ [c]))) := by
  refine ⟨by simp [AuthState.reads, hbegin], ?_⟩
  have hread : readAuthLine l.clientResult (some c)
      = .ok (.line (l.clientResult ++ [c])) := by
    simp only [readAuthLine, hends]
    rfl
  have hne : ¬(isNegotiateUnixFd (l.clientResult ++ [c])
      && l.pendingResponses + 1 == 2 ^ 32) = true := by
    simp only [Bool.and_eq_true, beq_iff_eq]
    omega
  have hfull : ¬(l.clientResult ++ [c]).isEmpty = true := by simp
  simp only [AuthState.authPassthrough, hread, Outcome.ok_bind,
    AuthLoop.onClientLine, if_neg hne, if_neg hfull, hbegin]
  cases isBeginLine (l.clientResult ++ [c]) <;> rfl

/-- A byte inside a line of the bus's is read. -/
theorem step_busByte (hends : endsLine (l.busResult ++ [c]) = false)
    (hroom : (l.busResult ++ [c]).length < authBufferSize) :
    AuthState.Step (.loop l) (.bus (some c)) []
      (.loop { l with busResult := l.busResult ++ [c] }) := by
  refine ⟨rfl, ?_⟩
  have hread : readAuthLine l.busResult (some c)
      = .ok (.more (l.busResult ++ [c])) := by
    simp only [readAuthLine, hends, if_neg (Nat.not_le.mpr hroom)]
    rfl
  simp only [AuthState.authPassthrough, hread, Outcome.ok_bind]

/-- A line of the bus's is read to its end and forwarded. -/
theorem step_busLine (hends : endsLine (l.busResult ++ [c]) = true) :
    AuthState.Step (.loop l) (.bus (some c)) [.toClient (l.busResult ++ [c])]
      (.next (if isResponse (l.busResult ++ [c]) then l.pendingResponses - 1
        else l.pendingResponses) l.beginReceived) := by
  refine ⟨rfl, ?_⟩
  have hread : readAuthLine l.busResult (some c)
      = .ok (.line (l.busResult ++ [c])) := by
    simp only [readAuthLine, hends]
    rfl
  have hfull : ¬(l.busResult ++ [c]).isEmpty = true := by simp
  simp only [AuthState.authPassthrough, hread, Outcome.ok_bind,
    AuthLoop.onBusLine, if_neg hfull]
  rfl

/-- A byte of the client's drops nothing of the bus's if there is nothing. -/
theorem keeps_client (hnone : l.busResult = []) :
    (AuthState.loop l).KeepsResults (.client (some c)) := by
  refine ⟨?_, fun _ => hnone⟩
  intro hends
  cases hends

/-- And the other way round. -/
theorem keeps_bus (hnone : l.clientResult = []) :
    (AuthState.loop l).KeepsResults (.bus (some c)) := by
  refine ⟨fun _ => hnone, ?_⟩
  intro hends
  cases hends

end bytes

-- ================================================================== the stages

/-- How far a handshake has got: the null byte is still to come, the client is
asking, or the bus is answering, or it is over. -/
inductive Stage (h : Handshake) : AuthTrace → AuthState → Prop
  | start : Stage h [] .start
  | asking {t : AuthTrace} {asked rest answered later : List Bytes}
      {line part : Bytes} (hcommands : h.commands = asked ++ line :: rest)
      (hanswers : h.answers = answered ++ later)
      (hlength : answered.length = asked.length)
      (hbus : writesToBus t = [0] :: asked)
      (hclient : writesToClient t = answered) (hpart : part <+: line)
      (hmore : part ≠ line) : Stage h t (.loop ⟨part, [], 0, false⟩)
  | answering {t : AuthTrace} {asked rest answered later : List Bytes}
      {command line part : Bytes} (hfront : h.front = asked ++ command :: rest)
      (hanswers : h.answers = answered ++ line :: later)
      (hlength : answered.length = asked.length)
      (hresponse : isNegotiateUnixFd command = true → isResponse line = true)
      (hbus : writesToBus t = [0] :: (asked ++ [command]))
      (hclient : writesToClient t = answered) (hpart : part <+: line)
      (hmore : part ≠ line) : Stage h t
        (.loop ⟨[], part, if isNegotiateUnixFd command then 1 else 0, false⟩)
  | done {t : AuthTrace} (hbus : writesToBus t = [0] :: h.commands)
      (hclient : writesToClient t = h.answers) : Stage h t .done

section stages

variable {h : Handshake} {t : AuthTrace} {s : AuthState} {ev : AuthEvent}
  {ws : List AuthWrite}

/-- When the client is asking, what it has sent ends with the line. -/
theorem clientSent_asking {asked rest : List Bytes} {line : Bytes} {n : Nat}
    (hcommands : h.commands = asked ++ line :: rest) (hn : n = asked.length) :
    ∃ tail, h.clientSent n = 0 :: asked.flatten ++ (line ++ tail) := by
  have htake : h.commands.take (n + 1) = asked ++ [line] := by
    rw [hcommands, hn, List.take_append]
    simp
  refine ⟨if h.front.length ≤ n then h.clientRest else [], ?_⟩
  unfold Handshake.clientSent
  rw [htake]
  simp

/-- When the bus is answering, the client has sent the command and no more. -/
theorem clientSent_answering {asked rest : List Bytes} {command : Bytes}
    {n : Nat} (hfront : h.front = asked ++ command :: rest)
    (hn : n = asked.length) :
    h.clientSent n = 0 :: (asked ++ [command]).flatten := by
  have htake : h.commands.take (n + 1) = asked ++ [command] := by
    unfold Handshake.commands
    rw [hfront, hn, List.append_assoc, List.take_append]
    simp
  have hwaits : ¬h.front.length ≤ n := by
    rw [hfront, hn]
    simp
  unfold Handshake.clientSent
  rw [htake, if_neg hwaits, List.append_nil]

/-- When the bus is answering, what it has sent ends with the line. -/
theorem busSent_answering {asked rest answered later : List Bytes}
    {command line : Bytes} {n : Nat}
    (hfront : h.front = asked ++ command :: rest)
    (hanswers : h.answers = answered ++ line :: later)
    (hlength : answered.length = asked.length) (hn : n = asked.length + 1) :
    h.busSent n = answered.flatten ++ line := by
  have htake : h.answers.take n = answered ++ [line] := by
    rw [hanswers, hn, ← hlength, List.take_append]
    simp
  have hwaits : ¬h.front.length < n := by
    rw [hfront, hn]
    simp
  unfold Handshake.busSent
  rw [htake, if_neg hwaits]
  simp

/-- When the client is asking, the bus has sent its answers and no more. -/
theorem busSent_asking {asked rest answered later : List Bytes} {line : Bytes}
    {n : Nat} (hcommands : h.commands = asked ++ line :: rest)
    (hanswers : h.answers = answered ++ later)
    (hlength : answered.length = asked.length) (hn : n = asked.length) :
    h.busSent n = answered.flatten := by
  have htake : h.answers.take n = answered := by
    rw [hanswers, hn, ← hlength, List.take_left]
  have hwaits : ¬h.front.length < n := by
    have hlen := congrArg List.length hcommands
    simp only [Handshake.commands, List.length_append, List.length_cons,
      List.length_nil] at hlen
    omega
  unfold Handshake.busSent
  rw [htake, if_neg hwaits, List.append_nil]

/-- Between an answer and the next command the client is asking. -/
theorem Stage.ready {asked left answered later : List Bytes}
    (hcommands : h.commands = asked ++ left) (hleft : left ≠ [])
    (hanswers : h.answers = answered ++ later)
    (hlength : answered.length = asked.length)
    (hbus : writesToBus t = [0] :: asked)
    (hclient : writesToClient t = answered) :
    Stage h t (.loop ⟨[], [], 0, false⟩) := by
  cases left with
  | nil => exact absurd rfl hleft
  | cons line rest =>
      have hline : line ∈ h.commands := by
        rw [hcommands]
        simp
      exact .asking hcommands hanswers hlength hbus hclient
        (List.nil_prefix ..) (h.commands_lines line hline).1.ne_nil.symm

/-- When a command has been forwarded the bus is answering, or it was the
last. -/
theorem Stage.asked {asked rest answered later : List Bytes} {line : Bytes}
    (hcommands : h.commands = asked ++ line :: rest)
    (hanswers : h.answers = answered ++ later)
    (hlength : answered.length = asked.length)
    (hbus : writesToBus t = [0] :: (asked ++ [line]))
    (hclient : writesToClient t = answered) :
    Stage h t (.next (if isNegotiateUnixFd line then 1 else 0)
      (isBeginLine line)) := by
  rcases h.next_command hcommands with ⟨rfl, rfl⟩ | ⟨behind, hfront⟩
  · rw [not_negotiate_of_begin h.last_begin, h.last_begin]
    have hall : answered = h.answers := by
      have hlen := congrArg List.length hanswers
      rw [List.length_append, h.answers_length, hlength] at hlen
      have hnone : later = [] := List.length_eq_zero_iff.mp (by omega)
      rw [hanswers, hnone, List.append_nil]
    exact .done hbus (hclient.trans hall)
  · have hmem : line ∈ h.front := by
      rw [hfront]
      simp
    rw [h.front_begin line hmem]
    have hpairs := h.answered
    rw [hfront] at hpairs
    obtain ⟨answered', a, later', hanswers', hbefore, hresponse, -⟩ :=
      answers_at hpairs
    have hsame := List.append_inj (hanswers.symm.trans hanswers')
      (hlength.trans hbefore.length_eq)
    have ha : a ∈ h.answers := by
      rw [hanswers']
      simp
    rw [hsame.2] at hanswers
    exact .answering hfront hanswers hlength hresponse hbus hclient
      (List.nil_prefix ..) (h.answers_lines a ha).1.ne_nil.symm

/-- A byte of the client's while it is asking. -/
theorem stage_ask {asked rest answered later : List Bytes} {line part : Bytes}
    {c : UInt8} (hcommands : h.commands = asked ++ line :: rest)
    (hanswers : h.answers = answered ++ later)
    (hlength : answered.length = asked.length)
    (hbus : writesToBus t = [0] :: asked)
    (hclient : writesToClient t = answered) (hnext : part ++ [c] <+: line) :
    ∃ ws s', AuthState.Step (.loop ⟨part, [], 0, false⟩)
        (.client (some c)) ws s'
      ∧ Stage h (t ++ [(.client (some c), ws)]) s' := by
  have hmem : line ∈ h.commands := by
    rw [hcommands]
    simp
  obtain ⟨hline, hroom⟩ := h.commands_lines line hmem
  by_cases hends : endsLine (part ++ [c]) = true
  · have hwhole : part ++ [c] = line := (hline.ends_iff hnext).mp hends
    have hstep := step_clientLine (l := ⟨part, [], 0, false⟩) rfl hends
      (show 0 + 1 < 2 ^ 32 by decide)
    refine ⟨_, _, hstep, ?_⟩
    simp only [hwhole]
    apply Stage.asked hcommands hanswers hlength
    · simp [hbus, AuthWrite.forBus]
    · simp [hclient, AuthWrite.forClient]
  · have hmore : part ++ [c] ≠ line := by
      intro heq
      exact hends ((hline.ends_iff hnext).mpr heq)
    have hshort : (part ++ [c]).length < authBufferSize := by
      by_contra hlong
      exact hmore (hnext.eq_of_length_le (by omega))
    have hstep := step_clientByte (l := ⟨part, [], 0, false⟩) rfl
      (Bool.eq_false_iff.mpr hends) hshort
    refine ⟨_, _, hstep, ?_⟩
    exact .asking hcommands hanswers hlength (by simp [hbus])
      (by simp [hclient]) hnext hmore

/-- A byte of the bus's while it is answering. -/
theorem stage_answer {asked rest answered later : List Bytes}
    {command line part : Bytes} {c : UInt8}
    (hfront : h.front = asked ++ command :: rest)
    (hanswers : h.answers = answered ++ line :: later)
    (hlength : answered.length = asked.length)
    (hresponse : isNegotiateUnixFd command = true → isResponse line = true)
    (hbus : writesToBus t = [0] :: (asked ++ [command]))
    (hclient : writesToClient t = answered) (hnext : part ++ [c] <+: line) :
    ∃ ws s', AuthState.Step
        (.loop ⟨[], part, if isNegotiateUnixFd command then 1 else 0, false⟩)
        (.bus (some c)) ws s'
      ∧ Stage h (t ++ [(.bus (some c), ws)]) s' := by
  have hmem : line ∈ h.answers := by
    rw [hanswers]
    simp
  obtain ⟨hline, hroom⟩ := h.answers_lines line hmem
  by_cases hends : endsLine (part ++ [c]) = true
  · have hwhole : part ++ [c] = line := (hline.ends_iff hnext).mp hends
    have hstep := step_busLine (c := c) (l := ⟨[], part,
      if isNegotiateUnixFd command then 1 else 0, false⟩) hends
    refine ⟨_, _, hstep, ?_⟩
    have hsettled : (if isResponse line then
        (if isNegotiateUnixFd command then 1 else 0) - 1
        else if isNegotiateUnixFd command then 1 else 0) = 0 := by
      cases hneg : isNegotiateUnixFd command with
      | false => simp
      | true => simp [hresponse hneg]
    simp only [hwhole, hsettled]
    have hcommands : h.commands
        = (asked ++ [command]) ++ (rest ++ [h.last]) := by
      simp [Handshake.commands, hfront]
    have htold : h.answers = (answered ++ [line]) ++ later := by
      rw [hanswers, List.append_assoc, List.singleton_append]
    apply Stage.ready hcommands (by simp) htold
    · simp [hlength]
    · simp [hbus, AuthWrite.forBus]
    · simp [hclient, AuthWrite.forClient]
  · have hmore : part ++ [c] ≠ line := by
      intro heq
      exact hends ((hline.ends_iff hnext).mpr heq)
    have hshort : (part ++ [c]).length < authBufferSize := by
      by_contra hlong
      exact hmore (hnext.eq_of_length_le (by omega))
    have hstep := step_busByte (c := c) (l := ⟨[], part,
      if isNegotiateUnixFd command then 1 else 0, false⟩)
      (Bool.eq_false_iff.mpr hends) hshort
    refine ⟨_, _, hstep, ?_⟩
    exact .answering hfront hanswers hlength hresponse (by simp [hbus])
      (by simp [hclient]) hnext hmore

/-- A byte that has been sent is read without an error and without dropping
anything, and leads to a stage. -/
theorem stage_step
    (hkept : Steps (Meeting AuthState.Step AuthState.KeepsResults) .start t s)
    (hstage : Stage h t s) (hoffers : h.Offers t ev)
    (hreads : s.reads ev = true) :
    ∃ ws s', Meeting AuthState.Step AuthState.KeepsResults s ev ws s'
      ∧ Stage h (t ++ [(ev, ws)]) s' := by
  have hc := client_bytes_kept (hkept.meeting_mono fun _ _ h => h.1)
  have hb := bus_bytes_kept (hkept.meeting_mono fun _ _ h => h.2)
  cases hstage with
  | start =>
      cases ev with
      | bus => cases hreads
      | client byte =>
          cases byte with
          | none => exact hoffers.elim
          | some c =>
              have hzero : c = 0 := by
                obtain ⟨rest, hrest⟩ := hoffers
                exact (List.cons.inj hrest).1
              subst hzero
              refine ⟨[.toBus [0]], _, ⟨⟨fun _ => rfl, fun _ => rfl⟩, rfl, rfl⟩,
                ?_⟩
              exact Stage.ready (List.nil_append _).symm
                (by simp [Handshake.commands]) (List.nil_append _).symm rfl
                rfl rfl
  | @asking _ asked rest answered later line part hcommands hanswers hlength
      hbus hclient hpart hmore =>
      cases ev with
      | client byte =>
          cases byte with
          | none => exact hoffers.elim
          | some c =>
              obtain ⟨tail, hsent⟩ :=
                clientSent_asking hcommands (n := answered.length) hlength
              have hnext : part ++ [c] <+: line ++ tail := by
                have hprefix : readFromClient t ++ [c]
                    <+: h.clientSent (writesToClient t).length := hoffers
                rw [hc, hbus, hclient, hsent] at hprefix
                simpa using hprefix
              obtain ⟨ws, s', hstep, hnew⟩ := stage_ask hcommands hanswers
                hlength hbus hclient (concat_isPrefix hpart hmore hnext)
              exact ⟨ws, s', ⟨keeps_client rfl, hstep⟩, hnew⟩
      | bus byte =>
          cases byte with
          | none => exact hoffers.elim
          | some c =>
              have hprefix : readFromBus t ++ [c]
                  <+: h.busSent ((writesToBus t).length - 1) := hoffers
              rw [hb, hbus, hclient, busSent_asking hcommands hanswers hlength
                (by simp)] at hprefix
              have hlen := hprefix.length_le
              simp at hlen
  | @answering _ asked rest answered later command line part hfront hanswers
      hlength hresponse hbus hclient hpart hmore =>
      cases ev with
      | client byte =>
          cases byte with
          | none => exact hoffers.elim
          | some c =>
              have hprefix : readFromClient t ++ [c]
                  <+: h.clientSent (writesToClient t).length := hoffers
              rw [hc, hbus, hclient, clientSent_answering hfront hlength]
                at hprefix
              have hlen := hprefix.length_le
              simp at hlen
      | bus byte =>
          cases byte with
          | none => exact hoffers.elim
          | some c =>
              have hprefix : readFromBus t ++ [c]
                  <+: h.busSent ((writesToBus t).length - 1) := hoffers
              rw [hb, hbus, hclient, busSent_answering hfront hanswers hlength
                (by simp)] at hprefix
              have hnext : part ++ [c] <+: line := by simpa using hprefix
              obtain ⟨ws, s', hstep, hnew⟩ := stage_answer hfront hanswers
                hlength hresponse hbus hclient hnext
              exact ⟨ws, s', ⟨keeps_bus rfl, hstep⟩, hnew⟩
  | done => cases ev <;> cases hreads

/-- In each stage but the last, a byte has been sent that is read next. -/
theorem stage_offers
    (hkept : Steps (Meeting AuthState.Step AuthState.KeepsResults) .start t s)
    (hstage : Stage h t s) (hgoes : s ≠ .done) :
    ∃ ev, h.Offers t ev ∧ s.reads ev = true := by
  have hc := client_bytes_kept (hkept.meeting_mono fun _ _ h => h.1)
  have hb := bus_bytes_kept (hkept.meeting_mono fun _ _ h => h.2)
  cases hstage with
  | start => exact ⟨.client (some 0), ⟨_, rfl⟩, rfl⟩
  | @asking _ asked rest answered later line part hcommands hanswers hlength
      hbus hclient hpart hmore =>
      obtain ⟨tail, hsent⟩ :=
        clientSent_asking hcommands (n := answered.length) hlength
      obtain ⟨c, behind, hline⟩ := exists_next hpart hmore
      refine ⟨.client (some c), ?_, rfl⟩
      show readFromClient t ++ [c] <+: h.clientSent (writesToClient t).length
      rw [hc, hbus, hclient, hsent, hline]
      exact ⟨behind ++ tail, by simp⟩
  | @answering _ asked rest answered later command line part hfront hanswers
      hlength hresponse hbus hclient hpart hmore =>
      obtain ⟨c, behind, hline⟩ := exists_next hpart hmore
      refine ⟨.bus (some c), ?_, rfl⟩
      show readFromBus t ++ [c] <+: h.busSent ((writesToBus t).length - 1)
      rw [hb, hbus, hclient, busSent_answering hfront hanswers hlength
        (by simp), hline]
      exact ⟨behind, by simp⟩
  | done => exact absurd rfl hgoes

/-- What is forwarded in a stage, and the part of a line behind it, are of the
lines. -/
theorem stage_bytes (hstage : Stage h t s) :
    (writesToBus t).flatten ++ s.clientResult <+: 0 :: h.commands.flatten
      ∧ (writesToClient t).flatten ++ s.busResult <+: h.answers.flatten := by
  cases hstage with
  | start => exact ⟨List.nil_prefix .., List.nil_prefix ..⟩
  | asking hcommands hanswers _ hbus hclient hpart =>
      obtain ⟨behind, hline⟩ := hpart
      rw [hbus, hclient, hcommands, hanswers, ← hline]
      simp
  | answering hfront hanswers _ _ hbus hclient hpart =>
      obtain ⟨behind, hline⟩ := hpart
      unfold Handshake.commands
      rw [hbus, hclient, hfront, hanswers, ← hline]
      simp
  | done hbus hclient =>
      rw [hbus, hclient]
      simp [AuthState.clientResult, AuthState.busResult]

/-- Each event of an attended trace is one byte. -/
theorem attended_length (hattended : h.Attended t) :
    t.length = (readFromClient t).length + (readFromBus t).length := by
  induction t using List.reverseRecOn with
  | nil => rfl
  | append_singleton t x ih =>
      obtain ⟨ev, ws⟩ := x
      obtain ⟨hbefore, hoffers⟩ := hattended.snoc
      have hlen := ih hbefore
      have hone : ev.fromClient.length + ev.fromBus.length = 1 := by
        cases ev with
        | client byte =>
            cases byte with
            | none => exact hoffers.elim
            | some c => rfl
        | bus byte =>
            cases byte with
            | none => exact hoffers.elim
            | some c => rfl
      rw [readFromClient_snoc, readFromBus_snoc]
      simp only [List.length_append, List.length_singleton]
      omega

/-- An attended run drops nothing and leads to a stage. -/
theorem attended_stage (hrun : Steps AuthState.Step .start t s)
    (hattended : h.Attended t) :
    Steps (Meeting AuthState.Step AuthState.KeepsResults) .start t s
      ∧ Stage h t s := by
  refine hrun.history (P := fun t s => h.Attended t →
    Steps (Meeting AuthState.Step AuthState.KeepsResults) .start t s
      ∧ Stage h t s) ?_ ?_ hattended
  · exact fun _ => ⟨.nil, .start⟩
  · intro t m ev ws m' _ ih hstep hall
    obtain ⟨hbefore, hoffers⟩ := hall.snoc
    obtain ⟨hkept, hstage⟩ := ih hbefore
    obtain ⟨ws', s', hmeet, hnew⟩ := stage_step hkept hstage hoffers hstep.1
    have hsame := hmeet.2.2.symm.trans hstep.2
    cases hsame
    exact ⟨.snoc hkept hmeet, hnew⟩

/-- An attended run that is over has forwarded all lines and read nothing
behind them. -/
theorem attended_done (hrun : Steps AuthState.Step .start t .done)
    (hattended : h.Attended t) : writesToBus t = [0] :: h.commands
      ∧ readFromClient t = 0 :: h.commands.flatten ∧ InStep h.answers t := by
  obtain ⟨hkept, hstage⟩ := attended_stage hrun hattended
  have hc := client_bytes_kept (hkept.meeting_mono fun _ _ h => h.1)
  have hb := bus_bytes_kept (hkept.meeting_mono fun _ _ h => h.2)
  cases hstage with
  | done hbus hclient =>
      rw [hbus] at hc
      rw [hclient] at hb
      refine ⟨hbus, ?_, hclient, ?_⟩
      · rw [hc]
        simp [AuthState.clientResult]
      · rw [hb]
        simp [AuthState.busResult]

/-- The authentication of a client that waits for each answer, by a bus that
answers each command, always completes. However the bytes arrive that the two
have sent so far, none is dropped and none makes it fail. As long as it is not
over there is one that it reads, and it has read all of them after as many
reads as the lines have bytes. It is then over: each side has been told all
lines of the other, and nothing behind them has been read. -/
theorem lockstep_completes (hrun : Steps AuthState.Step .start t s)
    (hattended : h.Attended t) :
    Steps (Meeting AuthState.Step AuthState.KeepsResults) .start t s
      ∧ (∀ ev, h.Offers t ev → s.reads ev = true →
        ∃ ws s', s.Step ev ws s')
      ∧ (s ≠ .done → ∃ ev, h.Offers t ev ∧ s.reads ev = true)
      ∧ t.length ≤ 1 + h.commands.flatten.length + h.answers.flatten.length
      ∧ (s = .done → writesToBus t = [0] :: h.commands
        ∧ readFromClient t = 0 :: h.commands.flatten
        ∧ InStep h.answers t) := by
  obtain ⟨hkept, hstage⟩ := attended_stage hrun hattended
  have hc := client_bytes_kept (hkept.meeting_mono fun _ _ h => h.1)
  have hb := bus_bytes_kept (hkept.meeting_mono fun _ _ h => h.2)
  refine ⟨hkept, ?_, stage_offers hkept hstage, ?_, ?_⟩
  · intro ev hoffers hreads
    obtain ⟨ws, s', hmeet, -⟩ := stage_step hkept hstage hoffers hreads
    exact ⟨ws, s', hmeet.2⟩
  · obtain ⟨hclient, hbus⟩ := stage_bytes hstage
    rw [← hc] at hclient
    rw [← hb] at hbus
    have hclient := hclient.length_le
    have hbus := hbus.length_le
    rw [attended_length hattended]
    rw [List.length_cons] at hclient
    omega
  · intro hdone
    rw [hdone] at hrun
    exact attended_done hrun hattended

end stages

/-- A client that negotiates, and its bus, which sends a message right behind
its last answer. -/
def negotiation : Handshake where
  front := [utf8 "AUTH\r\n", utf8 "NEGOTIATE_UNIX_FD\r\n"]
  last := utf8 "BEGIN\r\n"
  answers := [utf8 "OK\r\n", utf8 "AGREE_UNIX_FD\r\n"]
  clientRest := [108]
  busRest := [108]
  commands_lines := by decide +kernel
  answers_lines := by decide +kernel
  front_begin := by decide +kernel
  last_begin := by decide +kernel
  answered := .cons (by decide +kernel) (.cons (by decide +kernel) .nil)

theorem attended_of_inits {h : Handshake} {t : AuthTrace}
    (hall : ∀ k : Fin t.length, h.Offers (t.take k) (t.get k).1) :
    h.Attended t := by
  intro u ev ws v ht
  subst ht
  have hk := hall ⟨u.length, by simp⟩
  simpa using hk

theorem lockstep_completes_negotiation :
    InStep negotiation.answers (authTrace wholeLines) := by
  have hend : (follow (AuthState.advance fun _ _ => True) .start
      wholeLines).2 = .done := by decide +kernel
  have hrun := (steps_advance (fun _ _ => True) wholeLines).of_meeting
  rw [hend] at hrun
  have hattended : negotiation.Attended (authTrace wholeLines) :=
    attended_of_inits (by decide +kernel)
  obtain ⟨-, -, -, -, hdone⟩ := lockstep_completes hrun hattended
  exact (hdone rfl).2.2

end DbusRouter.Model
