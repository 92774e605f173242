/-
Nothing is lost where one phase of a session ends and the next begins.

What the first two phases read of a socket is cut off its stream in one way
only: the client's lines end with its BEGIN (`client_lines`), and what the
host says in the handshake ends with a line or a frame (`Welcome.unique`).
So the forwarding starts at the first byte of the first message, and what it
does with each socket's chunks is what `Balanced` says.
-/
import DbusRouter.Model.Life
import DbusRouter.Proofs.HostAuth
import DbusRouter.Proofs.Relay

namespace DbusRouter.Model

open Wire Lib

-- ============================================================= client's lines

/-- Lines of which none begins the message phase, or only the last one. -/
inductive Commands : Bool → List Bytes → Prop
  | going {lines : List Bytes} (hlines : ∀ line ∈ lines, IsLine line)
      (hnone : ∀ line ∈ lines, isBeginLine line = false) :
      Commands false lines
  | ended {lines : List Bytes} {last : Bytes}
      (hlines : ∀ line ∈ lines, IsLine line) (hlast : IsLine last)
      (hnone : ∀ line ∈ lines, isBeginLine line = false)
      (hbegin : isBeginLine last = true) : Commands true (lines ++ [last])

/-- A client that authenticates sends lines. -/
theorem Commands.isLine {b : Bool} {lines : List Bytes}
    (h : Commands b lines) : ∀ line ∈ lines, IsLine line := by
  cases h with
  | going hlines => exact hlines
  | ended hlines hlast =>
      intro line hmem
      rcases List.mem_append.mp hmem with hmem | hmem
      · exact hlines line hmem
      · rw [List.mem_singleton] at hmem
        rw [hmem]
        exact hlast

/-- One more line goes on with the commands, and a `BEGIN` ends them. -/
theorem Commands.snoc {lines : List Bytes} {line : Bytes}
    (h : Commands false lines) (hline : IsLine line) :
    Commands (isBeginLine line) (lines ++ [line]) := by
  cases h with
  | going hlines hnone =>
      cases hbegin : isBeginLine line with
      | true => exact .ended hlines hline hnone hbegin
      | false =>
          refine .going (fun l hl => ?_) (fun l hl => ?_)
          · rcases List.mem_append.mp hl with hl | hl
            · exact hlines l hl
            · rw [List.mem_singleton] at hl
              rw [hl]
              exact hline
          · rcases List.mem_append.mp hl with hl | hl
            · exact hnone l hl
            · rw [List.mem_singleton] at hl
              rw [hl]
              exact hbegin

/-- Of two lists of lines up to a BEGIN, none goes on behind the other. -/
theorem Commands.eq_of_isPrefix {us vs : List Bytes} (hu : Commands true us)
    (hv : Commands true vs) (h : us <+: vs) : us = vs := by
  cases hu with
  | @ended us last _ _ _ hbegin =>
      cases hv with
      | @ended vs last' _ _ hnone _ =>
          rcases List.prefix_concat_iff.mp h with heq | hin
          · exact heq
          · have hmem : last ∈ vs :=
              hin.subset (List.mem_append_right _ (List.mem_singleton.mpr rfl))
            rw [hnone last hmem] at hbegin
            cases hbegin

/-- No command leads back to the start. -/
theorem next_ne_start (n : Nat) (b : Bool) : AuthState.next n b ≠ .start := by
  unfold AuthState.next
  split
  · nofun
  · nofun

/-- What the bus is written: the null byte and the client's lines, and the
passthrough goes on until its BEGIN. -/
theorem client_lines {t : AuthTrace} {s : AuthState}
    (hrun : Steps AuthState.Step .start t s) (hs : s ≠ .start) :
    ∃ lines, writesToBus t = [0] :: lines ∧ Commands s.begun lines := by
  have hnil : Unfinished (fun w => endsLine w = true) ([] : Bytes) :=
    unfinished_nil (by decide)
  have hall : (s = .start → writesToBus t = [])
      ∧ (s ≠ .start → ∃ lines, writesToBus t = [0] :: lines
        ∧ Commands s.begun lines)
      ∧ Unfinished (fun w => endsLine w = true) s.clientResult := by
    refine hrun.history (P := fun t s => (s = .start → writesToBus t = [])
      ∧ (s ≠ .start → ∃ lines, writesToBus t = [0] :: lines
        ∧ Commands s.begun lines)
      ∧ Unfinished (fun w => endsLine w = true) s.clientResult)
      ⟨fun _ => rfl, fun h => absurd rfl h, hnil⟩ ?_
    rintro t m ev ws m' - ⟨hstart, hlater, hrest⟩ hstep
    rw [writesToBus_snoc]
    cases hstep.move with
    | null =>
        refine ⟨?_, fun _ => ⟨[], ?_, ?_⟩, hnil⟩
        · intro h
          cases h
        · rw [hstart rfl]
          rfl
        · exact .going (fun _ h => by cases h) (fun _ h => by cases h)
    | clientByte hnot hends =>
        refine ⟨?_, fun _ => ?_, ?_⟩
        · intro h
          cases h
        · obtain ⟨lines, hw, hc⟩ := hlater (by simp)
          exact ⟨lines, by simpa using hw, hc⟩
        · exact hrest.snoc (by simpa using hends)
    | @clientLine l c hnot hends =>
        refine ⟨fun h => absurd h (next_ne_start _ _), fun _ => ?_,
          by simpa using hnil⟩
        · obtain ⟨lines, hw, hc⟩ := hlater (by simp)
          have hline : IsLine _ := hrest.token_of_ends hends
          rw [AuthState.begun, hnot] at hc
          refine ⟨lines ++ [l.clientResult ++ [c]], ?_, ?_⟩
          · rw [hw]
            rfl
          · rw [begun_next]
            exact hc.snoc hline
    | busByte hends =>
        refine ⟨?_, fun _ => ?_, hrest⟩
        · intro h
          cases h
        · obtain ⟨lines, hw, hc⟩ := hlater (by simp)
          exact ⟨lines, by simpa using hw, hc⟩
    | busLine hends =>
        refine ⟨fun h => absurd h (next_ne_start _ _), fun _ => ?_,
          by simpa using hnil⟩
        · obtain ⟨lines, hw, hc⟩ := hlater (by simp)
          refine ⟨lines, by simpa [AuthWrite.forBus] using hw, ?_⟩
          rw [begun_next]
          exact hc
  exact hall.2.1 hs

/-- A passthrough that drops no part of a client's line ends behind the
client's BEGIN, and has written the bus what it has read. -/
theorem passthrough_lines {t : AuthTrace} {commands : List Bytes}
    {more : Bytes}
    (hrun : Steps (Meeting AuthState.Step AuthState.KeepsClientResult) .start
      t .done) (hcommands : Commands true commands)
    (hread : readFromClient t <+: [0] ++ commands.flatten ++ more) :
    writesToBus t = [0] :: commands
      ∧ readFromClient t = [0] ++ commands.flatten := by
  obtain ⟨lines, hw, hlines⟩ := client_lines hrun.of_meeting (by simp)
  have hbytes : readFromClient t = [0] ++ lines.flatten := by
    rw [client_bytes_kept hrun, hw]
    exact List.append_nil _
  have hpre : lines.flatten ++ [] <+: commands.flatten ++ more := by
    rw [hbytes, List.append_assoc, List.prefix_append_right_inj] at hread
    rw [List.append_nil]
    exact hread
  have heq : lines = commands := by
    rcases flatten_isPrefix hlines.isLine hcommands.isLine hpre with h | h
    · exact hlines.eq_of_isPrefix hcommands h
    · exact (hcommands.eq_of_isPrefix hlines h).symm
  rw [heq] at hw hbytes
  exact ⟨hw, hbytes⟩

-- ============================================================ host's welcome

/-- A frame is known by its own bytes. -/
theorem Frame.token (f : Frame) : Token EndsFrame f.bytes :=
  token_of_parse f.parse_bytes f.totalLen_prologue.symm

/-- A host's stream begins with one welcome at most. -/
theorem Welcome.unique {skipHello : Bool} {w w' : Welcome skipHello}
    {more : Bytes} (h : w.bytes <+: w'.bytes ++ more) :
    w.bytes = w'.bytes := by
  obtain ⟨rest, h⟩ := h
  have hreplies := w.replies_eq
  have hreplies' := w'.replies_eq
  unfold Welcome.bytes at h ⊢
  simp only [List.append_assoc] at h
  obtain ⟨hok, h₁⟩ := w.ok_line.1.append_inj w'.ok_line.1 h
  obtain ⟨hagree, h₂⟩ := w.agree_line.1.append_inj w'.agree_line.1 h₁
  rw [hok, hagree]
  congr 2
  cases skipHello with
  | true =>
      rw [if_pos rfl] at hreplies hreplies'
      rw [hreplies, hreplies']
  | false =>
      rw [if_neg (by decide)] at hreplies hreplies'
      obtain ⟨reply, signal, heq, -⟩ := hreplies
      obtain ⟨reply', signal', heq', -⟩ := hreplies'
      rw [heq, heq'] at h₂ ⊢
      simp only [List.flatMap_cons, List.flatMap_nil, List.append_assoc]
        at h₂ ⊢
      obtain ⟨hreply, h₃⟩ := reply.token.append_inj reply'.token h₂
      obtain ⟨hsignal, -⟩ := signal.token.append_inj signal'.token h₃
      rw [hreply, hsignal]

-- ================================================================ the sockets

/-- What is read byte by byte is a beginning of what is sent. -/
theorem HandsOut.early_isPrefix {sent : List StreamByte} {early : Bytes}
    {cs : List Chunk} (h : HandsOut sent early cs) :
    early <+: sent.map (·.byte) := by
  obtain ⟨front, pieces, rest, rfl, rfl, -⟩ := h
  rw [List.map_append]
  exact List.prefix_append ..

/-- Behind a first part without descriptors the chunks bring a beginning of
the rest. -/
theorem HandsOut.behind {pre : Bytes} {stream : List StreamByte}
    {cs : List Chunk} (h : HandsOut (bareStream pre ++ stream) pre cs) :
    Arrives stream cs := by
  obtain ⟨front, pieces, rest, hsent, hfront, hpieces, hcs⟩ := h
  have hlength : (bareStream pre).length = front.length := by
    rw [bareStream, List.length_map, ← hfront, List.length_map]
  obtain ⟨-, rfl⟩ := List.append_inj hsent hlength
  obtain ⟨hbytes, hfds⟩ := received_eq hpieces
  refine ⟨pieces.flatten, List.prefix_append .., ?_⟩
  rcases hcs with rfl | ⟨-, rfl⟩
  · exact ⟨hbytes, hfds⟩
  · rw [bytesIn_append, fdsIn_append, bytesIn_end (by rfl),
      fdsIn_end (by rfl), List.append_nil, List.append_nil]
    exact ⟨hbytes, hfds⟩

-- ================================================================== the phases

/-- What a peer sends in front of its messages. -/
def preamble (commands responses : List Bytes) {skipHello : Bool}
    (w : Welcome skipHello) : Peer → Bytes
  | .client => [0] ++ commands.flatten
  | .bus .host => w.bytes
  | .bus .sandbox => responses.flatten

section phases

variable {L : Libs} {uid : Nat} {s : Session} {life : Life} {R : Relay}
  {commands responses : List Bytes}
  {w : Welcome (isHostpass L.glob s.config s.clientExePath)}

/-- The first two phases read what stands in front of the messages, and
nothing else. -/
theorem early_eq_preamble (hz : L.zvariant.FollowsSpec)
    (hrun : life.Runs L uid s R) (hcommands : Commands true commands)
    (hkept : Steps (Meeting AuthState.Step AuthState.KeepsClientResult)
      .start life.auth .done)
    (hstep : InStep responses life.auth) {p : Peer} {more : Bytes}
    (hearly : life.early p <+: preamble commands responses w p ++ more) :
    life.early p = preamble commands responses w p := by
  rcases p with _ | _ | _
  · exact (passthrough_lines hkept hcommands hearly).2
  · obtain ⟨w', hw'⟩ := (holds_authHostBus hz).mp hrun.handshake
    have hheard : life.early (.bus .host) = w'.bytes := by
      rw [Life.early, hw', w'.heard_acts]
    rw [hheard] at hearly ⊢
    exact Welcome.unique hearly
  · exact hstep.2

section messages

variable {msgs : Peer → List Message} {segments : Peer → List Segment}

/-- What is read of a peer before messages are forwarded is a beginning of
what the peer sends. -/
theorem early_isPrefix (hacc : ∀ p, ∀ msg ∈ msgs p, msg.Accepted L.zvariant)
    (hsent : ∀ p, Sent (msgs p) (segments p))
    (hands : ∀ p, HandsOut (bareStream (preamble commands responses w p)
      ++ (segments p).flatMap Segment.stream) (life.early p)
      (arrivedFrom p life.relay)) (p : Peer) :
    life.early p <+: preamble commands responses w p
      ++ (msgs p).flatMap (·.raw) := by
  have hearly := (hands p).early_isPrefix
  rw [List.map_append, bareStream_bytes, (sent_eq (hsent p) (hacc p)).1]
    at hearly
  exact hearly

/-- So the forwarding handles the messages of each peer. -/
theorem forwarding_handles (hz : L.zvariant.FollowsSpec)
    (hrun : life.Runs L uid s R) (hcommands : Commands true commands)
    (hkept : Steps (Meeting AuthState.Step AuthState.KeepsClientResult)
      .start life.auth .done)
    (hstep : InStep responses life.auth)
    (hacc : ∀ p, ∀ msg ∈ msgs p, msg.Accepted L.zvariant)
    (hsent : ∀ p, Sent (msgs p) (segments p))
    (hands : ∀ p, HandsOut (bareStream (preamble commands responses w p)
      ++ (segments p).flatMap Segment.stream) (life.early p)
      (arrivedFrom p life.relay)) (p : Peer) :
    takenFrom p life.relay <+: msgs p
      ∧ (bytesIn (arrivedFrom p life.relay) = (msgs p).flatMap (·.raw) →
        (R.readers p).unread = [] → takenFrom p life.relay = msgs p) := by
  have hpre := early_eq_preamble hz hrun hcommands hkept hstep
    (early_isPrefix hacc hsent hands p)
  have hhands := hands p
  rw [hpre] at hhands
  exact (relay_accounts hrun.forwarding p).handled
    (takenFrom_accepted hrun.forwarding p) (hacc p) (hsent p) hhands.behind

end messages

/-- Over a whole session, through the passthrough, the handshake with the host
and the forwarding: what is handled of each peer is a beginning of the
messages that stand behind what that peer has to say first, and all of them
once all has arrived and nothing is left unread. The passthrough hands the
client's lines to the sandbox and the answers to the client; the host is told
the router's own commands. -/
theorem session_handles_what_was_sent (hz : L.zvariant.FollowsSpec)
    (hrun : life.Runs L uid s R) (hcommands : Commands true commands)
    (hkept : Steps (Meeting AuthState.Step AuthState.KeepsClientResult)
      .start life.auth .done)
    (hstep : InStep responses life.auth)
    {msgs : Peer → List Message} {segments : Peer → List Segment}
    (hacc : ∀ p, ∀ msg ∈ msgs p, msg.Accepted L.zvariant)
    (hsent : ∀ p, Sent (msgs p) (segments p))
    (hands : ∀ p, HandsOut (bareStream (preamble commands responses w p)
      ++ (segments p).flatMap Segment.stream) (life.early p)
      (arrivedFrom p life.relay)) :
    (life.greeting .client = responses.flatten
      ∧ life.greeting (.bus .sandbox) = [0] ++ commands.flatten
      ∧ life.greeting (.bus .host) = askedAll uid
        (isHostpass L.glob s.config s.clientExePath))
    ∧ ∀ p, takenFrom p life.relay <+: msgs p
      ∧ (bytesIn (arrivedFrom p life.relay) = (msgs p).flatMap (·.raw) →
        (R.readers p).unread = [] → takenFrom p life.relay = msgs p) := by
  refine ⟨⟨?_, ?_, ?_⟩,
    forwarding_handles hz hrun hcommands hkept hstep hacc hsent hands⟩
  · rw [Life.greeting, hstep.1]
  · have hearly := early_isPrefix hacc hsent hands .client
    rw [Life.greeting, (passthrough_lines hkept hcommands hearly).1]
    rfl
  · obtain ⟨w', hw'⟩ := (holds_authHostBus hz).mp hrun.handshake
    rw [Life.greeting, hw', w'.written_acts]

end phases

/-- The rest of the client's signal arrives in two parts. -/
def openingRound : Round where
  ready := .client
  ending := .returns
  waits
    | .client => [.chunk ⟨((fdSignal 2 0).raw.drop 3).take 20, []⟩,
        .chunk ⟨(fdSignal 2 0).raw.drop 23, []⟩]
    | .bus _ => []
  sends := [[.accepts 30, .accepts 1000]]

/-- What the session and the sockets make of it. -/
def openingTurn : Session × List Write :=
  signalRelay.loop.session.react referenceLibs (.client (fdSignal 2 0))

def openingRelayed : Relayed :=
  ⟨.message (fdSignal 2 0), openingTurn.2,
    (sendAll openingTurn.2 openingRound.sends).1⟩

def openingRelay : Relay where
  loop := { signalRelay.loop with session := openingTurn.1 }
  readers := fun _ => .new

/-- A session that has handled a signal of the host's and one of the
client's. -/
def openingLife : Life where
  auth := authTrace wholeLines
  host := promptWelcome.acts 0
  relay := [(signalRound, signalRelayed), (openingRound, openingRelayed)]

def openingMessages : Peer → List Message
  | .client => [fdSignal 2 0]
  | .bus .host => [fdSignal 1 2]
  | .bus .sandbox => []

def openingSegments : Peer → List Segment
  | .client => [⟨(fdSignal 2 0).raw, []⟩]
  | .bus .host => (signalSegments 2 0).take 2
  | .bus .sandbox => []

def openingCommands : List Bytes :=
  [utf8 "AUTH\r\n", utf8 "NEGOTIATE_UNIX_FD\r\n", utf8 "BEGIN\r\n"]

def openingResponses : List Bytes :=
  [utf8 "OK\r\n", utf8 "AGREE_UNIX_FD\r\n"]

/-- The relay runs through the two signals. -/
theorem opening_run : RelayRun referenceLibs
    ((Session.new sandboxOnly none).relay referenceLibs) openingLife.relay
    openingRelay := by
  have hstep : signalRelay.loop.session.Step referenceLibs
      (.client (fdSignal 2 0)) openingTurn.2 openingTurn.1 :=
    step_react (by decide +kernel) (by decide +kernel)
  have hdropped : ∀ p, p ≠ openingRound.ready →
      readDropped referenceLibs.zvariant (signalRelay.readers p)
        (openingRound.waits p) = some (openingRelay.readers p) := by
    intro p hp
    rcases p with _ | _ | _
    · exact absurd rfl hp
    · decide +kernel
    · decide +kernel
  have hturn := turns_of_step (L := referenceLibs) (R := signalRelay) rfl
    (by decide +kernel) hdropped hstep
  exact Steps.snoc signal_run ⟨hturn, by decide +kernel⟩

/-- Both sides are heard in full before. -/
theorem opening_kept :
    Steps (Meeting AuthState.Step AuthState.KeepsClientResult) .start
      openingLife.auth .done := by
  have heq : (follow (AuthState.advance AuthState.KeepsResults) .start
      wholeLines) = (authTrace wholeLines, .done) := by decide +kernel
  have hrun := steps_advance AuthState.KeepsResults wholeLines
  rw [heq] at hrun
  exact hrun.meeting_mono fun _ _ h => h.1

/-- What each side sends behind its lines are its messages. -/
theorem opening_sent (p : Peer) :
    Sent (openingMessages p) (openingSegments p) := by
  have hclient : DbusWriter.send [1000] (fdSignal 2 0).raw
      (fdSignal 2 0).fds = .ok (openingSegments .client) := by decide +kernel
  have hhost : DbusWriter.send [16, 500] (fdSignal 1 2).raw
      (fdSignal 1 2).fds = .ok (openingSegments (.bus .host)) := by
    decide +kernel
  rcases p with _ | _ | _
  · exact .cons hclient .nil
  · exact .cons hhost .nil
  · exact .nil

/-- All that the peers send arrives. -/
theorem opening_handsOut (p : Peer) :
    HandsOut (bareStream (preamble openingCommands openingResponses
        promptWelcome p)
      ++ (openingSegments p).flatMap Segment.stream) (openingLife.early p)
      (arrivedFrom p openingLife.relay) := by
  rcases p with _ | _ | _
  · exact ⟨bareStream ([0] ++ openingCommands.flatten),
      [((openingSegments .client).flatMap Segment.stream).take 3,
        (((openingSegments .client).flatMap Segment.stream).drop 3).take 20,
        ((openingSegments .client).flatMap Segment.stream).drop 23],
      [], by decide +kernel, by decide +kernel, by decide +kernel,
      by decide +kernel⟩
  · exact ⟨bareStream promptWelcome.bytes,
      (openingSegments (.bus .host)).map Segment.stream, [],
      by decide +kernel, by decide +kernel, by decide +kernel,
      by decide +kernel⟩
  · exact ⟨bareStream openingResponses.flatten, [], [],
      by decide +kernel, by decide +kernel, by decide +kernel,
      by decide +kernel⟩

theorem session_handles_opening : ∃ R : Relay,
    (openingLife.greeting .client = openingResponses.flatten
      ∧ openingLife.greeting (.bus .sandbox) = [0] ++ openingCommands.flatten
      ∧ openingLife.greeting (.bus .host) = askedAll 0 false)
    ∧ ∀ p, takenFrom p openingLife.relay <+: openingMessages p
      ∧ (bytesIn (arrivedFrom p openingLife.relay)
          = (openingMessages p).flatMap (·.raw) →
        (R.readers p).unread = [] →
          takenFrom p openingLife.relay = openingMessages p) := by
  have hrun : openingLife.Runs referenceLibs 0 (Session.new sandboxOnly none)
      openingRelay := ⟨opening_kept.of_meeting,
        (holds_authHostBus Zvariant.reference_followsSpec).mpr
          ⟨promptWelcome, rfl⟩, opening_run⟩
  have hcommands : Commands true (openingCommands.take 2
      ++ [utf8 "BEGIN\r\n"]) :=
    .ended (by decide +kernel) (by decide +kernel) (by decide +kernel)
      (by decide +kernel)
  have hacc : ∀ p, ∀ msg ∈ openingMessages p,
      msg.Accepted referenceLibs.zvariant := by
    intro p
    rcases p with _ | _ | _ <;> decide +kernel
  exact ⟨openingRelay, session_handles_what_was_sent (L := referenceLibs)
    (s := Session.new sandboxOnly none) (w := promptWelcome)
    Zvariant.reference_followsSpec hrun hcommands opening_kept
    ⟨by decide +kernel, by decide +kernel⟩ hacc opening_sent
    opening_handsOut⟩

end DbusRouter.Model
