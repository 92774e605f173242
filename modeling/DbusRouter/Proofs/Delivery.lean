/-
Letters from socket to socket.

The results about the parts of a session are put together here. The
authentication of peers that wait for each other ends behind their last lines
(`attended_done`), the handshake with the host behind its welcome, so the
readers hand on the messages that were sent (`forwarding_handles`). The session
treats ordinary traffic as an exchange of letters (`books_step`), and each
socket is given the writes whole (`relay_puts`). From the first byte of the
client's on, what the peers send and what is read of what they are written are
the letters of an exchange (`letters_delivered`).
-/
import DbusRouter.Proofs.Exchange
import DbusRouter.Proofs.Life
import DbusRouter.Proofs.Lockstep

namespace DbusRouter.Model

open Wire Lib

-- ============================================================== one peer's letters

/-- The letters a peer hands in. -/
def handedIn (p : Peer) (u : List ((Peer × Letter) × (Peer × Letter))) :
    List Letter :=
  (u.filter (·.1.1 = p)).map (·.1.2)

/-- The letters that are handed out to a peer. -/
def handedOut (p : Peer) (u : List ((Peer × Letter) × (Peer × Letter))) :
    List Letter :=
  (u.filter (·.2.1 = p)).map (·.2.2)

/-- The messages of a run that are a peer's. -/
def messagesOf (p : Peer) (t : List (Event × List Write)) : List Message :=
  (t.filter (·.1.peer = p)).map (·.1.msg)

/-- The writes of a run that are for a peer. -/
def writesOf (p : Peer) (t : List (Event × List Write)) : List Write :=
  t.flatMap fun e => e.2.filter (·.peer = p)

/-- The write of a whole message. -/
def Message.writtenTo (p : Peer) (m : Message) : Write := ⟨p, m.raw, m.fds⟩

section carried

variable {z : Zvariant} {t : List (Event × List Write)}
  {u : List ((Peer × Letter) × (Peer × Letter))}

/-- A peer's messages say the letters it hands in. -/
theorem carried_in (h : List.Forall₂ (Carried z) t u) (p : Peer) :
    List.Forall₂ (Message.Says z) (messagesOf p t) (handedIn p u) := by
  induction h with
  | nil => exact .nil
  | @cons x y t u hxy _ ih =>
      obtain ⟨ev, ws⟩ := x
      obtain ⟨⟨q, l⟩, o⟩ := y
      obtain ⟨hpeer, hsaid, -⟩ := hxy
      simp only at hpeer hsaid
      unfold messagesOf handedIn
      by_cases hp : q = p
      · rw [List.filter_cons_of_pos (by simpa [hpeer] using hp),
          List.filter_cons_of_pos (by simpa using hp)]
        exact .cons hsaid ih
      · rw [List.filter_cons_of_neg (by simpa [hpeer] using hp),
          List.filter_cons_of_neg (by simpa using hp)]
        exact ih

/-- What is written to a peer are messages that say the letters handed out to
it. -/
theorem carried_out (h : List.Forall₂ (Carried z) t u) (p : Peer) :
    ∃ out : List Message, (∀ m ∈ out, m.Accepted z)
      ∧ List.Forall₂ (Message.Says z) out (handedOut p u)
      ∧ writesOf p t = out.map (Message.writtenTo p) := by
  induction h with
  | nil => exact ⟨[], by simp, .nil, rfl⟩
  | @cons x y t u hxy _ ih =>
      obtain ⟨ev, ws⟩ := x
      obtain ⟨i, q, l⟩ := y
      obtain ⟨-, -, m, hacc, hsaid, hws⟩ := hxy
      simp only at hsaid hws
      obtain ⟨out, haccs, hletters, hwrites⟩ := ih
      unfold handedOut writesOf at *
      rw [List.flatMap_cons, hws, hwrites]
      by_cases hp : q = p
      · refine ⟨m :: out, ?_, ?_, ?_⟩
        · intro m' hm'
          rcases List.mem_cons.mp hm' with rfl | hm'
          · exact hacc
          · exact haccs m' hm'
        · rw [List.filter_cons_of_pos (by simpa using hp)]
          exact .cons hsaid hletters
        · rw [hp]
          simp [Message.writtenTo]
      · refine ⟨out, haccs, ?_, ?_⟩
        · rw [List.filter_cons_of_neg (by simpa using hp)]
          exact hletters
        · simp [hp]

end carried

-- ================================================================ the sockets

/-- A write puts no empty part on a socket. -/
theorem sendAll_nonempty {ws : List Write} (sends : List (List Sendmsg))
    (hws : ∀ w ∈ ws, w.fds.length ≤ maxFdsPerMessage) :
    ∀ put ∈ (sendAll ws sends).1, put.segment.bytes ≠ [] := by
  induction ws generalizing sends with
  | nil =>
      intro put hput
      cases hput
  | cons w ws ih =>
      have hw := hws w (List.mem_cons_self ..)
      have hsound := DbusWriter.sendCalls_sound w.raw (sends.headD []) hw
      have hfirst : ∀ put ∈ (DbusWriter.sendCalls (sends.headD []) w.raw
          w.fds).sent.map (Put.mk w.peer), put.segment.bytes ≠ [] := by
        intro put hput
        obtain ⟨segment, hsegment, rfl⟩ := List.mem_map.mp hput
        exact hsound.nonempty segment hsegment
      rw [sendAll_cons]
      simp only
      split
      next =>
        intro put hput
        rcases List.mem_append.mp hput with hput | hput
        · exact hfirst put hput
        · exact ih _ (fun v hv => hws v (List.mem_cons_of_mem _ hv)) put hput
      next => exact hfirst

theorem Segment.stream_bytes (s : Segment) :
    s.stream.map (·.byte) = s.bytes := by
  unfold Segment.stream
  cases s.bytes with
  | nil => rfl
  | cons b bytes => simp [Function.comp_def]

theorem Segment.stream_fds {s : Segment} (hne : s.bytes ≠ []) :
    s.stream.flatMap (·.fds) = s.fds := by
  unfold Segment.stream
  cases hbytes : s.bytes with
  | nil => exact absurd hbytes hne
  | cons b bytes =>
      have hnone : ∀ x ∈ bytes.map (⟨·, none⟩), StreamByte.fds x = [] := by
        intro x hx
        obtain ⟨c, -, rfl⟩ := List.mem_map.mp hx
        rfl
      rw [List.flatMap_cons, flatMap_fds_eq_nil hnone, List.append_nil]
      rfl

/-- The bytes and the descriptors of a stream are those of what was put on
it. -/
theorem stream_eq {segments : List Segment}
    (hne : ∀ segment ∈ segments, segment.bytes ≠ []) :
    (segments.flatMap Segment.stream).map (·.byte) = taken segments
      ∧ (segments.flatMap Segment.stream).flatMap (·.fds)
        = segments.flatMap (·.fds) := by
  induction segments with
  | nil => exact ⟨rfl, rfl⟩
  | cons s segments ih =>
      obtain ⟨hbytes, hfds⟩ :=
        ih fun segment hmem => hne segment (List.mem_cons_of_mem _ hmem)
      have hs := Segment.stream_fds (hne s (List.mem_cons_self ..))
      rw [List.flatMap_cons, List.map_append, List.flatMap_append, hbytes, hfds,
        Segment.stream_bytes, hs]
      exact ⟨rfl, rfl⟩

/-- Writes that are put whole are put with their descriptors. -/
theorem PutWhole.fds_eq {ws : List Write} {segments : List Segment}
    (h : PutWhole ws segments) (hraw : ∀ w ∈ ws, w.raw ≠ []) :
    segments.flatMap (·.fds) = ws.flatMap (·.fds) := by
  induction h with
  | nil => rfl
  | @cons w ws part rest hbytes hfds _ ih =>
      have hrest := ih fun v hv => hraw v (List.mem_cons_of_mem _ hv)
      have hpart : part.flatMap (·.fds) = w.fds := by
        cases part with
        | nil => exact absurd hbytes.symm (hraw w (List.mem_cons_self ..))
        | cons first later =>
            obtain ⟨hfirst, hlater⟩ := hfds
            have hnone : later.flatMap (·.fds) = [] :=
              List.flatMap_eq_nil_iff.mpr hlater
            rw [List.flatMap_cons, hnone, List.append_nil]
            exact hfirst
      rw [List.flatMap_append, List.flatMap_cons, hpart, hrest]

/-- What is read of a socket that is given messages whole is a beginning of
them, and all of them when all has arrived and nothing is left. -/
theorem PutWhole.read {z : Zvariant} {p : Peer} {out read : List Message}
    {segments : List Segment} {cs : List Chunk} {r : DbusReader}
    (h : PutWhole (out.map (Message.writtenTo p)) segments)
    (hne : ∀ segment ∈ segments, segment.bytes ≠ [])
    (hout : ∀ m ∈ out, m.Accepted z) (hdelivered : Delivered segments cs)
    (hread : Balanced .new cs read r) (hacc : ∀ m ∈ read, m.Accepted z) :
    read <+: out ∧ (r.unread = [] → read = out) := by
  have hraw : ∀ w ∈ out.map (Message.writtenTo p), w.raw ≠ [] := by
    intro w hw
    obtain ⟨m, hm, rfl⟩ := List.mem_map.mp hw
    intro hnil
    have htoken := (hout m hm).token.1
    rw [show m.raw = [] from hnil] at htoken
    exact not_endsFrame_nil htoken
  obtain ⟨hbytes, hfds⟩ := stream_eq hne
  obtain ⟨hin, hqueue⟩ := delivered_eq hdelivered
  have hbytes : bytesIn cs = out.flatMap (·.raw) := by
    rw [hin, hbytes, h.bytes_eq, List.flatMap_map]
    rfl
  have hfds : fdsIn cs = out.flatMap (·.fds) := by
    rw [hqueue, hfds, h.fds_eq hraw, List.flatMap_map]
    rfl
  obtain ⟨hpart, hwhole⟩ := hread.handled hacc hout
    (hbytes ▸ List.prefix_rfl) (hfds ▸ List.prefix_rfl)
  exact ⟨hpart, hwhole hbytes⟩

-- ================================================================ the whole way

section delivered

variable {L : Libs} {s : Session} {t : RelayTrace} {R : Relay}

theorem event_peer (p : Peer) (msg : Message) : (p.event msg).peer = p := by
  cases p <;> rfl

theorem event_msg (p : Peer) (msg : Message) : (p.event msg).msg = msg := by
  cases p <;> rfl

/-- The messages that are read are those the session handles. -/
theorem messagesOf_loopTrace (p : Peer) (t : RelayTrace) :
    messagesOf p (messages (loopTrace t)) = takenFrom p t := by
  induction t using List.reverseRecOn with
  | nil => rfl
  | append_singleton t x ih =>
      obtain ⟨i, o⟩ := x
      have hlast : messagesOf p ((eventOf (i.ready, o.read)).map
          fun ev => (ev, o.writes)).toList = takenFrom p [(i, o)] := by
        rw [takenFrom_single]
        unfold messagesOf eventOf
        cases o.read with
        | message msg =>
            by_cases hp : i.ready = p
            · simp [event_peer, event_msg, hp, ReadResult.toOption]
            · simp [event_peer, hp]
        | disconnected | failed =>
            simp [ReadResult.toOption]
      rw [loopTrace_snoc, messages_snoc, takenFrom_snoc, ← ih, ← hlast]
      unfold messagesOf
      rw [List.filter_append, List.map_append]

/-- The writes of the turns are those on the messages. -/
theorem writesOf_loopTrace (h : RelayRun L (s.relay L) t R) (p : Peer) :
    writesOf p (messages (loopTrace t)) = writesFor p t := by
  refine h.history (P := fun t _ =>
    writesOf p (messages (loopTrace t)) = writesFor p t) rfl ?_
  intro t R i o R' _ ih hstep
  rw [loopTrace_snoc, messages_snoc, writesFor_snoc, ← ih]
  unfold writesOf
  rw [List.flatMap_append]
  rcases loop_cases (turn_loop hstep.1) with
    ⟨msg, hread, -⟩ | ⟨hnone, -, hws, -⟩
  · rw [hread]
    simp [eventOf]
  · rw [hnone, hws]
    rfl

/-- No turn puts an empty part on a socket. -/
theorem relay_nonempty (h : RelayRun L (s.relay L) t R) (p : Peer) :
    ∀ segment ∈ putOn p (putsOf t), segment.bytes ≠ [] := by
  refine h.history (P := fun t _ =>
    ∀ segment ∈ putOn p (putsOf t), segment.bytes ≠ []) ?_ ?_
  · intro segment hmem
    cases hmem
  · intro t R i o R' _ ih hstep
    rw [putsOf_snoc, putOn_append, hstep.1.puts_eq]
    intro segment hmem
    rcases List.mem_append.mp hmem with hmem | hmem
    · exact ih segment hmem
    · obtain ⟨put, hput, rfl⟩ := List.mem_map.mp hmem
      exact sendAll_nonempty i.sends (turn_fds (turn_loop hstep.1)) put
        (List.mem_of_mem_filter hput)

/-- What is read of a peer's socket that is given writes which say letters. -/
theorem relay_read (h : RelayRun L (s.relay L) t R) {p : Peer}
    {out read : List Message} {cs : List Chunk} {r : DbusReader}
    (hout : ∀ m ∈ out, m.Accepted L.zvariant)
    (hwrites : writesOf p (messages (loopTrace t))
      = out.map (Message.writtenTo p))
    (hdelivered : Delivered (putOn p (putsOf t)) cs)
    (hread : Balanced .new cs read r)
    (hacc : ∀ m ∈ read, m.Accepted L.zvariant) :
    read <+: out ∧ (r.unread = [] → read = out) := by
  have hput := relay_puts h p
  rw [← writesOf_loopTrace h, hwrites] at hput
  exact hput.read (relay_nonempty h p) hout hdelivered hread hacc

end delivered

theorem Handshake.commands_ended (h : Handshake) :
    Commands true h.commands := by
  apply Commands.ended
  · intro line hline
    exact (h.commands_lines line (List.mem_append_left _ hline)).1
  · exact (h.commands_lines h.last (by simp)).1
  · exact h.front_begin
  · exact h.last_begin

/-- A session that gets ordinary traffic, behind an authentication in which the
client and the sandbox wait for each other, is an exchange of letters from
socket to socket. In whatever pieces what the peers send arrives, and in
whatever order it is read, the messages that have been handled say the letters
that are handed in. In whatever pieces the sockets take what is written and
hand it on, it is read there as messages that say the letters that are handed
out, each once, in order and with its own descriptors. -/
theorem letters_delivered {L : Libs} {uid : Nat} {s : Session} {life : Life}
    {R : Relay} {h : Handshake}
    {w : Welcome (isHostpass L.glob s.config s.clientExePath)}
    {msgs : Peer → List Message} {segments : Peer → List Segment}
    (hz : L.zvariant.FollowsSpec) (hrun : life.Runs L uid s R)
    (hattended : h.Attended life.auth)
    (hordinary : Steps (Meeting (Session.Step L)
      (Session.Ordinary L.zvariant)) s
      (messages (loopTrace life.relay)) R.loop.session)
    (hacc : ∀ p, ∀ m ∈ msgs p, m.Accepted L.zvariant)
    (hsent : ∀ p, Sent (msgs p) (segments p))
    (hands : ∀ p, HandsOut (bareStream (preamble h.commands h.answers w p)
      ++ (segments p).flatMap Segment.stream) (life.early p)
      (arrivedFrom p life.relay)) :
    ∃ u, Steps (Exchange.Step (homeOf L s.config s.clientExePath))
        s.exchange u R.loop.session.exchange
      ∧ ∀ p, (∃ handled, handled <+: msgs p
          ∧ List.Forall₂ (Message.Says L.zvariant) handled (handedIn p u)
          ∧ (bytesIn (arrivedFrom p life.relay) = (msgs p).flatMap (·.raw) →
            (R.readers p).unread = [] → handled = msgs p))
        ∧ ∃ out, List.Forall₂ (Message.Says L.zvariant) out (handedOut p u)
          ∧ ∀ cs read r, Delivered (putOn p (putsOf life.relay)) cs →
            Balanced .new cs read r → (∀ m ∈ read, m.Accepted L.zvariant) →
            read <+: out ∧ (r.unread = [] → read = out) := by
  obtain ⟨hkept, -⟩ := attended_stage hrun.passthrough hattended
  obtain ⟨-, -, hinStep⟩ := attended_done hrun.passthrough hattended
  have hhandled := forwarding_handles hz hrun h.commands_ended
    (hkept.meeting_mono fun _ _ h => h.1) hinStep hacc hsent hands
  obtain ⟨u, x, hexchange, hcarried, hbooks⟩ :=
    hordinary.simulate s.books_self (books_step hz)
  rw [hbooks.1] at hexchange
  refine ⟨u, hexchange, ?_⟩
  intro p
  constructor
  · obtain ⟨hpart, hwhole⟩ := hhandled p
    have hletters := carried_in hcarried p
    rw [messagesOf_loopTrace] at hletters
    exact ⟨takenFrom p life.relay, hpart, hletters, hwhole⟩
  · obtain ⟨out, hout, hletters, hwrites⟩ := carried_out hcarried p
    refine ⟨out, hletters, ?_⟩
    intro cs read r hdelivered hread hreadacc
    exact relay_read hrun.forwarding hout hwrites hdelivered hread hreadacc

theorem opening_attended : negotiation.Attended openingLife.auth :=
  attended_of_inits (by decide +kernel)

/-- The signals of the host and of the client, relayed one behind the
other. -/
theorem letters_delivered_opening :
    ∃ u : List ((Peer × Letter) × (Peer × Letter)),
      Steps (Exchange.Step (homeOf referenceLibs sandboxOnly none))
        (Session.new sandboxOnly none).exchange u
        openingRelay.loop.session.exchange
      ∧ ∀ p, (∃ handled, handled <+: openingMessages p
          ∧ List.Forall₂ (Message.Says .reference) handled (handedIn p u)
          ∧ (bytesIn (arrivedFrom p openingLife.relay)
              = (openingMessages p).flatMap (·.raw) →
            (openingRelay.readers p).unread = [] →
              handled = openingMessages p))
        ∧ ∃ out, List.Forall₂ (Message.Says .reference) out (handedOut p u)
          ∧ ∀ cs read r, Delivered (putOn p (putsOf openingLife.relay)) cs →
            Balanced .new cs read r → (∀ m ∈ read, m.Accepted .reference) →
            read <+: out ∧ (r.unread = [] → read = out) := by
  have hz := Zvariant.reference_followsSpec
  have hrun : openingLife.Runs referenceLibs 0 (Session.new sandboxOnly none)
      openingRelay := ⟨opening_kept.of_meeting,
        (holds_authHostBus hz).mpr ⟨promptWelcome, rfl⟩, opening_run⟩
  have hacc : ∀ p, ∀ msg ∈ openingMessages p,
      msg.Accepted referenceLibs.zvariant := by
    intro p
    rcases p with _ | _ | _ <;> decide +kernel
  have hsignals : (Session.new sandboxOnly none).allOrdinary referenceLibs
      [.bus .host (fdSignal 1 2), .client (fdSignal 2 0)] = true := by
    decide +kernel
  have hordinary : Steps (Meeting (Session.Step referenceLibs)
      (Session.Ordinary referenceLibs.zvariant))
      (Session.new sandboxOnly none) (messages (loopTrace openingLife.relay))
      openingRelay.loop.session :=
    ordinary_run hz (by decide +kernel) (by decide +kernel) hsignals
  exact letters_delivered (L := referenceLibs) (h := negotiation) hz hrun
    opening_attended hordinary hacc opening_sent opening_handsOut

end DbusRouter.Model
