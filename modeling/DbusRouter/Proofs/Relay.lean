/-
The loop at its sockets is the loop on messages.

Chunks, dropped reads and partial writes leave no trace: a run at the sockets
is a run of `ForwardLoop` on the messages it reads, on each socket every byte
and every descriptor that the reader has received is in one of those messages
or still in the reader, and each socket has been given the writes of that run
whole and in order (`relay_refines_loop`). So what holds of every run on
messages holds at the sockets. One message may be lost: that of a sandbox
which is let go because its descriptors were not there (`Relay.Accounts`).

A message says itself where it ends, so no two ways of cutting what arrived
into messages differ: what is handled of a peer is a beginning of what the
peer sent, each message once and with its own descriptors
(`relay_handles_what_was_sent`). A peer that sends its descriptors loses none
(`Forfeited.not_arrives`).
-/
import DbusRouter.Lib.Token
import DbusRouter.Model.Relay
import DbusRouter.Proofs.Account
import DbusRouter.Proofs.Hostpass
import DbusRouter.Proofs.Writer

namespace DbusRouter.Model

open Wire Lib

-- ================================================================== one read

/-- A `fill` that returns is a `fill` on the chunks of its script. -/
theorem fill_of_fillCall {n : Nat} {ws rest : List Wait} {r r' : DbusReader}
    {b : Bool} (h : r.fillCall n ws = .ok (.returned b r' rest)) :
    r.fill n (chunks ws) = .ok (b, r', chunks rest) := by
  induction ws generalizing r with
  | nil =>
      rw [fillCall_nil] at h
      obtain ⟨k, hk, h⟩ := Outcome.bind_eq_ok h
      cases h
      rw [chunks, fill_nil, hk, Outcome.ok_bind]
  | cons w ws ih =>
      cases w with
      | dropped =>
          rw [fillCall_dropped] at h
          obtain ⟨k, hk, h⟩ := Outcome.bind_eq_ok h
          split at h
          next hle =>
            cases h
            rw [fill_of_le hk hle]
          next => cases h
      | chunk c =>
          rw [fillCall_chunk] at h
          obtain ⟨k, hk, h⟩ := Outcome.bind_eq_ok h
          rw [chunks, fill_cons, hk, Outcome.ok_bind]
          split at h
          next hle =>
            cases h
            rw [if_pos hle]
            rfl
          next hlt =>
            rw [if_neg hlt]
            split at h
            next hc =>
              cases h
              rw [if_pos hc]
            next hc =>
              obtain ⟨r₁, hr₁, h⟩ := Outcome.bind_eq_ok h
              rw [if_neg hc, hr₁, Outcome.ok_bind]
              exact ih h

/-- A call that returns reads what its chunks give. -/
theorem readMessageFrom_of_call {z : Zvariant} {r r' : DbusReader}
    {ws rest : List Wait} {m : Option Message}
    (h : readMessageCall z r ws = .ok (.returned m r' rest)) :
    readMessageFrom z r (chunks ws) = .ok (m, r', chunks rest) := by
  unfold readMessageCall at h
  obtain ⟨inner, hinner, h⟩ := Outcome.bind_eq_ok h
  rw [readMessageFrom_eq]
  cases inner with
  | dropped => cases h
  | returned b r₁ rest₁ =>
      rw [fill_of_fillCall hinner, Outcome.ok_bind]
      cases b with
      | false =>
          cases h
          rfl
      | true =>
          unfold readMessageBody at h
          obtain ⟨head, hhead, h⟩ := Outcome.bind_eq_ok h
          obtain ⟨p, hp, h⟩ := Outcome.bind_eq_ok h
          obtain ⟨inner₂, hinner₂, h⟩ := Outcome.bind_eq_ok h
          simp only [Bool.not_true, Bool.false_eq_true, if_false, hhead, hp,
            Outcome.ok_bind]
          cases inner₂ with
          | dropped => cases h
          | returned b r₂ rest₂ =>
              rw [fill_of_fillCall hinner₂, Outcome.ok_bind]
              cases b with
              | false => cases h
              | true =>
                  obtain ⟨raw, hraw, h⟩ := Outcome.bind_eq_ok h
                  obtain ⟨r₃, hr₃, h⟩ := Outcome.bind_eq_ok h
                  obtain ⟨buf, hbuf, h⟩ := Outcome.bind_eq_ok h
                  obtain ⟨⟨fds, r₄⟩, hfds, h⟩ := Outcome.bind_eq_ok h
                  cases h
                  simp only [readRest, hraw, hr₃, hbuf, hfds, Bool.not_true,
                    Bool.false_eq_true, if_false, Outcome.ok_bind]

/-- The message a read returns. -/
def ReadResult.toOption : ReadResult → Option Message
  | .message msg => some msg
  | _ => none

/-- A read that waits has handed out nothing. -/
theorem readWaiting_step {z : Zvariant} {r r' : DbusReader}
    {ws : List Wait} (h : readWaiting z r ws = some r') :
    ReadStep r (chunks ws) none r' := by
  unfold readWaiting at h
  split at h
  next r₁ hcall =>
    cases h
    exact readMessageCall_whole hcall rfl
  next => cases h

/-- A read that is dropped has handed out nothing. -/
theorem readDropped_step {z : Zvariant} {r r' : DbusReader}
    {ws : List Wait} (h : readDropped z r ws = some r') :
    ReadStep r (chunks ws) none r' := by
  unfold readDropped at h
  split at h
  next hnil =>
    cases h
    rw [List.isEmpty_iff.mp hnil]
    exact .short .nil
  next => exact readWaiting_step h

/-- Behind both of its `fill`s a read fails where it takes descriptors. -/
theorem body_eq_err {z : Zvariant} {r₁ r₂ r₃ : DbusReader}
    {rest : List Wait} {head : Bytes} {p : Prologue} {e : Error}
    (h : readMessageBody z r₁ rest = .err e)
    (hhead : r₁.head minHeaderSize = .ok head)
    (hp : Prologue.parse head = .ok p)
    (hfill : r₁.fillCall p.totalLen rest = .ok (.returned true r₂ []))
    (hr₃ : r₂.consume p.totalLen = .ok r₃) :
    ∃ raw n, r₂.head p.totalLen = .ok raw
      ∧ (parseHeaderFields z ((raw.drop minHeaderSize).take p.arrayLen)
          p.endian).unixFds = some n
      ∧ (maxFdsPerMessage < n ∨ r₃.fdq.length < n) := by
  unfold readMessageBody at h
  rw [hhead, Outcome.ok_bind, hp, Outcome.ok_bind] at h
  dsimp only at h
  rw [hfill, Outcome.ok_bind] at h
  rcases Outcome.bind_eq_err h with hno | ⟨raw, hraw, h⟩
  · exact absurd hno (DbusReader.head_ne_err r₂ _ e)
  · rw [hr₃, Outcome.ok_bind] at h
    rcases Outcome.bind_eq_err h with hno | ⟨buf, hbuf, h⟩
    · unfold slice at hno
      split at hno <;> cases hno
    · obtain ⟨-, rfl⟩ := slice_eq_ok hbuf
      rcases Outcome.bind_eq_err h with hfds | ⟨x, -, h⟩
      · obtain ⟨n, hn, hlt⟩ := takeDeclaredFds_eq_err hfds
        rw [Prologue.headerEnd, Nat.add_sub_cancel_left] at hn
        exact ⟨raw, n, hraw, hn, hlt⟩
      · cases h

/-- A read that fails has handed out nothing, and loses nothing but a message
whose descriptors are not there. -/
theorem readFailed_step {z : Zvariant} {r r' : DbusReader}
    {ws : List Wait} {e : Error} (h : readMessageCall z r ws = .err e)
    (hr' : readFailed r ws = some r') :
    ReadStep r (chunks ws) none r'
      ∨ ∃ raw, ReadLoss z r (chunks ws) raw r' := by
  unfold readFailed at hr'
  split at hr'
  next r₁ rest hfirst =>
    obtain ⟨us, rfl, hreceived⟩ := fillCall_receives hfirst
    unfold readMessageCall at h
    rw [hfirst, Outcome.ok_bind] at h
    split at hr'
    next p hparse =>
      obtain ⟨head, hhead, hp⟩ := Outcome.bind_eq_ok hparse
      obtain ⟨hbody, harray⟩ := Prologue.limits_of_parse hp
      split at hr'
      next r₂ hsecond =>
        have hreceived' := fillCall_receives_whole hsecond rfl
        split at hr'
        next r₃ hr₃ =>
          cases hr'
          right
          obtain ⟨raw, n, hraw, hn, hlt⟩ :=
            body_eq_err h hhead hp hsecond hr₃
          have hbegin := hreceived'.head_take hhead hraw p.minHeaderSize_le
          obtain ⟨hle, rfl⟩ := DbusReader.head_eq_ok hraw
          obtain ⟨hunread, hfdq, hsane, hstart⟩ :=
            DbusReader.consume_eq_ok hr₃ hle
          refine ⟨_, ⟨p, r₁, r₂, chunks us, chunks rest, chunks_append _ _,
            hreceived, hreceived', hbody, harray, ?_, hfdq⟩,
            ⟨p, n, ?_, ?_, hn, hlt⟩, hsane, hstart⟩
          · rw [hunread]
            exact (List.take_append_drop ..).symm
          · rw [hbegin]
            exact hp
          · rw [List.length_take, List.length_drop]
            omega
        next => cases hr'
      next r₂ hsecond =>
        have hreceived' := fillCall_receives_whole hsecond rfl
        cases hr'
        left
        rw [chunks_append]
        exact .cut hreceived hreceived' hbody harray
      next => cases hr'
    next =>
      split at hr'
      next hnil =>
        cases hr'
        left
        rw [chunks_append, show rest = [] from List.isEmpty_iff.mp hnil]
        exact (List.append_nil (chunks us)).symm ▸ .short hreceived
      next => cases hr'
  next => cases hr'

/-- The read that completes has handed out its message and nothing else of
what the reader held or was brought, or it has lost a message. -/
theorem readCompleted_cases {z : Zvariant} {r r' : DbusReader}
    {ws : List Wait} {ending : ReadEnd} {res : ReadResult}
    (h : readCompleted z r ws ending = some (res, r')) :
    (ReadStep r (chunks ws) res.toOption r'
        ∧ ∀ msg, res = .message msg → msg.Accepted z)
      ∨ ((∃ e, res = .failed e) ∧ ∃ raw, ReadLoss z r (chunks ws) raw r') := by
  unfold readCompleted at h
  cases ending with
  | returns =>
      simp only at h
      split at h
      next msg r₁ hcall =>
        cases h
        refine Or.inl ⟨readMessageCall_whole hcall rfl, fun m hm => ?_⟩
        cases hm
        exact readMessageFrom_accepted (readMessageFrom_of_call hcall)
      next r₁ hcall =>
        cases h
        exact Or.inl ⟨readMessageCall_whole hcall rfl,
          fun _ hm => by cases hm⟩
      next e hcall =>
        obtain ⟨r₁, hr₁, heq⟩ := Option.map_eq_some_iff.mp h
        cases heq
        rcases readFailed_step hcall hr₁ with hreads | hloss
        · exact Or.inl ⟨hreads, fun _ hm => by cases hm⟩
        · exact Or.inr ⟨⟨e, rfl⟩, hloss⟩
      next => cases h
  | recvFails text =>
      obtain ⟨r₁, hr₁, heq⟩ := Option.map_eq_some_iff.mp h
      cases heq
      exact Or.inl ⟨readWaiting_step hr₁, fun _ hm => by cases hm⟩
  | recvRefuses c =>
      simp only at h
      split at h
      next r₁ hr₁ =>
        split at h
        next =>
          cases h
          exact Or.inl ⟨readWaiting_step hr₁, fun _ hm => by cases hm⟩
        next => cases h
      next => cases h

-- ================================================================== the reads

section turn

variable {L : Libs} {R R' : Relay} {i : Round} {o : Relayed}

theorem takenFrom_snoc (p : Peer) (t : RelayTrace) (i : Round)
    (o : Relayed) : takenFrom p (t ++ [(i, o)])
      = takenFrom p t ++ takenFrom p [(i, o)] :=
  List.filterMap_append

theorem arrivedFrom_snoc (p : Peer) (t : RelayTrace) (i : Round)
    (o : Relayed) : arrivedFrom p (t ++ [(i, o)])
      = arrivedFrom p t ++ arrivedFrom p [(i, o)] :=
  List.flatMap_append

theorem takenFrom_single (p : Peer) (i : Round) (o : Relayed) :
    takenFrom p [(i, o)] = if i.ready = p then o.read.toOption.toList
      else [] := by
  unfold takenFrom
  rw [List.filterMap_cons, List.filterMap_nil]
  cases o.read with
  | message msg =>
      by_cases h : i.ready = p
      · simp [h, ReadResult.toOption]
      · simp [h]
  | disconnected => simp [ReadResult.toOption]
  | failed e => simp [ReadResult.toOption]

theorem arrivedFrom_single (p : Peer) (i : Round) (o : Relayed) :
    arrivedFrom p [(i, o)] = chunks (i.waits p) :=
  List.append_nil _

/-- What a turn does to the reader of a peer: it takes what arrives and hands
out the message that is read, or loses a message of a read that fails. -/
theorem turn_reader (h : R.Turns L i o R') (p : Peer) :
    (ReadStep (R.readers p) (arrivedFrom p [(i, o)])
        (takenFrom p [(i, o)]).head? (R'.readers p)
      ∧ (takenFrom p [(i, o)]).head?.toList = takenFrom p [(i, o)])
    ∨ ((i.ready = p ∧ ∃ e, o.read = .failed e) ∧ ∃ raw,
      ReadLoss L.zvariant (R.readers p) (arrivedFrom p [(i, o)]) raw
        (R'.readers p)) := by
  rw [takenFrom_single, arrivedFrom_single]
  by_cases hp : i.ready = p
  · subst hp
    rw [if_pos rfl]
    rcases readCompleted_cases h.completed with ⟨hreads, -⟩ | ⟨hfail, hloss⟩
    · left
      cases hres : o.read.toOption with
      | none =>
          rw [hres] at hreads
          exact ⟨hreads, rfl⟩
      | some msg =>
          rw [hres] at hreads
          exact ⟨hreads, rfl⟩
    · exact Or.inr ⟨⟨rfl, hfail⟩, hloss⟩
  · rw [if_neg hp]
    exact Or.inl
      ⟨readDropped_step (h.dropped p fun heq => hp heq.symm), rfl⟩

/-- A turn that goes on is a turn of the loop on the message it reads. -/
theorem turn_loop (h : R.Turns L i o R') :
    R.loop.Step L (i.ready, o.read) o.writes R'.loop := by
  refine ⟨fun hp => ?_, fun msg hmsg => ?_, h.handled⟩
  · by_contra hactive
    exact (h.enabled (by simpa using hactive)).1 hp
  · rcases readCompleted_cases h.completed with ⟨-, hacc⟩ | ⟨⟨e, he⟩, -⟩
    · exact hacc msg hmsg
    · rw [he] at hmsg
      cases hmsg

/-- A turn goes on behind a read that fails only where the sandbox is let
go. -/
theorem turn_failed (h : R.Turns L i o R') {e : Error}
    (he : o.read = .failed e) :
    i.ready = .bus .sandbox ∧ R'.loop.sandboxActive = false := by
  have hturn := h.handled
  rw [he] at hturn
  unfold ForwardLoop.turn at hturn
  rcases hp : i.ready with _ | _ | _
  · rw [hp] at hturn
    cases hturn
  · rw [hp] at hturn
    cases hturn
  · rw [hp] at hturn
    simp only at hturn
    split at hturn
    next => cases hturn
    next =>
      obtain ⟨hl, -⟩ := Turn.next.inj (Outcome.ok.inj hturn)
      rw [← hl]
      exact ⟨rfl, rfl⟩

/-- A sandbox that has been let go stays so, and its reader as it is. -/
theorem turn_gone (h : R.Turns L i o R')
    (hgone : R.loop.sandboxActive = false) :
    R'.loop.sandboxActive = false
      ∧ R'.readers (.bus .sandbox) = R.readers (.bus .sandbox)
      ∧ arrivedFrom (.bus .sandbox) [(i, o)] = []
      ∧ takenFrom (.bus .sandbox) [(i, o)] = [] := by
  obtain ⟨hready, hwaits⟩ := h.enabled hgone
  refine ⟨?_, ?_, ?_, ?_⟩
  · rcases loop_cases (turn_loop h) with ⟨msg, -, -, hl⟩ | ⟨-, -, -, hl⟩
    · rw [hl]
      exact hgone
    · rw [hl]
  · have hdropped := h.dropped _ fun heq => hready heq.symm
    rw [hwaits] at hdropped
    exact (Option.some.inj hdropped).symm
  · rw [arrivedFrom_single, hwaits]
    rfl
  · rw [takenFrom_single, if_neg hready]

end turn

/-- A message that a read completes with and the session handles makes a
turn, whatever becomes of its writes. -/
theorem turns_of_step {L : Libs} {R : Relay} {i : Round} {msg : Message}
    {ws : List Write} {s' : Session} {readers : Peer → DbusReader}
    (henabled : R.loop.sandboxActive = true)
    (hcompleted : readCompleted L.zvariant (R.readers i.ready)
      (i.waits i.ready) i.ending = some (.message msg, readers i.ready))
    (hdropped : ∀ p, p ≠ i.ready →
      readDropped L.zvariant (R.readers p) (i.waits p) = some (readers p))
    (h : R.loop.session.Step L (i.ready.event msg) ws s') :
    R.Turns L i ⟨.message msg, ws, (sendAll ws i.sends).1⟩
      ⟨{ R.loop with session := s' }, readers⟩ where
  enabled := by
    rw [henabled]
    intro hno
    cases hno
  completed := hcompleted
  dropped := hdropped
  handled := (turn_of_step (fun _ => henabled) h).2.2
  puts_eq := rfl

-- ================================================================= the writes

/-- What a socket has been given is writes, whole and in order, each with its
descriptors at its first byte. -/
inductive PutWhole : List Write → List Segment → Prop
  | nil : PutWhole [] []
  | cons {w : Write} {ws : List Write} {part rest : List Segment}
      (hbytes : taken part = w.raw) (hfds : AttachedFirst w.fds part)
      (hrest : PutWhole ws rest) : PutWhole (w :: ws) (part ++ rest)

/-- A beginning of writes, of which the last may be there in part. -/
inductive PutUpTo : List Write → List Segment → Prop
  | whole {done : List Write} {segments : List Segment} (rest : List Write)
      (h : PutWhole done segments) : PutUpTo (done ++ rest) segments
  | cut {done : List Write} {w : Write} {segments part : List Segment}
      (rest : List Write) (h : PutWhole done segments)
      (hbytes : taken part <+: w.raw) (hfds : AttachedFirst w.fds part) :
      PutUpTo (done ++ w :: rest) (segments ++ part)

theorem taken_append (a b : List Segment) :
    taken (a ++ b) = taken a ++ taken b :=
  List.flatMap_append

theorem PutWhole.append {ws vs : List Write} {a b : List Segment}
    (h : PutWhole ws a) (h' : PutWhole vs b) :
    PutWhole (ws ++ vs) (a ++ b) := by
  induction h with
  | nil => exact h'
  | cons hbytes hfds _ ih =>
      rw [List.append_assoc]
      exact .cons hbytes hfds ih

theorem PutWhole.bytes_eq {ws : List Write} {segments : List Segment}
    (h : PutWhole ws segments) : taken segments = ws.flatMap (·.raw) := by
  induction h with
  | nil => rfl
  | cons hbytes _ _ ih => rw [taken_append, hbytes, ih, List.flatMap_cons]

theorem PutWhole.append_upTo {ws vs : List Write} {a b : List Segment}
    (h : PutWhole ws a) (h' : PutUpTo vs b) : PutUpTo (ws ++ vs) (a ++ b) := by
  cases h' with
  | whole rest h' =>
      rw [← List.append_assoc]
      exact .whole rest (h.append h')
  | cut rest h' hbytes hfds =>
      rw [← List.append_assoc, ← List.append_assoc]
      exact .cut rest (h.append h') hbytes hfds

/-- Nothing is put that is not a beginning of what is to be written. -/
theorem PutUpTo.isPrefix {ws : List Write} {segments : List Segment}
    (h : PutUpTo ws segments) : taken segments <+: ws.flatMap (·.raw) := by
  cases h with
  | whole rest h =>
      rw [h.bytes_eq, List.flatMap_append]
      exact List.prefix_append ..
  | cut rest h hbytes =>
      rw [taken_append, h.bytes_eq, List.flatMap_append, List.flatMap_cons]
      exact (List.prefix_append_right_inj _).mpr
        (hbytes.trans (List.prefix_append ..))

theorem sendAll_cons (w : Write) (ws : List Write)
    (sends : List (List Sendmsg)) :
    sendAll (w :: ws) sends =
      (let run := DbusWriter.sendCalls (sends.headD []) w.raw w.fds
       let put := run.sent.map (⟨w.peer, ·⟩)
       if run.returned = some (.ok ()) then
         let (puts, made) := sendAll ws sends.tail
         (put ++ puts, made)
       else (put, false)) := rfl

theorem putOn_append (p : Peer) (a b : List Put) :
    putOn p (a ++ b) = putOn p a ++ putOn p b := by
  unfold putOn
  rw [List.filter_append, List.map_append]

theorem putOn_map (p q : Peer) (segments : List Segment) :
    putOn p (segments.map (⟨q, ·⟩)) = if q = p then segments else [] := by
  induction segments with
  | nil => simp [putOn]
  | cons s segments ih =>
      have hcons : putOn p ((s :: segments).map (⟨q, ·⟩))
          = putOn p [⟨q, s⟩] ++ putOn p (segments.map (⟨q, ·⟩)) :=
        putOn_append p [⟨q, s⟩] _
      rw [hcons, ih]
      by_cases h : q = p
      · simp [putOn, h]
      · simp [putOn, h]

/-- Writes that are all made have been put on their sockets. -/
theorem sendAll_whole {ws : List Write} {sends : List (List Sendmsg)}
    (hws : ∀ w ∈ ws, w.fds.length ≤ maxFdsPerMessage)
    (h : (sendAll ws sends).2 = true) (p : Peer) :
    PutWhole (ws.filter (·.peer = p)) (putOn p (sendAll ws sends).1) := by
  induction ws generalizing sends with
  | nil => exact .nil
  | cons w ws ih =>
      have hw := hws w (List.mem_cons_self ..)
      have hsound := DbusWriter.sendCalls_sound w.raw (sends.headD []) hw
      rw [sendAll_cons] at h ⊢
      simp only at h ⊢
      split at h
      next hok =>
        have hrest := ih (fun v hv => hws v (List.mem_cons_of_mem _ hv)) h
        rw [if_pos hok, putOn_append, putOn_map]
        by_cases hp : w.peer = p
        · rw [if_pos hp, List.filter_cons_of_pos (by simpa using hp)]
          exact .cons (hsound.complete.mp hok) hsound.attached hrest
        · rw [if_neg hp, List.filter_cons_of_neg (by simpa using hp)]
          exact hrest
      next => cases h

/-- Of writes that are not all made a beginning has been put there. -/
theorem sendAll_upTo {ws : List Write} (sends : List (List Sendmsg))
    (hws : ∀ w ∈ ws, w.fds.length ≤ maxFdsPerMessage) (p : Peer) :
    PutUpTo (ws.filter (·.peer = p)) (putOn p (sendAll ws sends).1) := by
  induction ws generalizing sends with
  | nil => exact .whole [] .nil
  | cons w ws ih =>
      have hw := hws w (List.mem_cons_self ..)
      have hsound := DbusWriter.sendCalls_sound w.raw (sends.headD []) hw
      rw [sendAll_cons]
      simp only
      split
      next hok =>
        have hrest := ih sends.tail
          fun v hv => hws v (List.mem_cons_of_mem _ hv)
        rw [putOn_append, putOn_map]
        by_cases hp : w.peer = p
        · rw [if_pos hp, List.filter_cons_of_pos (by simpa using hp)]
          have hfirst := PutWhole.cons (hsound.complete.mp hok)
            hsound.attached .nil
          rw [List.append_nil] at hfirst
          exact hfirst.append_upTo hrest
        · rw [if_neg hp, List.filter_cons_of_neg (by simpa using hp)]
          exact hrest
      next =>
        rw [putOn_map]
        by_cases hp : w.peer = p
        · rw [if_pos hp, List.filter_cons_of_pos (by simpa using hp)]
          exact .cut _ .nil hsound.isPrefix hsound.attached
        · rw [if_neg hp]
          exact .whole _ .nil

/-- What is written on a message has the descriptors of that message, or
none. -/
theorem step_fds {L : Libs} {s s' : Session} {ev : Event} {ws : List Write}
    (h : s.Step L ev ws s') : ∀ w ∈ ws, w.fds = ev.msg.fds ∨ w.fds = [] := by
  rcases step_cases h with ⟨msg, rfl, hdown⟩ | ⟨b, msg, rfl, hup⟩
  · cases hdown with
    | reply | toBus | toBoth | merge =>
        intro w hw
        simp only [List.mem_cons, List.not_mem_nil, or_false] at hw
        rcases hw with rfl | rfl <;> exact Or.inl rfl
  · cases hup with
    | firstHalf =>
        intro w hw
        cases hw
    | serviceCall | secondHalf | forwarded =>
        intro w hw
        rw [List.mem_singleton] at hw
        subst hw
        simp [Event.msg]

/-- Every write of a turn has no more descriptors than a message may. -/
theorem turn_fds {L : Libs} {l l' : ForwardLoop} {i : Peer × ReadResult}
    {ws : List Write} (h : l.Step L i ws l') :
    ∀ w ∈ ws, w.fds.length ≤ maxFdsPerMessage := by
  obtain ⟨p, r⟩ := i
  rcases loop_cases h with ⟨msg, rfl, hs, -⟩ | ⟨-, -, rfl, -⟩
  · have hmsg : (p.event msg).msg = msg := by cases p <;> rfl
    have hacc := hs.1
    rw [hmsg] at hacc
    intro w hw
    rcases step_fds hs w hw with hfds | hfds
    · rw [hfds, hmsg]
      exact hacc.fds_le
    · rw [hfds]
      exact Nat.zero_le _
  · simp

-- ====================================================================== runs

/-- The account of a peer's reader: it balances, or the sandbox has been let
go after a message whose descriptors were not there. -/
def Relay.Accounts (z : Zvariant) (R : Relay) (p : Peer) (cs : List Chunk)
    (ms : List Message) : Prop :=
  Balanced .new cs ms (R.readers p)
    ∨ (p = .bus .sandbox ∧ R.loop.sandboxActive = false)
      ∧ ∃ raw, Forfeited z cs ms raw (R.readers p)

/-- What the loop on messages sees of a trace. -/
def loopTrace (t : RelayTrace) : List ((Peer × ReadResult) × List Write) :=
  t.map fun x => ((x.1.ready, x.2.read), x.2.writes)

theorem loopTrace_snoc (t : RelayTrace) (i : Round) (o : Relayed) :
    loopTrace (t ++ [(i, o)])
      = loopTrace t ++ [((i.ready, o.read), o.writes)] :=
  List.map_append

theorem writesFor_snoc (p : Peer) (t : RelayTrace) (i : Round)
    (o : Relayed) : writesFor p (t ++ [(i, o)])
      = writesFor p t ++ o.writes.filter (·.peer = p) := by
  simp [writesFor]

theorem putsOf_snoc (t : RelayTrace) (i : Round) (o : Relayed) :
    putsOf (t ++ [(i, o)]) = putsOf t ++ o.puts := by
  simp [putsOf]

section run

variable {L : Libs} {s : Session} {t : RelayTrace} {R : Relay}

/-- A run at the sockets is a run of the loop. -/
theorem relay_loop (h : RelayRun L (s.relay L) t R) :
    LoopRun L (s.forwardLoop L) (loopTrace t) R.loop := by
  refine h.history
    (P := fun t R => LoopRun L (s.forwardLoop L) (loopTrace t) R.loop) .nil ?_
  intro t R i o R' _ hrun hstep
  rw [loopTrace_snoc]
  exact .snoc hrun (turn_loop hstep.1)

/-- No byte and no descriptor that a reader has received is unaccounted
for. -/
theorem relay_accounts (h : RelayRun L (s.relay L) t R) (p : Peer) :
    R.Accounts L.zvariant p (arrivedFrom p t) (takenFrom p t) := by
  refine h.history (P := fun t R =>
    R.Accounts L.zvariant p (arrivedFrom p t) (takenFrom p t))
    (Or.inl (.refl (Nat.le_refl _))) ?_
  intro t R i o R' _ ih hstep
  rw [arrivedFrom_snoc, takenFrom_snoc]
  rcases ih with hbal | ⟨⟨rfl, hgone⟩, raw, hlost⟩
  · rcases turn_reader hstep.1 p with ⟨hreads, hmsgs⟩
      | ⟨⟨rfl, e, he⟩, raw, hloss⟩
    · rw [← hmsgs]
      exact Or.inl (hbal.trans (hreads.balanced hbal.sane))
    · have hnone : takenFrom i.ready [(i, o)] = [] := by
        rw [takenFrom_single, if_pos rfl, he]
        rfl
      rw [hnone, List.append_nil]
      exact Or.inr ⟨turn_failed hstep.1 he, raw, hloss.forfeited hbal⟩
  · obtain ⟨hgone', hreader, harrived, htaken⟩ := turn_gone hstep.1 hgone
    rw [harrived, htaken, List.append_nil, List.append_nil]
    refine Or.inr ⟨⟨rfl, hgone'⟩, raw, ?_⟩
    rw [hreader]
    exact hlost

/-- What each socket has been given. -/
theorem relay_puts (h : RelayRun L (s.relay L) t R) (p : Peer) :
    PutWhole (writesFor p t) (putOn p (putsOf t)) := by
  refine h.history (P := fun t _ =>
    PutWhole (writesFor p t) (putOn p (putsOf t))) .nil ?_
  intro t R i o R' _ hput hstep
  obtain ⟨hturn, hmade⟩ := hstep
  rw [writesFor_snoc, putsOf_snoc, putOn_append, hturn.puts_eq]
  exact hput.append (sendAll_whole (turn_fds (turn_loop hturn)) hmade p)

/-- The host's signal with two descriptors arrives in two parts, while three
bytes of the client's next message arrive; the client takes it in two
parts. -/
def signalRound : Round where
  ready := .bus .host
  ending := .returns
  waits
    | .client => [.chunk ⟨(fdSignal 2 0).raw.take 3, []⟩, .dropped]
    | .bus .host => [.chunk ⟨(fdSignal 1 2).raw.take 16, [0, 1]⟩,
        .chunk ⟨(fdSignal 1 2).raw.drop 16, []⟩]
    | .bus .sandbox => []
  sends := [[.accepts 20, .wouldBlock, .accepts 1000]]

/-- What a session without routes writes on it. -/
def signalWrites : List Write :=
  ((Session.new sandboxOnly none).react referenceLibs
    (.bus .host (fdSignal 1 2))).2

def signalRelayed : Relayed :=
  ⟨.message (fdSignal 1 2), signalWrites,
    (sendAll signalWrites signalRound.sends).1⟩

/-- The readers after it: half a prologue waits at the client's. -/
def signalReaders : Peer → DbusReader
  | .client => ⟨(fdSignal 2 0).raw.take 3, 0, []⟩
  | .bus _ => .new

/-- The loop and its readers then. -/
def signalRelay : Relay where
  loop := { (Session.new sandboxOnly none).forwardLoop referenceLibs with
    session := ((Session.new sandboxOnly none).react referenceLibs
      (.bus .host (fdSignal 1 2))).1 }
  readers := signalReaders

theorem signal_run : RelayRun referenceLibs
    ((Session.new sandboxOnly none).relay referenceLibs)
    [(signalRound, signalRelayed)] signalRelay := by
  have hstep : (Session.new sandboxOnly none).Step referenceLibs
      (.bus .host (fdSignal 1 2)) signalWrites _ :=
    step_react (by decide +kernel) (by decide +kernel)
  have hdropped : ∀ p, p ≠ signalRound.ready →
      readDropped referenceLibs.zvariant .new (signalRound.waits p)
        = some (signalReaders p) := by
    intro p hp
    rcases p with _ | _ | _
    · decide +kernel
    · exact absurd rfl hp
    · decide +kernel
  have hturn := turns_of_step (L := referenceLibs)
    (R := (Session.new sandboxOnly none).relay referenceLibs) rfl
    (by decide +kernel) hdropped hstep
  exact .single ⟨hturn, by decide +kernel⟩

/-- No peer can make a reader hold more than one message of the largest
size, what one `recvmsg` brings, and 64 descriptors, however long the session
lasts. -/
theorem relay_bounded (h : RelayRun L (s.relay L) t R)
    (hsmall : ∀ x ∈ t, ∀ p, ∀ c ∈ chunks (x.1.waits p),
      c.bytes.length ≤ 64 * 1024) (p : Peer) :
    (R.readers p).Bounded
      ∧ (R.readers p).buf.length ≤ maxTotalLen + 128 * 1024 := by
  have hbounded : (R.readers p).Bounded := by
    refine h.history (P := fun t R => (∀ x ∈ t, ∀ p,
      ∀ c ∈ chunks (x.1.waits p), c.bytes.length ≤ 64 * 1024) →
        (R.readers p).Bounded) (fun _ => .new) ?_ hsmall
    intro t R i o R' _ ih hstep hsmall
    have hbounded := ih fun x hx => hsmall x (List.mem_append_left _ hx)
    have hchunks : ∀ c ∈ arrivedFrom p [(i, o)],
        c.bytes.length ≤ 64 * 1024 := by
      rw [arrivedFrom_single]
      exact hsmall (i, o)
        (List.mem_append_right _ (List.mem_singleton.mpr rfl)) p
    rcases turn_reader hstep.1 p with ⟨hreads, -⟩ | ⟨-, raw, hloss⟩
    · exact hreads.bounded hchunks hbounded
    · exact hloss.bounded hchunks hbounded
  exact ⟨hbounded, hbounded.buf_le⟩

theorem relay_bounded_signal : ∃ R : Relay,
    (R.readers .client).Bounded
      ∧ (R.readers .client).buf.length ≤ maxTotalLen + 128 * 1024 := by
  refine ⟨signalRelay, relay_bounded signal_run ?_ .client⟩
  intro x hx p
  rw [List.mem_singleton] at hx
  subst hx
  rcases p with _ | _ | _ <;> decide +kernel

end run

-- ================================================================ whole frames

/-- The bytes of one message: the prologue says where they end. -/
def EndsFrame (bs : Bytes) : Prop :=
  ∃ p, Prologue.parse (bs.take minHeaderSize) = .ok p
    ∧ bs.length = p.totalLen

theorem not_endsFrame_nil : ¬EndsFrame [] := by
  rintro ⟨p, hp, -⟩
  rw [List.take_nil] at hp
  exact absurd hp (by simp [Prologue.parse, index])

/-- Bytes of the length their prologue says end there, and at no point
before. -/
theorem token_of_parse {raw : Bytes} {p : Prologue}
    (hp : Prologue.parse (raw.take minHeaderSize) = .ok p)
    (hlen : raw.length = p.totalLen) : Token EndsFrame raw := by
  refine ⟨⟨p, hp, hlen⟩, ?_⟩
  rintro u hu ⟨q, hq, hulen⟩
  have hmin := q.minHeaderSize_le
  have hhead : u.take minHeaderSize = raw.take minHeaderSize := by
    obtain ⟨v, hv⟩ := hu
    rw [← hv, List.take_append_of_le_length (by omega)]
  rw [hhead, hp, Outcome.ok.injEq] at hq
  subst hq
  exact hu.eq_of_length (by omega)

theorem Message.Accepted.token {z : Zvariant} {msg : Message}
    (h : msg.Accepted z) : Token EndsFrame msg.raw := by
  obtain ⟨p, hp, hlen, -⟩ := h.framed
  exact token_of_parse hp hlen

/-- The bytes of an accepted message say how many descriptors it has, and
what its header is. -/
theorem Message.Accepted.eq_of_raw {z : Zvariant} {m n : Message}
    (hm : m.Accepted z) (hn : n.Accepted z) (h : m.raw = n.raw) :
    m.header = n.header ∧ m.fds.length = n.fds.length := by
  obtain ⟨p, hp, -, hheader⟩ := hm.framed
  obtain ⟨q, hq, -, hheader'⟩ := hn.framed
  rw [h, hq, Outcome.ok.injEq] at hp
  subst hp
  have hsame : m.header = n.header := by rw [hheader, hheader', h]
  refine ⟨hsame, ?_⟩
  rw [hm.fds_eq, hn.fds_eq, hsame]

/-- Messages with the bytes of others and the descriptors of others are these
others. -/
theorem isPrefix_of_raws {z : Zvariant} {ms ns : List Message}
    {queue : List Fd} (hms : ∀ m ∈ ms, m.Accepted z)
    (hns : ∀ n ∈ ns, n.Accepted z)
    (hraw : ms.map (·.raw) <+: ns.map (·.raw))
    (hfds : ms.flatMap (·.fds) ++ queue <+: ns.flatMap (·.fds)) :
    ms <+: ns := by
  induction ms generalizing ns with
  | nil => exact List.nil_prefix
  | cons m ms ih =>
      cases ns with
      | nil => simp at hraw
      | cons n ns =>
          rw [List.map_cons, List.map_cons, List.cons_prefix_cons] at hraw
          obtain ⟨hhead, hrest⟩ := hraw
          obtain ⟨hheader, hlen⟩ := (hms m (List.mem_cons_self ..)).eq_of_raw
            (hns n (List.mem_cons_self ..)) hhead
          rw [List.flatMap_cons, List.flatMap_cons, List.append_assoc] at hfds
          have hsame : m.fds = n.fds := by
            have hboth := (List.prefix_append m.fds _).trans hfds
            have hn : n.fds <+: n.fds ++ ns.flatMap (·.fds) :=
              List.prefix_append ..
            exact (List.prefix_of_prefix_length_le hboth hn (by omega)
              ).eq_of_length hlen
          rw [hsame, List.prefix_append_right_inj] at hfds
          have heq : m = n := by
            cases m
            cases n
            simp_all
          rw [heq, List.cons_prefix_cons]
          exact ⟨rfl, ih (fun k hk => hms k (List.mem_cons_of_mem _ hk))
            (fun k hk => hns k (List.mem_cons_of_mem _ hk)) hrest hfds⟩

-- ==================================================================== the peers

/-- What pieces of a stream are received as has their bytes and descriptors,
in order. -/
theorem received_eq {pieces : List (List StreamByte)}
    (h : ∀ piece ∈ pieces, Receivable piece) :
    bytesIn (pieces.map received) = pieces.flatten.map (·.byte)
      ∧ fdsIn (pieces.map received) = pieces.flatten.flatMap (·.fds) := by
  induction pieces with
  | nil => exact ⟨rfl, rfl⟩
  | cons piece pieces ih =>
      obtain ⟨hbytes, hfds⟩ := ih fun q hq => h q (List.mem_cons_of_mem _ hq)
      have hne := received_bytes_isEmpty (h piece (List.mem_cons_self ..)).1
      refine ⟨?_, ?_⟩
      · rw [List.map_cons, bytesIn_cons, hbytes, List.flatten_cons,
          List.map_append]
        rfl
      · rw [List.map_cons, fdsIn_cons hne, hfds, List.flatten_cons,
          List.flatMap_append]
        rfl

/-- What is delivered are the bytes and descriptors that were sent, in
order. -/
theorem delivered_eq {segments : List Segment} {cs : List Chunk}
    (h : Delivered segments cs) :
    bytesIn cs = (segments.flatMap Segment.stream).map (·.byte)
      ∧ fdsIn cs = (segments.flatMap Segment.stream).flatMap (·.fds) := by
  obtain ⟨pieces, hstream, hpieces, rfl⟩ := h
  rw [← hstream]
  exact received_eq hpieces

/-- The bytes and the descriptors of messages on a stream. -/
theorem carried_eq {msgs : List Message} {ss : List (List StreamByte)}
    (h : List.Forall₂ Carries msgs ss) :
    ss.flatten.map (·.byte) = msgs.flatMap (·.raw)
      ∧ ss.flatten.flatMap (·.fds) = msgs.flatMap (·.fds) := by
  induction h with
  | nil => exact ⟨rfl, rfl⟩
  | cons hcarries _ ih =>
      obtain ⟨hbytes, hfds⟩ := ih
      refine ⟨?_, ?_⟩
      · rw [List.flatten_cons, List.map_append, hbytes, hcarries.bytes,
          List.flatMap_cons]
      · rw [List.flatten_cons, List.flatMap_append, hfds, hcarries.fds,
          List.flatMap_cons]

/-- The bytes and the descriptors of messages that are sent. -/
theorem sent_eq {z : Zvariant} {msgs : List Message}
    {segments : List Segment} (h : Sent msgs segments)
    (hacc : ∀ msg ∈ msgs, msg.Accepted z) :
    (segments.flatMap Segment.stream).map (·.byte) = msgs.flatMap (·.raw)
      ∧ (segments.flatMap Segment.stream).flatMap (·.fds)
        = msgs.flatMap (·.fds) := by
  obtain ⟨ss, hss, hstream⟩ := sent_carries h hacc
  rw [hstream]
  exact carried_eq hss

/-- A beginning of a stream has arrived in chunks. -/
def Arrives (stream : List StreamByte) (cs : List Chunk) : Prop :=
  ∃ front, front <+: stream ∧ bytesIn cs = front.map (·.byte)
    ∧ fdsIn cs = front.flatMap (·.fds)

/-- The first chunks that are delivered bring a beginning of what was
sent. -/
theorem Delivered.arrives {segments : List Segment} {cs ds : List Chunk}
    (h : Delivered segments cs) (hds : ds <+: cs) :
    Arrives (segments.flatMap Segment.stream) ds := by
  obtain ⟨pieces, hstream, hpieces, rfl⟩ := h
  obtain ⟨n, hn⟩ : ∃ n, ds = (pieces.take n).map received := by
    refine ⟨ds.length, ?_⟩
    rw [List.map_take]
    exact List.prefix_iff_eq_take.mp hds
  have hin : ∀ piece ∈ pieces.take n, Receivable piece :=
    fun piece hpiece => hpieces piece (List.mem_of_mem_take hpiece)
  subst hn
  refine ⟨(pieces.take n).flatten, ?_, received_eq hin⟩
  rw [← hstream]
  exact (List.take_prefix n pieces).flatten

/-- So it has brought a beginning of the messages that were sent. -/
theorem Arrives.isPrefix {z : Zvariant} {msgs : List Message}
    {segments : List Segment} {cs : List Chunk}
    (h : Arrives (segments.flatMap Segment.stream) cs)
    (hsent : Sent msgs segments) (hacc : ∀ m ∈ msgs, m.Accepted z) :
    bytesIn cs <+: msgs.flatMap (·.raw)
      ∧ fdsIn cs <+: msgs.flatMap (·.fds) := by
  obtain ⟨front, ⟨rest, hrest⟩, hbytes, hfds⟩ := h
  obtain ⟨hbytes', hfds'⟩ := sent_eq hsent hacc
  rw [← hbytes', ← hfds', hbytes, hfds, ← hrest, List.map_append,
    List.flatMap_append]
  exact ⟨List.prefix_append .., List.prefix_append ..⟩

/-- Every message that is read is accepted. -/
theorem takenFrom_accepted {L : Libs} {s : Session} {t : RelayTrace}
    {R : Relay} (h : RelayRun L (s.relay L) t R) (p : Peer) :
    ∀ msg ∈ takenFrom p t, msg.Accepted L.zvariant := by
  refine h.history (P := fun t _ => ∀ msg ∈ takenFrom p t,
    msg.Accepted L.zvariant) (by simp [takenFrom]) ?_
  intro t R i o R' _ ih hstep msg hmsg
  rw [takenFrom_snoc, List.mem_append] at hmsg
  rcases hmsg with hmsg | hmsg
  · exact ih msg hmsg
  · rw [takenFrom_single] at hmsg
    split at hmsg
    next =>
      have hacc := (turn_loop hstep.1).2.1
      cases hread : o.read with
      | message m =>
          rw [hread] at hmsg hacc
          rw [ReadResult.toOption, Option.mem_toList] at hmsg
          cases hmsg
          exact hacc msg rfl
      | disconnected | failed =>
          rw [hread] at hmsg
          simp [ReadResult.toOption] at hmsg
    next => cases hmsg

/-- A reader on which a beginning of some messages has arrived has handed out
a beginning of them, and all of them once nothing is left in it. -/
theorem Balanced.handled {z : Zvariant} {cs : List Chunk}
    {taken msgs : List Message} {r : DbusReader}
    (h : Balanced .new cs taken r) (htaken : ∀ m ∈ taken, m.Accepted z)
    (hacc : ∀ m ∈ msgs, m.Accepted z)
    (hbytes : bytesIn cs <+: msgs.flatMap (·.raw))
    (hfds : fdsIn cs <+: msgs.flatMap (·.fds)) :
    taken <+: msgs ∧ (bytesIn cs = msgs.flatMap (·.raw) → r.unread = [] →
      taken = msgs) := by
  have hin : taken.flatMap (·.raw) ++ r.unread <+: msgs.flatMap (·.raw) := by
    rw [← h.bytes_eq]
    exact hbytes
  have hqueue : taken.flatMap (·.fds) ++ r.fdq <+: msgs.flatMap (·.fds) := by
    rw [← h.fds_eq]
    exact hfds
  have hraws : taken.map (·.raw) <+: msgs.map (·.raw) := by
    refine isPrefix_of_flatten (p := r.unread) not_endsFrame_nil ?_ ?_ ?_
    · intro w hw
      obtain ⟨m, hm, rfl⟩ := List.mem_map.mp hw
      exact (htaken m hm).token
    · intro w hw
      obtain ⟨m, hm, rfl⟩ := List.mem_map.mp hw
      exact (hacc m hm).token
    · rw [← List.flatMap_def, ← List.flatMap_def]
      exact hin
  have htogether := isPrefix_of_raws htaken hacc hraws hqueue
  refine ⟨htogether, fun hall hempty => ?_⟩
  obtain ⟨rest, hrest⟩ := htogether
  have hlength : (taken.flatMap (·.raw)).length
      = (msgs.flatMap (·.raw)).length := by
    have heq := h.bytes_eq
    rw [hall, hempty, List.append_nil] at heq
    rw [← heq]
    rfl
  have hnil : rest = [] := by
    cases rest with
    | nil => rfl
    | cons m rest =>
        rw [← hrest, List.flatMap_append, List.length_append,
          List.flatMap_cons, List.length_append] at hlength
        have hm := (hacc m (by rw [← hrest]; simp)).token.1
        obtain ⟨q, -, hq⟩ := hm
        have hmin := q.minHeaderSize_le
        have hpos : 0 < minHeaderSize := by decide
        omega
  rw [← hrest, hnil, List.append_nil]

/-- The descriptors of the messages whose bytes have arrived have arrived
too. -/
theorem Arrives.fds_of_whole {msgs : List Message}
    {ss : List (List StreamByte)} {cs : List Chunk}
    (h : Arrives ss.flatten cs) (hss : List.Forall₂ Carries msgs ss) (n : Nat)
    (hlen : ((msgs.take n).flatMap (·.raw)).length ≤ (bytesIn cs).length) :
    (msgs.take n).flatMap (·.fds) <+: fdsIn cs := by
  obtain ⟨front, hfront, hbytes, hfds⟩ := h
  obtain ⟨hraws, hqueue⟩ := carried_eq (List.forall₂_take n hss)
  rw [← hraws, hbytes, List.length_map, List.length_map] at hlen
  obtain ⟨rest, hrest⟩ := List.prefix_of_prefix_length_le
    (List.take_prefix n ss).flatten hfront hlen
  rw [hfds, ← hqueue, ← hrest, List.flatMap_append]
  exact List.prefix_append ..

/-- No message is lost of a peer that sends descriptors with its messages. -/
theorem Forfeited.not_arrives {z : Zvariant} {cs : List Chunk}
    {taken msgs : List Message} {raw : Bytes} {r : DbusReader}
    {segments : List Segment} (h : Forfeited z cs taken raw r)
    (htaken : ∀ m ∈ taken, m.Accepted z) (hacc : ∀ m ∈ msgs, m.Accepted z)
    (hsent : Sent msgs segments) :
    ¬Arrives (segments.flatMap Segment.stream) cs := by
  intro harrives
  obtain ⟨ss, hss, hstream⟩ := sent_carries hsent hacc
  obtain ⟨hbytes, hfds⟩ := harrives.isPrefix hsent hacc
  rw [hstream] at harrives
  obtain ⟨p, n, hparse, hlen, hdeclared, hshort⟩ := h.overdrawn
  -- the bytes of the lost message are those of the next one that was sent
  have hraws : taken.map (·.raw) ++ [raw] <+: msgs.map (·.raw) := by
    refine isPrefix_of_flatten (p := r.unread) not_endsFrame_nil ?_ ?_ ?_
    · intro w hw
      rcases List.mem_append.mp hw with hw | hw
      · obtain ⟨m, hm, rfl⟩ := List.mem_map.mp hw
        exact (htaken m hm).token
      · rw [List.mem_singleton] at hw
        rw [hw]
        exact token_of_parse hparse hlen
    · intro w hw
      obtain ⟨m, hm, rfl⟩ := List.mem_map.mp hw
      exact (hacc m hm).token
    · rw [List.flatten_append, List.flatten_singleton, List.append_assoc,
        ← List.flatMap_def, ← List.flatMap_def, ← h.bytes_eq]
      exact hbytes
  obtain ⟨next, rest, rfl, hnext⟩ : ∃ next rest,
      msgs = taken ++ next :: rest ∧ next.raw = raw := by
    rw [h.fds_eq] at hfds
    obtain ⟨rest, rfl⟩ := isPrefix_of_raws htaken hacc
      ((List.prefix_append ..).trans hraws) hfds
    rw [List.map_append, List.prefix_append_right_inj] at hraws
    cases rest with
    | nil => simp at hraws
    | cons next rest =>
        rw [List.map_cons, List.cons_prefix_cons] at hraws
        exact ⟨next, rest, rfl, hraws.1.symm⟩
  have hwhole : (taken ++ next :: rest).take (taken.length + 1)
      = taken ++ [next] := by
    rw [List.take_append, List.take_of_length_le (by omega),
      Nat.add_sub_cancel_left]
    rfl
  have hthere := harrives.fds_of_whole hss (taken.length + 1) (by
    rw [hwhole, h.bytes_eq, List.flatMap_append, List.flatMap_singleton, hnext,
      ← List.append_assoc]
    simp)
  rw [hwhole, List.flatMap_append, List.flatMap_singleton, h.fds_eq,
    List.prefix_append_right_inj] at hthere
  -- so its descriptors are queued, and it declares no others
  have hnextAcc : next.Accepted z := hacc next (by simp)
  obtain ⟨q, hq, -, hheader⟩ := hnextAcc.framed
  rw [hnext, hparse, Outcome.ok.injEq] at hq
  subst hq
  have hcount := hnextAcc.fds_eq
  rw [hheader, hnext, Prologue.intoHeader, hdeclared, Option.getD_some]
    at hcount
  have hmax := hnextAcc.fds_le
  have hqueued := hthere.length_le
  omega

/-- What is handled of a peer that has sent messages is a beginning of them,
and all of them once all have arrived and nothing is left unread. -/
theorem Relay.Accounts.handled {z : Zvariant} {R : Relay} {p : Peer}
    {cs : List Chunk} {taken msgs : List Message} {segments : List Segment}
    (h : R.Accounts z p cs taken) (htaken : ∀ m ∈ taken, m.Accepted z)
    (hacc : ∀ m ∈ msgs, m.Accepted z) (hsent : Sent msgs segments)
    (harrives : Arrives (segments.flatMap Segment.stream) cs) :
    taken <+: msgs
      ∧ (bytesIn cs = msgs.flatMap (·.raw) → (R.readers p).unread = [] →
        taken = msgs) := by
  rcases h with hbal | ⟨-, raw, hlost⟩
  · obtain ⟨hbytes, hfds⟩ := harrives.isPrefix hsent hacc
    exact hbal.handled htaken hacc hbytes hfds
  · exact absurd harrives (hlost.not_arrives htaken hacc hsent)

/-- What is handled of each peer is a beginning of what that peer sent,
message for message, each once, in order and with its own descriptors: for
every way the kernel takes the peer's writes and delivers them, every choice
of the read that completes and every read that is dropped. Once all of it has
arrived and nothing is left in the reader, it is all that the peer sent. -/
theorem relay_handles_what_was_sent {L : Libs} {s : Session}
    {t : RelayTrace} {R : Relay} {p : Peer} {msgs : List Message}
    {segments : List Segment} {cs : List Chunk}
    (h : RelayRun L (s.relay L) t R)
    (hacc : ∀ msg ∈ msgs, msg.Accepted L.zvariant)
    (hsent : Sent msgs segments) (hdelivered : Delivered segments cs)
    (harrived : arrivedFrom p t <+: cs) :
    takenFrom p t <+: msgs
      ∧ (arrivedFrom p t = cs → (R.readers p).unread = [] →
        takenFrom p t = msgs) := by
  obtain ⟨hpart, hwhole⟩ := (relay_accounts h p).handled
    (takenFrom_accepted h p) hacc hsent (hdelivered.arrives harrived)
  refine ⟨hpart, fun hall hempty => hwhole ?_ hempty⟩
  rw [hall, (delivered_eq hdelivered).1, (sent_eq hsent hacc).1]

/-- The host has sent two signals, and the first has arrived. -/
theorem relay_handles_first_signal : ∃ R : Relay,
    takenFrom (.bus .host) [(signalRound, signalRelayed)]
        <+: [fdSignal 1 2, fdSignal 2 0]
      ∧ (arrivedFrom (.bus .host) [(signalRound, signalRelayed)]
          = ((signalSegments 2 0).map Segment.stream).map received →
        (R.readers (.bus .host)).unread = [] →
        takenFrom (.bus .host) [(signalRound, signalRelayed)]
          = [fdSignal 1 2, fdSignal 2 0]) := by
  have hsent : Sent [fdSignal 1 2, fdSignal 2 0] (signalSegments 2 0) :=
    signals_sent (by decide +kernel) (by decide +kernel)
  have hdelivered : Delivered (signalSegments 2 0)
      (((signalSegments 2 0).map Segment.stream).map received) :=
    ⟨_, rfl, by decide +kernel, rfl⟩
  exact ⟨signalRelay, relay_handles_what_was_sent signal_run
    (by decide +kernel) hsent hdelivered (by decide +kernel)⟩

end DbusRouter.Model
