/-
One reply for each call.

A reply reaches the client in one of two ways: it is forwarded, or it
completes a merge. `Ledger` keeps the books of one serial along a run: what
the buses still owe, and what has been written to the client since the last
call. A single call is owed one answer and a merged call two, of which the
second is written; so as long as nothing else is owed, one reply is written
at most (`one_reply_per_call`).

A call that is sent to both buses without a merge is owed an answer by each
of them, and nothing stops the second: `two_replies`.
-/
import Mathlib.Data.List.Infix
import DbusRouter.Proofs.Merge

namespace DbusRouter.Model

open Wire Lib

-- ========================================================== what is delivered

/-- A header field array that holds the reply serial of a frame, wherever
it is within the limits. -/
def SameReplySerial (z : Zvariant) (f : Frame) (array : Bytes) : Prop :=
  array.length ≤ 2 ^ 26 → (parseHeaderFields z array f.endian).replySerial
    = (f.header z).replySerial

/-- Adding the prefix to a sender keeps the layout of the message and its
reply serial. -/
theorem toClient_layout {z : Zvariant} {f : Frame} {fds : List Fd} (b : Bus)
    (hz : z.FollowsSpec) (hplain : (f.message z fds).SenderPlain) :
    ∃ m array padding, rewriteMessageHeader (f.message z fds) .toClient b
        = .ok m
      ∧ m.raw = layout f.endian f.fixed array padding f.body
      ∧ array.length < 2 ^ 32
      ∧ padding.length = padTo8 (16 + array.length)
      ∧ SameReplySerial z f array := by
  have hal := f.array_le
  by_cases hu : ∀ u, (f.header z).sender = some u → isUniqueName u = false
  · exact ⟨f.message z fds, f.array, f.padding,
      rewriteMessageHeader_toClient_of_not_unique hu, rfl, by omega,
      f.padding_eq, fun _ => rfl⟩
  · push Not at hu
    obtain ⟨u, hs, hu⟩ := hu
    have hu : isUniqueName u = true := by simpa using hu
    obtain ⟨fs, hdec, ht, hsender⟩ := f.decodes_of_sender hz hs
    have hp := hplain u fs hs hu (Frame.hasFields_message.mpr hdec)
    have hmem := hdec.sender_mem hsender
    have hlen := hdec.length_of_mem hmem
    have hname := toFakeName_length u b
    rw [← hdec.2] at hal
    have hgrow : (marshalFields f.endian 16
        (setFields 7 (toFakeName u b) fs)).length
          ≤ (marshalFields f.endian 16 fs).length
            + (toFakeName u b).length + 7 := setFields_length f.endian hp
    obtain ⟨m, hm, hraw⟩ : ∃ m, rewriteMessageHeader (f.message z fds)
        .toClient b = .ok m
          ∧ m.raw = f.setString 7 (toFakeName u b) fs :=
      ⟨_, Frame.rewriteMessageHeader_toClient b hz hdec ht hp hsender hu, rfl⟩
    unfold Frame.setString at hraw
    unfold setFields at hgrow
    cases hl : locate 7 fs with
    | none =>
        rw [hl] at hraw
        rw [hdec.2] at hal
        exact ⟨m, f.array, f.padding, hm, hraw, by omega, f.padding_eq,
          fun _ => rfl⟩
    | some x =>
        obtain ⟨pre, v, post⟩ := x
        obtain ⟨s, rfl⟩ := hp.locate_str hl
        obtain ⟨heq, -⟩ := locate_eq_some hl
        rw [hl] at hraw hgrow
        simp only at hgrow
        refine ⟨m, marshalFields f.endian 16
            (pre ++ (7, .str (toFakeName u b)) :: post), _, hm, hraw,
          by omega, zeros_length _, ?_⟩
        intro hle
        have hvalid : ValidFields f.endian 16
            (pre ++ (7, .str (toFakeName u b)) :: post) := by
          refine validFields_set (s := s) ?_ (isStr_toFakeName
            (isStr_of_mem hdec.1 hmem) b (by omega))
          rw [← heq]
          exact hdec.1
        have htaken : z.Takes (pre ++ (7, .str (toFakeName u b)) :: post) := by
          rw [heq] at ht
          exact ht.set _
        unfold parseHeaderFields
        rw [(hz.fields_iff _ _ _ hle).mpr ⟨⟨hvalid, rfl⟩, htaken⟩,
          hdec.header hz ht]
        obtain ⟨y, hy⟩ := ofFields_eqUpToSender pre post (.str s)
          (.str (toFakeName u b))
        show (ParsedHeaderFields.ofFields _).replySerial
          = (ParsedHeaderFields.ofFields fs).replySerial
        rw [hy, heq]

/-- The header of a delivered message, as the client reads it. -/
theorem delivered_header {L : Libs} {s s' : Session} {msg : Message}
    {b : Bus} {ws : List Write} {w : Write} {h : MessageHeader}
    (hz : L.zvariant.FollowsSpec) (hstep : s.Step L (.bus b msg) ws s')
    (hread : s.ReadsSender msg b) (htaken : s.Delivers msg b) (hw : w ∈ ws)
    (hh : headerOf L.zvariant w.raw = .ok h) :
    h.msgType = msg.header.msgType
      ∧ h.replySerial = msg.header.replySerial := by
  obtain ⟨hacc, hok⟩ := hstep
  have hacc : msg.Accepted L.zvariant := hacc
  obtain ⟨f, hmsg⟩ := hacc.eq_message
  generalize msg.fds = fds at hmsg
  subst hmsg
  cases upstream_of_ok hok with
  | @serviceCall m hcall hm =>
      rw [List.mem_singleton] at hw
      subst hw
      unfold serviceCallMessage at hm
      split at hm
      next hb =>
        obtain ⟨m', array, padding, hm', hraw, ha, -, hsame⟩ :=
          toClient_layout b hz (hread (Or.inr ⟨hcall, hb⟩))
        rw [hm', Outcome.orElse_ok] at hm
        cases hm
        rw [hraw] at hh
        obtain ⟨hle, hty, hreply⟩ := headerOf_layout ha hh
        exact ⟨hty, hreply.trans (hsame hle)⟩
      next =>
        cases hm
        rw [hacc.headerOf_raw] at hh
        cases hh
        exact ⟨rfl, rfl⟩
  | firstHalf => cases hw
  | secondHalf hno hn hp => exact absurd hp (htaken.no_merge hno hn)
  | @forwarded raw hno hmerge hraw =>
      rw [List.mem_singleton] at hw
      subst hw
      obtain ⟨m, array, padding, hm, hlayout, ha, hpad, hsame⟩ :=
        toClient_layout b hz (hread (Or.inl ⟨hno, hmerge⟩))
      obtain ⟨-, m', hm', hbody⟩ := prepare_eq_ok hraw
      obtain ⟨x, hx⟩ := rewrite_toClient_header hm'
      rw [hm, Outcome.orElse_ok] at hm'
      cases hm'
      have hendian : m.header.endian = f.endian := by
        rw [hx]
        rfl
      have hout : ∃ bodyLen body, raw = layout f.endian
          (fixedHeader f.endian f.ty f.flags bodyLen f.serial) array padding
          body := by
        rcases rewriteBodyForClient_cases hbody with rfl | ⟨new, hnew⟩
        · exact ⟨_, _, hlayout⟩
        · rw [hendian, hlayout, Frame.fixed,
            rebuildMessageWithBody_layout f.endian f.ty f.flags _ _ _ _ ha
              hpad] at hnew
          cases hnew
          exact ⟨_, _, rfl⟩
      obtain ⟨bodyLen, body, rfl⟩ := hout
      obtain ⟨hle, hty, hreply⟩ := headerOf_layout ha hh
      exact ⟨hty, hreply.trans (hsame hle)⟩

-- =================================================================== the books

def MessageHeader.isReply (h : MessageHeader) : Bool :=
  h.msgType == .methodReturn || h.msgType == .error

/-- The client is written a reply to the serial `n`. -/
def repliesTo (z : Zvariant) (n : Nat) (w : Write) : Bool :=
  w.peer == .client &&
    match headerOf z w.raw with
    | .ok h => h.isReply && h.replySerial == some n
    | _ => false

/-- The client calls under the serial `n`. -/
def Event.isCall (n : Nat) : Event → Bool
  | .client msg =>
      msg.header.msgType == .methodCall && msg.header.serial == n
  | .bus _ _ => false

/-- A bus answers the serial `n`. -/
def Event.isAnswer (n : Nat) : Event → Bool
  | .client _ => false
  | .bus _ msg => msg.header.isReply && msg.header.replySerial == some n

/-- The replies to `n` written since the last call under `n`. -/
def repliedSince (z : Zvariant) (n : Nat) (t : List (Event × List Write)) :
    Nat :=
  countSince (Event.isCall n) (List.countP (repliesTo z n)) t

/-- The answers to `n` that have arrived from the buses. -/
def answers (n : Nat) (t : List (Event × List Write)) : Nat :=
  total (fun ev => if ev.isAnswer n then 1 else 0) t

/-- The answers a call under `n` is owed: one from each bus if they are to
be merged, and otherwise one. -/
def Event.due (L : Libs) (config : Config) (exe : Option Bytes) (n : Nat)
    (ev : Event) : Nat :=
  if ev.isCall n then
    if routeRequest L.glob config ev.msg exe = .ok .merge then 2 else 1
  else 0

/-- The answers the calls under `n` are owed. -/
def due (L : Libs) (config : Config) (exe : Option Bytes) (n : Nat)
    (t : List (Event × List Write)) : Nat :=
  total (Event.due L config exe n) t

section books

variable (n : Nat) (t : List (Event × List Write)) (ev : Event)
  (ws : List Write)

@[simp] theorem repliedSince_snoc (z : Zvariant) :
    repliedSince z n (t ++ [(ev, ws)])
      = (if ev.isCall n then 0 else repliedSince z n t)
        + ws.countP (repliesTo z n) :=
  countSince_snoc ..

@[simp] theorem answers_snoc : answers n (t ++ [(ev, ws)])
    = answers n t + if ev.isAnswer n then 1 else 0 :=
  total_snoc ..

@[simp] theorem due_snoc (L : Libs) (config : Config) (exe : Option Bytes) :
    due L config exe n (t ++ [(ev, ws)])
      = due L config exe n t + ev.due L config exe n :=
  total_snoc ..

end books

/-- A call under a serial is the first one, or comes after a reply to the
one before. -/
def SerialsKept (z : Zvariant) (t : List (Event × List Write)) : Prop :=
  ∀ u c ws v, t = u ++ (.client c, ws) :: v →
    c.header.msgType = .methodCall →
    (∀ x ∈ u, x.1.isCall c.header.serial = false)
      ∨ 0 < repliedSince z c.header.serial u

/-- The buses answer no more than they owe, at any time. -/
def AnswersDue (L : Libs) (config : Config) (exe : Option Bytes)
    (t : List (Event × List Write)) : Prop :=
  ∀ u v n, t = u ++ v → answers n u ≤ due L config exe n u

/-- A message that touches a pending merge is a reply, and the header of a
delivered message can be read. -/
def Session.KeepsAnswers (s : Session) : Event → Prop
  | .client _ => True
  | .bus b msg => s.ReadsSender msg b
      ∧ (s.isIncomingServiceCall msg b = false →
        (s.mergeOf msg).isSome → msg.header.isReply = true)

/-- How many outstanding answers leave at most one reply to write. -/
def allowance : Option PendingMerge → Nat
  | some pending => if pending.firstResponse = none then 2 else 1
  | none => 1

/-- The books of the serial `n`: `owed` answers are outstanding, and either
no reply has been written and one at most will be, or one has been and none
is owed. -/
def Ledger (L : Libs) (config : Config) (exe : Option Bytes) (n : Nat)
    (t : List (Event × List Write)) (s : Session) : Prop :=
  ∃ owed, due L config exe n t = answers n t + owed
    ∧ ((repliedSince L.zvariant n t = 0 ∧ owed ≤ allowance (s.pendingMerges n))
      ∨ (repliedSince L.zvariant n t = 1 ∧ owed = 0))

theorem allowance_le (p : Option PendingMerge) : allowance p ≤ 2 := by
  unfold allowance
  split
  next => split <;> omega
  next => omega

theorem one_le_allowance (p : Option PendingMerge) : 1 ≤ allowance p := by
  unfold allowance
  split
  next => split <;> omega
  next => omega

-- ============================================================ client messages

theorem downstream_writes {L : Libs} {s s' : Session} {msg : Message}
    {ws : List Write} (h : Downstream L s msg s' ws) {w : Write}
    (hw : w ∈ ws) : ∃ b, w.peer = .bus b := by
  cases h with
  | reply | toBus =>
      rw [List.mem_singleton] at hw
      rw [hw]
      exact ⟨_, rfl⟩
  | toBoth | merge =>
      rw [List.mem_cons, List.mem_singleton] at hw
      rcases hw with rfl | rfl
      · exact ⟨_, rfl⟩
      · exact ⟨_, rfl⟩

/-- No client message ends a merge. -/
theorem downstream_allowance {L : Libs} {s s' : Session} {msg : Message}
    {ws : List Write} (h : Downstream L s msg s' ws) (n : Nat) :
    allowance (s.pendingMerges n) ≤ allowance (s'.pendingMerges n) := by
  rcases downstream_merges h with ⟨-, hm⟩ | ⟨hm, -⟩
  · rw [hm, PMap.insert_apply]
    split
    next => exact allowance_le _
    next => exact Nat.le_refl _
  · rw [hm]

theorem countP_downstream {L : Libs} {s s' : Session} {msg : Message}
    {ws : List Write} (h : Downstream L s msg s' ws) (n : Nat) :
    ws.countP (repliesTo L.zvariant n) = 0 := by
  rw [List.countP_eq_zero]
  intro w hw
  obtain ⟨b, hb⟩ := downstream_writes h hw
  unfold repliesTo
  rw [hb]
  simp

/-- A client message keeps the books. -/
theorem ledger_client {L : Libs} {s s' : Session} {msg : Message}
    {ws : List Write} {n : Nat} {t : List (Event × List Write)}
    (h : Downstream L s msg s' ws)
    (hkept : (Event.client msg).isCall n = true →
      (∀ x ∈ t, x.1.isCall n = false) ∨ 0 < repliedSince L.zvariant n t)
    (hl : Ledger L s.config s.clientExePath n t s) :
    Ledger L s.config s.clientExePath n (t ++ [(.client msg, ws)]) s' := by
  obtain ⟨owed, hdue, hcases⟩ := hl
  have hallow := downstream_allowance h n
  have hcount := countP_downstream h n
  unfold Ledger
  simp only [due_snoc, answers_snoc, repliedSince_snoc, hcount, Nat.add_zero,
    Event.isAnswer, Bool.false_eq_true, if_false]
  cases hcall : (Event.client msg).isCall n with
  | false =>
      refine ⟨owed, ?_, ?_⟩
      · unfold Event.due
        rw [hcall]
        simpa using hdue
      · simp only [Bool.false_eq_true, if_false]
        rcases hcases with ⟨hr, ho⟩ | hr
        · exact Or.inl ⟨hr, by omega⟩
        · exact Or.inr hr
  | true =>
      have howed : owed = 0 := by
        rcases hkept hcall with hnone | hpos
        · have hzero : due L s.config s.clientExePath n t = 0 := by
            refine total_eq_zero fun x hx => ?_
            unfold Event.due
            rw [hnone x hx]
            rfl
          omega
        · rcases hcases with ⟨hr, -⟩ | ⟨-, ho⟩
          · omega
          · exact ho
      have htype : msg.header.msgType = .methodCall
          ∧ msg.header.serial = n := by
        unfold Event.isCall at hcall
        simpa using hcall
      refine ⟨Event.due L s.config s.clientExePath n (.client msg), by omega,
        Or.inl ⟨by simp, ?_⟩⟩
      unfold Event.due
      rw [hcall, if_pos rfl]
      rcases downstream_merges h with ⟨hroute, hm⟩ | ⟨-, hroute⟩
      · rw [hm, ← htype.2, PMap.insert_self]
        split
        next => exact Nat.le_refl 2
        next => exact Nat.le_succ 1
      · have hno := hroute htype.1
        rw [show (Event.client msg).msg = msg from rfl, if_neg hno]
        exact one_le_allowance _

-- =============================================================== bus messages

/-- A delivered message is a reply to a serial only if it arrived as
one. -/
theorem not_repliesTo_delivered {L : Libs} {s s' : Session} {msg : Message}
    {b : Bus} {ws : List Write} {n : Nat} (hz : L.zvariant.FollowsSpec)
    (hstep : s.Step L (.bus b msg) ws s') (hread : s.ReadsSender msg b)
    (htaken : s.Delivers msg b) (hno : (Event.bus b msg).isAnswer n = false) :
    ws.countP (repliesTo L.zvariant n) = 0 := by
  rw [List.countP_eq_zero]
  intro w hw hreply
  unfold repliesTo at hreply
  rw [Bool.and_eq_true] at hreply
  obtain ⟨-, hreply⟩ := hreply
  cases hh : headerOf L.zvariant w.raw with
  | ok h =>
      simp only [hh] at hreply
      obtain ⟨hty, hserial⟩ := delivered_header hz hstep hread htaken hw hh
      unfold Event.isAnswer at hno
      unfold MessageHeader.isReply at hno hreply
      rw [hty, hserial] at hreply
      simp only [hreply] at hno
      cases hno
  | err e =>
      rw [hh] at hreply
      cases hreply
  | panic p =>
      rw [hh] at hreply
      cases hreply

/-- A merged reply answers the serial of its merge and no other. -/
theorem not_repliesTo_merged {z : Zvariant} {s : Session} {msg : Message}
    {pending : PendingMerge} {names : List Text} {response : Bytes}
    {k n : Nat} (hz : z.FollowsSpec) (hacc : msg.Accepted z)
    (hkept : s.MergesKept z) (hk : msg.header.replySerial = some k)
    (hp : s.pendingMerges k = some pending)
    (hbuild : (buildListNamesResponse z pending.originalRequest
      names).orElse msg.raw = .ok response) (hne : k ≠ n) :
    repliesTo z n ⟨.client, response, []⟩ = false := by
  obtain ⟨hreq, hserial⟩ := hkept k pending hp
  unfold repliesTo
  cases hh : headerOf z response with
  | ok h =>
      have hreply : h.replySerial = some k := by
        rcases Outcome.orElse_eq_ok hbuild with hb | ⟨-, rfl⟩
        · obtain ⟨body, rfl⟩ := buildListNamesResponse_eq_ok hz
            hreq.serial_lt hb
          rw [headerOf_replyBytes hz hreq.serial_lt hh, hserial]
        · rw [hacc.headerOf_raw] at hh
          cases hh
          exact hk
      simp [hreply, hne]
  | err e => simp
  | panic p => simp

/-- A message that does not answer a serial leaves its merge alone, and
nothing that replies to it is written. -/
theorem bus_not_answer {L : Libs} {s s' : Session} {msg : Message} {b : Bus}
    {ws : List Write} {n : Nat} (hz : L.zvariant.FollowsSpec)
    (hstep : s.Step L (.bus b msg) ws s') (hmerges : s.MergesKept L.zvariant)
    (hkeeps : s.KeepsAnswers (.bus b msg))
    (hanswer : (Event.bus b msg).isAnswer n = false) :
    ws.countP (repliesTo L.zvariant n) = 0
      ∧ s'.pendingMerges n = s.pendingMerges n := by
  obtain ⟨hread, hreplies⟩ := hkeeps
  have hacc : msg.Accepted L.zvariant := hstep.1
  have hreply : ∀ k, msg.header.replySerial = some k →
      msg.header.isReply = true → k ≠ n := by
    rintro k hk hty rfl
    simp only [Event.isAnswer, hty, hk] at hanswer
    simp at hanswer
  have htype : ∀ k pending, s.isIncomingServiceCall msg b = false →
      msg.header.replySerial = some k →
      s.pendingMerges k = some pending → k ≠ n := by
    intro k pending hcall hk hp
    refine hreply k hk (hreplies hcall ?_)
    rw [Session.mergeOf, hk, Option.bind_some, hp]
    rfl
  cases upstream_of_ok hstep.2 with
  | serviceCall hcall =>
      exact ⟨not_repliesTo_delivered hz hstep hread (Or.inl hcall) hanswer,
        rfl⟩
  | @firstHalf k pending names hcall hk hp =>
      have hne := htype k pending hcall hk hp
      exact ⟨rfl, PMap.insert_of_ne _ _ hne.symm⟩
  | @secondHalf k pending names response hcall hk hp _ hbuild =>
      have hne := htype k pending hcall hk hp
      refine ⟨?_, PMap.remove_of_ne _ hne.symm⟩
      rw [List.countP_cons, not_repliesTo_merged hz hacc hmerges hk hp
        hbuild hne]
      rfl
  | forwarded _ hmerge =>
      exact ⟨not_repliesTo_delivered hz hstep hread (Or.inr hmerge) hanswer,
        rfl⟩

/-- One write settles what is owed, be it a reply or not. -/
theorem settled_by_one (p : Write → Bool) (w : Write) (a : Nat)
    {owed : Nat} (h : owed + 1 ≤ 1) :
    (0 + [w].countP p = 0 ∧ owed ≤ a)
      ∨ (0 + [w].countP p = 1 ∧ owed = 0) := by
  have hone : [w].countP p ≤ 1 := List.countP_le_length
  rcases Nat.le_one_iff_eq_zero_or_eq_one.mp hone with h0 | h1
  · exact Or.inl ⟨by omega, by omega⟩
  · exact Or.inr ⟨by omega, by omega⟩

/-- A message from a bus keeps the books, if what it answers is owed. -/
theorem ledger_bus {L : Libs} {config : Config} {exe : Option Bytes}
    {s s' : Session} {msg : Message} {b : Bus} {ws : List Write} {n : Nat}
    {t : List (Event × List Write)} (hz : L.zvariant.FollowsSpec)
    (hstep : s.Step L (.bus b msg) ws s') (hmerges : s.MergesKept L.zvariant)
    (hkeeps : s.KeepsAnswers (.bus b msg))
    (howes : answers n (t ++ [(.bus b msg, ws)])
      ≤ due L config exe n (t ++ [(.bus b msg, ws)]))
    (hl : Ledger L config exe n t s) :
    Ledger L config exe n (t ++ [(.bus b msg, ws)]) s' := by
  obtain ⟨owed, hdue, hcases⟩ := hl
  have hnodue : Event.due L config exe n (.bus b msg) = 0 := rfl
  have hnocall : (Event.bus b msg).isCall n = false := rfl
  unfold Ledger
  simp only [due_snoc, answers_snoc, repliedSince_snoc, hnodue, hnocall,
    Nat.add_zero, Bool.false_eq_true, if_false] at howes ⊢
  cases hanswer : (Event.bus b msg).isAnswer n with
  | true =>
      -- one of the answers owed has come in
      simp only [hanswer, if_true] at howes ⊢
      obtain ⟨owed, rfl⟩ : ∃ k, owed = k + 1 := ⟨owed - 1, by omega⟩
      have hzero : repliedSince L.zvariant n t = 0
          ∧ owed + 1 ≤ allowance (s.pendingMerges n) := by
        rcases hcases with h | ⟨-, h⟩
        · exact h
        · omega
      obtain ⟨hr, hle⟩ := hzero
      have hsome : msg.header.isReply = true
          ∧ msg.header.replySerial = some n := by
        unfold Event.isAnswer at hanswer
        simpa using hanswer
      rw [hr]
      refine ⟨owed, by omega, ?_⟩
      cases upstream_of_ok hstep.2 with
      | serviceCall hcall =>
          have hty := msgType_of_serviceCall hcall
          have hreply := hsome.1
          unfold MessageHeader.isReply at hreply
          rw [hty] at hreply
          cases hreply
      | @firstHalf k pending names _ hk hp hfirst =>
          rw [hsome.2] at hk
          cases hk
          rw [hp] at hle
          simp only [allowance, hfirst, if_true] at hle
          refine Or.inl ⟨rfl, ?_⟩
          simp only [PMap.insert_self, allowance, PendingMerge.answered,
            reduceCtorEq, if_false]
          omega
      | @secondHalf k pending names response _ hk hp hfirst =>
          rw [hsome.2] at hk
          cases hk
          rw [hp] at hle
          have hne : pending.firstResponse ≠ none :=
            Option.isSome_iff_ne_none.mp hfirst
          simp only [allowance, if_neg hne] at hle
          exact settled_by_one _ _ _ hle
      | @forwarded raw _ hmerge =>
          have hnone : s.pendingMerges n = none := by
            rw [Session.mergeOf, hsome.2] at hmerge
            exact hmerge
          rw [hnone] at hle ⊢
          simp only [allowance] at hle ⊢
          exact settled_by_one _ _ _ hle
  | false =>
      -- nothing is written under this serial
      have hsame := bus_not_answer hz hstep hmerges hkeeps hanswer
      obtain ⟨hcount, hpending⟩ := hsame
      rw [hcount, hpending]
      refine ⟨owed, ?_, ?_⟩
      · simpa [hanswer] using hdue
      · simpa using hcases

-- =================================================================== in a run

def Event.isFrom (b : Bus) : Event → Bool
  | .client _ => false
  | .bus b' _ => b' == b

/-- The messages under `n` written to a bus on one event. -/
def sentTo (b : Bus) (n : Nat) (x : Event × List Write) : Nat :=
  match x.1 with
  | .client msg =>
      if msg.header.serial = n then x.2.countP (·.peer == .bus b) else 0
  | .bus _ _ => 0

/-- Each bus sends at most one reply for each message it was sent. -/
def BusesAnswerOnce (t : List (Event × List Write)) : Prop :=
  ∀ u v n b, t = u ++ v →
    u.countP (fun x => x.1.isAnswer n && x.1.isFrom b)
      ≤ (u.map (sentTo b n)).sum

/-- Whatever the buses and the client do, one reply at most is written to
the client since its last call under a serial. -/
def OneReplyPerCall : Prop :=
  ∀ (L : Libs) (config : Config) (exe : Option Bytes)
    (t : List (Event × List Write)) (s : Session) (n : Nat),
    L.zvariant.FollowsSpec → Run L (Session.new config exe) t s →
    SerialsKept L.zvariant t → BusesAnswerOnce t →
    (∃ x ∈ t, x.1.isCall n = true) → repliedSince L.zvariant n t ≤ 1

/-- In a run whose steps keep the answers apart, in which the buses answer
no more than they owe, one reply at most is written since the last call
under a serial. -/
theorem one_reply_per_call {L : Libs} {config : Config} {exe : Option Bytes}
    {t : List (Event × List Write)} {s : Session}
    (hz : L.zvariant.FollowsSpec)
    (hrun : Steps (Meeting (Session.Step L) Session.KeepsAnswers)
      (Session.new config exe) t s)
    (hserials : SerialsKept L.zvariant t) (howes : AnswersDue L config exe t)
    (n : Nat) : repliedSince L.zvariant n t ≤ 1 := by
  have hledger : Ledger L config exe n t s := by
    induction hrun with
    | nil => exact ⟨0, rfl, Or.inl ⟨rfl, Nat.zero_le _⟩⟩
    | @snoc t m ev ws m' hrun hstep ih =>
        obtain ⟨hkeeps, hstep⟩ := hstep
        have hbefore : Run L (Session.new config exe) t m := hrun.of_meeting
        have hl := ih
          (fun u c ws' v h => hserials u c ws' (v ++ [(ev, ws)])
            (by rw [h, List.append_assoc]; rfl))
          (fun u v k h => howes u (v ++ [(ev, ws)]) k
            (by rw [h, List.append_assoc]))
        rcases step_cases hstep with ⟨msg, rfl, hd⟩ | ⟨b, msg, rfl, hu⟩
        · obtain ⟨hconfig, hexe⟩ := run_config hbefore
          have hlast := hserials t msg ws [] rfl
          have hkept : (Event.client msg).isCall n = true →
              (∀ x ∈ t, x.1.isCall n = false)
                ∨ 0 < repliedSince L.zvariant n t := by
            intro hcall
            have htype : msg.header.msgType = .methodCall
                ∧ msg.header.serial = n := by
              unfold Event.isCall at hcall
              simpa using hcall
            rw [← htype.2]
            exact hlast htype.1
          have hc := ledger_client hd hkept (by
            rw [hconfig, hexe]
            exact hl)
          rw [hconfig, hexe] at hc
          exact hc
        · exact ledger_bus hz hstep (mergesKept_run hbefore) hkeeps
            (howes _ [] n (List.append_nil _).symm) hl
  obtain ⟨owed, -, hcases⟩ := hledger
  rcases hcases with ⟨hr, -⟩ | ⟨hr, -⟩
  · omega
  · omega

-- ================================================================== one call

section one

variable {L : Libs} {s : Session} {evs : List Event} {n : Nat}

/-- Bus messages alone use no serial of the client's again. -/
theorem serialsKept_one {z : Zvariant} {msg : Message}
    (h : ∀ ev ∈ evs, ∃ b m, ev = .bus b m) :
    SerialsKept z (s.trace L (.client msg :: evs)) := by
  intro u c ws v ht _
  cases u with
  | nil => exact Or.inl fun x hx => by cases hx
  | cons y u =>
      unfold Session.trace at ht
      have hrest := (List.cons.inj ht).2
      have hmem : (Event.client c, ws)
          ∈ (s.react L (.client msg)).1.trace L evs := by
        rw [hrest]
        simp
      obtain ⟨b, m, hev⟩ := h _ (mem_of_mem_trace hmem)
      cases hev

/-- Where every answer is one to `n`, only `n` needs to be counted. -/
theorem no_answer {k : Nat} {u v : List (Event × List Write)}
    (h : ∀ ev ∈ evs, ∀ k, k ≠ n → ev.isAnswer k = false)
    (ht : s.trace L evs = u ++ v) (hk : k ≠ n) :
    ∀ x ∈ u, x.1.isAnswer k = false := by
  intro x hx
  have hmem : x ∈ s.trace L evs := by
    rw [ht]
    exact List.mem_append_left v hx
  exact h x.1 (mem_of_mem_trace hmem) k hk

theorem answersDue_one {config : Config} {exe : Option Bytes}
    (h : ∀ ev ∈ evs, ∀ k, k ≠ n → ev.isAnswer k = false)
    (hn : ∀ u ∈ (s.trace L evs).inits,
      answers n u ≤ due L config exe n u) :
    AnswersDue L config exe (s.trace L evs) := by
  intro u v k ht
  by_cases hk : k = n
  · rw [hk]
    refine hn u ((List.mem_inits _ _).mpr ⟨v, ht.symm⟩)
  · have hzero : answers k u = 0 := by
      refine total_eq_zero fun x hx => ?_
      rw [no_answer h ht hk x hx]
      rfl
    omega

theorem busesAnswerOnce_one
    (h : ∀ ev ∈ evs, ∀ k, k ≠ n → ev.isAnswer k = false)
    (hn : ∀ u ∈ (s.trace L evs).inits, ∀ b ∈ [Bus.host, Bus.sandbox],
      u.countP (fun x => x.1.isAnswer n && x.1.isFrom b)
        ≤ (u.map (sentTo b n)).sum) :
    BusesAnswerOnce (s.trace L evs) := by
  intro u v k b ht
  by_cases hk : k = n
  · rw [hk]
    refine hn u ((List.mem_inits _ _).mpr ⟨v, ht.symm⟩) b ?_
    cases b <;> simp
  · have hzero : u.countP (fun x => x.1.isAnswer k && x.1.isFrom b) = 0 := by
      rw [List.countP_eq_zero]
      intro x hx
      rw [no_answer h ht hk x hx]
      simp
    omega

end one

/-- The bus daemon's reply to the serial `n`. -/
def daemonReply (serial n : Nat) (body : Bytes) : Message :=
  .compose 2 serial
    [(5, .fixed .uint32 n), (7, .str busName), (8, .signature [.array .str])]
    body []

/-- It answers `n` and nothing else. -/
theorem isAnswer_daemonReply {b : Bus} {serial n k : Nat} {body : Bytes}
    (h : k ≠ n) :
    (Event.bus b (daemonReply serial n body)).isAnswer k = false := by
  have hserial : (daemonReply serial n body).header.replySerial
      = some n := rfl
  simp [Event.isAnswer, hserial, h.symm]

/-- Its sender stays as it is, and it may touch a merge. -/
theorem keepsAnswers_daemonReply (s : Session) (b : Bus) (serial n : Nat)
    (body : Bytes) :
    s.KeepsAnswers (.bus b (daemonReply serial n body)) := by
  refine ⟨fun _ u fs hs hu => ?_, fun _ _ => rfl⟩
  have hsender : (daemonReply serial n body).header.sender = some busName :=
    rfl
  rw [hsender] at hs
  cases hs
  exact absurd hu (by decide)

/-- A match rule with nothing in it that decides for a bus, and what both
buses reply. -/
def ruleForBoth : List Event :=
  [.client (.daemonCall 5 "AddMatch" "type='signal'"),
   .bus .host (daemonReply 9 5 []), .bus .sandbox (daemonReply 4 5 [])]

/-- Both replies are written to the client. -/
theorem two_replies : ¬OneReplyPerCall := by
  intro h
  have hrun : Run referenceLibs (Session.new sandboxOnly none)
      ((Session.new sandboxOnly none).trace referenceLibs ruleForBoth) _ :=
    (run_trace (C := fun _ _ => True) (by decide +kernel) (by decide +kernel)
      fun _ _ _ _ => trivial).of_meeting
  have honly : ∀ ev ∈ ruleForBoth, ∀ k, k ≠ 5 → ev.isAnswer k = false := by
    simp only [ruleForBoth, List.forall_mem_cons]
    exact ⟨fun k _ => rfl, fun k hk => isAnswer_daemonReply hk,
      fun k hk => isAnswer_daemonReply hk, by simp⟩
  have htwo := h referenceLibs sandboxOnly none _ _ 5
    Zvariant.reference_followsSpec hrun (serialsKept_one (by simp))
    (busesAnswerOnce_one honly (by decide +kernel)) (by decide +kernel)
  revert htwo
  decide +kernel

/-- A call for the names of both buses, and their replies. -/
def namesOfBoth : List Event :=
  [.client (.compose 1 5
    [(1, .objectPath (utf8 "/org/freedesktop/DBus")), (2, .str busName),
     (3, .str (utf8 "ListNames")), (6, .str busName)] [] []),
   .bus .sandbox (daemonReply 4 5
     (marshal .little 0 (.array .str [.str busName, .str (utf8 ":1.7")]))),
   .bus .host (daemonReply 9 5
     (marshal .little 0 (.array .str [.str busName, .str (utf8 ":1.5")])))]

/-- They are merged into one. -/
theorem one_reply_per_call_merged :
    repliedSince .reference 5 ((Session.new sandboxOnly none).trace
      referenceLibs namesOfBoth) ≤ 1 := by
  have honly : ∀ ev ∈ namesOfBoth, ∀ k, k ≠ 5 → ev.isAnswer k = false := by
    simp only [namesOfBoth, List.forall_mem_cons]
    exact ⟨fun k _ => rfl, fun k hk => isAnswer_daemonReply hk,
      fun k hk => isAnswer_daemonReply hk, by simp⟩
  have hkeeps : ∀ ev ∈ namesOfBoth, ∀ s : Session, s.KeepsAnswers ev := by
    simp only [namesOfBoth, List.forall_mem_cons]
    exact ⟨fun _ => trivial, fun s => keepsAnswers_daemonReply s _ _ _ _,
      fun s => keepsAnswers_daemonReply s _ _ _ _, by simp⟩
  refine one_reply_per_call (L := referenceLibs)
    Zvariant.reference_followsSpec (run_trace (by decide +kernel)
      (by decide +kernel) ?_) (serialsKept_one (by simp))
      (answersDue_one honly (by decide +kernel)) 5
  intro u ev v hev
  have hmem : ev ∈ namesOfBoth := by
    rw [show namesOfBoth = u ++ ev :: v from hev]
    simp
  exact hkeeps ev hmem _

end DbusRouter.Model
