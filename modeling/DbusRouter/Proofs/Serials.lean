/-
What the three maps keyed by serials remember.

A message that is forwarded fills its place in `pendingCalls`, which nothing
ever empties. A service call fills its place in `incomingCalls`, and the
client's answer empties it. A request that is merged fills its place in
`pendingMerges`, and it takes two messages with its serial to empty it. The
first and the last are countdowns under every serial (`Lib.Countdown`).
-/
import DbusRouter.Lib.Countdown
import DbusRouter.Proofs.Answers

namespace DbusRouter.Model

open Wire Lib

-- ================================================================== messages

/-- A client message that is forwarded to one bus or, without a merge, to
both. -/
def Session.PassesOn (L : Libs) (s : Session) (msg : Message) : Prop :=
  ¬s.AnswersCall msg
    ∧ routeRequest L.glob s.config msg s.clientExePath ≠ .ok .merge

/-- A client message that both buses are asked, and whose replies are to be
merged. -/
def Session.AsksBoth (L : Libs) (s : Session) (msg : Message) : Prop :=
  ¬s.AnswersCall msg
    ∧ routeRequest L.glob s.config msg s.clientExePath = .ok .merge

/-- The client answers the serial `n`. -/
def Event.isClientAnswer (n : Nat) : Event → Bool
  | .client msg => msg.header.isReply && msg.header.replySerial == some n
  | .bus _ _ => false

/-- A message from a bus has the reply serial `n`. -/
def Event.mentions (n : Nat) : Event → Bool
  | .client _ => false
  | .bus _ msg => msg.header.replySerial == some n

/-- And it is not a METHOD_CALL. -/
def Event.carries (n : Nat) : Event → Bool
  | .client _ => false
  | .bus _ msg => msg.header.msgType != .methodCall
      && msg.header.replySerial == some n

/-- A reply is a return or an error. -/
theorem isReply_iff {h : MessageHeader} : h.isReply = true
    ↔ h.msgType = .methodReturn ∨ h.msgType = .error := by
  unfold MessageHeader.isReply
  simp

/-- A service call answers nothing. -/
theorem not_carries_of_serviceCall {s : Session} {msg : Message} {b : Bus}
    (h : s.isIncomingServiceCall msg b = true) (n : Nat) :
    (Event.bus b msg).carries n = false := by
  have hty := msgType_of_serviceCall h
  unfold Event.carries
  simp [hty]

/-- A message that mentions a serial meets the merge under it. -/
theorem mergeOf_of_mentions {s : Session} {msg : Message} {b : Bus} {n : Nat}
    (h : (Event.bus b msg).mentions n = true) :
    s.mergeOf msg = s.pendingMerges n := by
  unfold Event.mentions at h
  rw [beq_iff_eq] at h
  rw [Session.mergeOf, h]
  rfl

-- ================================================================== forwarded

/-- Whether a call is remembered under a serial. -/
def callLevel (n : Nat) (s : Session) : Nat :=
  if (s.pendingCalls n).isSome then 1 else 0

/-- Nothing but a service call, an answer to one, or a message of the
client that is passed on or merged changes what the other maps hold. -/
theorem upstream_calls {L : Libs} {s s' : Session} {msg : Message} {b : Bus}
    {ws : List Write} (h : Upstream L s msg b s' ws) :
    s'.pendingCalls = s.pendingCalls := by
  cases h with
  | serviceCall => rfl
  | firstHalf => rfl
  | secondHalf => rfl
  | forwarded => rfl

/-- A client message is remembered under its serial exactly when it is
passed on. -/
theorem downstream_calls {L : Libs} {s s' : Session} {msg : Message}
    {ws : List Write} (h : Downstream L s msg s' ws) :
    (s.PassesOn L msg ∧ ∃ b, s'.pendingCalls
        = s.pendingCalls.insert msg.header.serial ⟨b, msg.header.member⟩)
      ∨ (¬s.PassesOn L msg ∧ s'.pendingCalls = s.pendingCalls) := by
  cases h with
  | reply hty hn hin =>
      refine Or.inr ⟨fun hp => ?_, rfl⟩
      exact hp.1 (answersCall_of_incoming hty hn hin)
  | @toBus target _ _ _ hno hroute htrack =>
      obtain ⟨exported, sandbox, rfl⟩ := track_eq htrack
      refine Or.inl ⟨⟨hno, ?_⟩, target, rfl⟩
      rw [hroute]
      simp
  | toBoth hno hroute htrack =>
      obtain ⟨exported, sandbox, rfl⟩ := track_eq htrack
      refine Or.inl ⟨⟨hno, ?_⟩, .sandbox, rfl⟩
      rw [hroute]
      simp
  | merge hno hroute htrack =>
      obtain ⟨exported, sandbox, rfl⟩ := track_eq htrack
      exact Or.inr ⟨fun hp => hp.2 hroute, rfl⟩

/-- An entry for a call is made by a call and gone with its answer. -/
theorem calls_countdown (L : Libs) (n : Nat) :
    Countdown (Session.Step L) (callLevel n)
      (fun m ev => ∃ msg, ev = .client msg ∧ m.PassesOn L msg
        ∧ msg.header.serial = n)
      (fun _ => false) (fun _ => false) 1 := by
  have hsame : ∀ {m m' : Session} {ev : Event} {ws : List Write},
      m.Step L ev ws m' →
      ¬(∃ msg, ev = .client msg ∧ m.PassesOn L msg
        ∧ msg.header.serial = n) →
      m'.pendingCalls n = m.pendingCalls n := by
    intro m ev ws m' hstep hno
    rcases step_cases hstep with ⟨msg, rfl, hd⟩ | ⟨b, msg, rfl, hu⟩
    · rcases downstream_calls hd with ⟨hp, b, hcalls⟩ | ⟨-, hcalls⟩
      · rw [hcalls, PMap.insert_of_ne]
        exact fun hn => hno ⟨msg, rfl, hp, hn.symm⟩
      · rw [hcalls]
    · rw [upstream_calls hu]
  refine ⟨?_, ?_, ?_⟩
  · rintro m ev ws m' hstep ⟨msg, rfl, hp, rfl⟩
    rcases step_cases hstep with ⟨msg', hev, hd⟩ | ⟨b, msg', hev, -⟩
    · cases hev
      rcases downstream_calls hd with ⟨-, b, hcalls⟩ | ⟨hno, -⟩
      · unfold callLevel
        rw [hcalls, PMap.insert_self]
        rfl
      · exact absurd hp hno
    · cases hev
  · intro m ev ws m' hstep hno
    unfold callLevel
    rw [hsame hstep hno]
    exact Nat.le_refl _
  · intro m ev ws m' hstep hno
    unfold callLevel
    rw [hsame hstep hno]
    exact Nat.le_refl _

-- =================================================================== incoming

/-- A message from a bus is entered under its serial exactly when it is a
service call. -/
theorem upstream_incoming {L : Libs} {s s' : Session} {msg : Message}
    {b : Bus} {ws : List Write} (h : Upstream L s msg b s' ws) :
    (s.isIncomingServiceCall msg b = true ∧ s'.incomingCalls
        = s.incomingCalls.insert msg.header.serial b)
      ∨ (s.isIncomingServiceCall msg b = false
        ∧ s'.incomingCalls = s.incomingCalls) := by
  cases h with
  | serviceCall hcall => exact Or.inl ⟨hcall, rfl⟩
  | firstHalf hcall => exact Or.inr ⟨hcall, rfl⟩
  | secondHalf hcall => exact Or.inr ⟨hcall, rfl⟩
  | forwarded hcall => exact Or.inr ⟨hcall, rfl⟩

/-- An answer of the client leaves nothing under its reply serial, and no
client message leaves less elsewhere. -/
theorem downstream_incoming_apply {L : Libs} {s s' : Session}
    {msg : Message} {ws : List Write} (h : Downstream L s msg s' ws)
    (n : Nat) : s'.incomingCalls n
      = if (Event.client msg).isClientAnswer n then none
        else s.incomingCalls n := by
  have hno : ∀ {s₁ : Session}, s₁.incomingCalls = s.incomingCalls →
      ¬s.AnswersCall msg → s₁.incomingCalls n
        = if (Event.client msg).isClientAnswer n then none
          else s.incomingCalls n := by
    intro s₁ hentries hno
    rw [hentries]
    by_cases hanswer : (Event.client msg).isClientAnswer n = true
    · -- an answer that finds no entry
      rw [if_pos hanswer]
      simp only [Event.isClientAnswer, Bool.and_eq_true, beq_iff_eq,
        isReply_iff] at hanswer
      by_contra hsome
      refine hno ⟨hanswer.1, n, hanswer.2, ?_⟩
      exact Option.isSome_iff_ne_none.mpr hsome
    · rw [if_neg hanswer]
  cases h with
  | @reply k _ _ hty hk _ =>
      show s.incomingCalls.remove k n = _
      rw [PMap.remove_apply]
      simp only [Event.isClientAnswer, hk, isReply_iff.mpr hty]
      by_cases hn : n = k
      · simp [hn]
      · simp [hn, Ne.symm hn]
  | toBus hnot _ htrack | toBoth hnot _ htrack | merge hnot _ htrack =>
      obtain ⟨exported, sandbox, rfl⟩ := track_eq htrack
      exact hno rfl hnot

-- ==================================================================== merges

/-- How many replies a merge under a serial still takes. -/
def mergeLevel (n : Nat) (s : Session) : Nat :=
  match s.pendingMerges n with
  | none => 0
  | some pending => if pending.firstResponse = none then 2 else 1

/-- No merge, nothing to wait for. -/
theorem mergeLevel_of_none {n : Nat} {s : Session}
    (h : s.pendingMerges n = none) : mergeLevel n s = 0 := by
  unfold mergeLevel
  rw [h]

/-- A merge waits for two answers, or for the second. -/
theorem mergeLevel_of_some {n : Nat} {s : Session} {pending : PendingMerge}
    (h : s.pendingMerges n = some pending) :
    mergeLevel n s = if pending.firstResponse = none then 2 else 1 := by
  unfold mergeLevel
  rw [h]

/-- Where nothing is waited for there is no merge. -/
theorem mergeLevel_eq_zero {n : Nat} {s : Session}
    (h : mergeLevel n s = 0) : s.pendingMerges n = none := by
  unfold mergeLevel at h
  split at h
  next hnone => exact hnone
  next =>
    split at h
    next => cases h
    next => cases h

/-- The level depends on the entry alone. -/
theorem mergeLevel_congr {n : Nat} {s s' : Session}
    (h : s'.pendingMerges n = s.pendingMerges n) :
    mergeLevel n s' = mergeLevel n s := by
  unfold mergeLevel
  rw [h]

/-- A message that is no service call draws on the merge whose serial it
has. -/
theorem upstream_draws {L : Libs} {s s' : Session} {msg : Message}
    {b : Bus} {ws : List Write} (h : Upstream L s msg b s' ws)
    (hno : s.isIncomingServiceCall msg b = false) (n : Nat) :
    mergeLevel n s' = mergeLevel n s
      - if (Event.bus b msg).mentions n then 1 else 0 := by
  have hother : ∀ k, msg.header.replySerial = some k → k ≠ n →
      (Event.bus b msg).mentions n = false := by
    intro k hk hne
    unfold Event.mentions
    simp [hk, hne]
  have hsame : ∀ k, msg.header.replySerial = some k →
      (Event.bus b msg).mentions k = true := by
    intro k hk
    unfold Event.mentions
    simp [hk]
  cases h with
  | serviceCall hcall =>
      rw [hcall] at hno
      cases hno
  | @firstHalf k pending names _ hk hp hfirst =>
      by_cases hkn : k = n
      · subst hkn
        have hne : (pending.answered b names).firstResponse ≠ none := by
          unfold PendingMerge.answered
          simp
        rw [mergeLevel_of_some hp, if_pos hfirst, mergeLevel_of_some
          (PMap.insert_self _ _ _), if_neg hne, hsame k hk]
        rfl
      · rw [mergeLevel_congr (PMap.insert_of_ne _ _ (Ne.symm hkn)),
          hother k hk hkn]
        rfl
  | @secondHalf k pending names response _ hk hp hfirst =>
      by_cases hkn : k = n
      · subst hkn
        rw [mergeLevel_of_some hp,
          if_neg (Option.isSome_iff_ne_none.mp hfirst),
          mergeLevel_of_none (PMap.remove_self _ _), hsame k hk]
        rfl
      · rw [mergeLevel_congr (PMap.remove_of_ne _ (Ne.symm hkn)),
          hother k hk hkn]
        rfl
  | forwarded _ hmerge =>
      cases hm : (Event.bus b msg).mentions n with
      | false => rfl
      | true =>
          rw [mergeOf_of_mentions hm] at hmerge
          rw [mergeLevel_of_none hmerge]
          rfl

/-- No message from a bus draws on another merge, or more than one. -/
theorem upstream_mergeLevel {L : Libs} {s s' : Session} {msg : Message}
    {b : Bus} {ws : List Write} (h : Upstream L s msg b s' ws) (n : Nat) :
    mergeLevel n s' ≤ mergeLevel n s
        - (if (Event.bus b msg).carries n then 1 else 0)
      ∧ mergeLevel n s ≤ mergeLevel n s'
        + (if (Event.bus b msg).mentions n then 1 else 0) := by
  by_cases hcall : s.isIncomingServiceCall msg b = true
  · have hmerges : s'.pendingMerges = s.pendingMerges := by
      cases h with
      | serviceCall => rfl
      | forwarded => rfl
      | firstHalf hno | secondHalf hno =>
          rw [hcall] at hno
          cases hno
    rw [mergeLevel_congr (congrFun hmerges n),
      not_carries_of_serviceCall hcall]
    exact ⟨Nat.le_refl _, Nat.le_add_right _ _⟩
  · rw [Bool.not_eq_true] at hcall
    rw [upstream_draws h hcall n]
    cases hm : (Event.bus b msg).mentions n with
    | true =>
        simp only [if_true]
        refine ⟨?_, by omega⟩
        split
        next => exact Nat.le_refl _
        next => exact Nat.sub_le _ _
    | false =>
        have hc : (Event.bus b msg).carries n = false := by
          unfold Event.mentions at hm
          unfold Event.carries
          simp [hm]
        rw [hc]
        exact ⟨Nat.le_refl _, Nat.le_refl _⟩

/-- The client opens a merge or leaves them alone. -/
theorem downstream_mergeLevel {L : Libs} {s s' : Session} {msg : Message}
    {ws : List Write} (h : Downstream L s msg s' ws) (n : Nat) :
    (s.AsksBoth L msg ∧ msg.header.serial = n ∧ s'.pendingMerges n
        = some ⟨msg, none⟩)
      ∨ (¬(s.AsksBoth L msg ∧ msg.header.serial = n)
        ∧ s'.pendingMerges n = s.pendingMerges n) := by
  cases h with
  | reply hty hn hin =>
      refine Or.inr ⟨fun hp => ?_, rfl⟩
      exact hp.1.1 (answersCall_of_incoming hty hn hin)
  | toBus _ hroute htrack | toBoth _ hroute htrack =>
      obtain ⟨exported, sandbox, rfl⟩ := track_eq htrack
      refine Or.inr ⟨fun hp => ?_, rfl⟩
      have hmerge := hp.1.2
      rw [hroute] at hmerge
      cases hmerge
  | merge hno hroute htrack =>
      obtain ⟨exported, sandbox, rfl⟩ := track_eq htrack
      by_cases hn : msg.header.serial = n
      · refine Or.inl ⟨⟨hno, hroute⟩, hn, ?_⟩
        subst hn
        exact PMap.insert_self _ _ _
      · refine Or.inr ⟨fun hp => hn hp.2, ?_⟩
        exact PMap.insert_of_ne _ _ (Ne.symm hn)

/-- A merge is opened by a call for both buses and gone after two answers. -/
theorem merges_countdown (L : Libs) (n : Nat) :
    Countdown (Session.Step L) (mergeLevel n)
      (fun m ev => ∃ msg, ev = .client msg ∧ m.AsksBoth L msg
        ∧ msg.header.serial = n)
      (Event.carries n) (Event.mentions n) 2 := by
  refine ⟨?_, ?_, ?_⟩
  · rintro m ev ws m' hstep ⟨msg, rfl, hasks, hn⟩
    rcases step_cases hstep with ⟨msg', hev, hd⟩ | ⟨b, msg', hev, -⟩
    · cases hev
      rcases downstream_mergeLevel hd n with ⟨-, -, hp⟩ | ⟨hno, -⟩
      · unfold mergeLevel
        rw [hp]
        rfl
      · exact absurd ⟨hasks, hn⟩ hno
    · cases hev
  · intro m ev ws m' hstep hno
    rcases step_cases hstep with ⟨msg, rfl, hd⟩ | ⟨b, msg, rfl, hu⟩
    · rcases downstream_mergeLevel hd n with ⟨hasks, hn, -⟩ | ⟨-, hp⟩
      · exact absurd ⟨msg, rfl, hasks, hn⟩ hno
      · rw [mergeLevel_congr hp]
        exact Nat.le_refl _
    · exact (upstream_mergeLevel hu n).1
  · intro m ev ws m' hstep hno
    rcases step_cases hstep with ⟨msg, rfl, hd⟩ | ⟨b, msg, rfl, hu⟩
    · rcases downstream_mergeLevel hd n with ⟨hasks, hn, -⟩ | ⟨-, hp⟩
      · exact absurd ⟨msg, rfl, hasks, hn⟩ hno
      · rw [mergeLevel_congr hp]
        exact Nat.le_add_right _ _
    · exact (upstream_mergeLevel hu n).2

end DbusRouter.Model
