/-
Partial writes.

An iteration of the loop begins with what is left of the message, and with
the descriptors only when nothing is gone yet. So a run is described by what
is left where it begins (`Sound`): the kernel has taken a beginning of it,
all of it exactly when the run returns `Ok`, with the descriptors at the
first part. Blocked calls leave no trace, an accepting call takes the front
off, and any other call ends the run; the three equations of the loop say so,
and everything follows from them by induction on the calls.

A run that still waits has taken a byte for each call that did not block
(`progress`), which bounds how many there can be.
-/
import DbusRouter.Model.Writer

namespace DbusRouter.Model

open Wire Lib

-- ============================================================== what is sent

/-- The bytes that the kernel took. -/
def taken (sent : List Segment) : Bytes := sent.flatMap (·.bytes)

/-- Nothing sent, nothing taken. -/
@[simp] theorem taken_nil : taken [] = [] := rfl

/-- The bytes taken are those of one segment after the other. -/
@[simp] theorem taken_cons (s : Segment) (sent : List Segment) :
    taken (s :: sent) = s.bytes ++ taken sent := rfl

/-- The descriptors go with the first part and with no other. -/
def AttachedFirst (fds : List Fd) : List Segment → Prop
  | [] => True
  | s :: rest => s.fds = fds ∧ ∀ later ∈ rest, later.fds = []

/-- Without descriptors no segment has any. -/
theorem AttachedFirst.fds_eq_nil {sent : List Segment}
    (h : AttachedFirst [] sent) : ∀ s ∈ sent, s.fds = [] := by
  intro s hs
  cases sent with
  | nil => cases hs
  | cons first rest =>
      rcases List.mem_cons.mp hs with rfl | hs
      · exact h.1
      · exact h.2 s hs

/-- The call takes nothing although it does not block. -/
def Sendmsg.Refuses : Sendmsg → Prop
  | .wouldBlock => False
  | .accepts n => n = 0
  | .fails _ => True

/-- A call blocks, accepts a byte or more, or refuses. -/
theorem Sendmsg.cases (call : Sendmsg) :
    call = .wouldBlock ∨ (∃ n, call = .accepts (n + 1)) ∨ call.Refuses := by
  cases call with
  | wouldBlock => exact .inl rfl
  | accepts n =>
      cases n with
      | zero => exact .inr (.inr rfl)
      | succ n => exact .inr (.inl ⟨n, rfl⟩)
  | fails text => exact .inr (.inr trivial)

instance (call : Sendmsg) : Decidable call.Refuses :=
  match call with
  | .wouldBlock => inferInstanceAs (Decidable False)
  | .accepts n => inferInstanceAs (Decidable (n = 0))
  | .fails _ => inferInstanceAs (Decidable True)

/-- How many of the calls did not block. -/
def answered (calls : List Sendmsg) : Nat :=
  calls.countP (· ≠ .wouldBlock)

/-- Where `left` is what is left of the message and `fds` are still to be
attached, the run has done this much of it. -/
structure SendRun.Sound (run : SendRun) (left : Bytes) (fds : List Fd) :
    Prop where
  isPrefix : taken run.sent <+: left
  attached : AttachedFirst fds run.sent
  nonempty : ∀ s ∈ run.sent, s.bytes ≠ []
  complete : run.returned = some (.ok ()) ↔ taken run.sent = left
  noPanic : ∀ p, run.returned ≠ some (.panic p)

/-- A run that has taken nothing yet. -/
theorem SendRun.sound_nil {left : Bytes} (fds : List Fd)
    {returned : Option (Result Unit)} (hleft : left ≠ [])
    (hok : returned ≠ some (.ok ()))
    (hpanic : ∀ p, returned ≠ some (.panic p)) :
    (⟨[], returned⟩ : SendRun).Sound left fds where
  isPrefix := List.nil_prefix
  attached := trivial
  nonempty := fun _ h => absurd h List.not_mem_nil
  complete := ⟨fun h => absurd h hok, fun h => absurd h.symm hleft⟩
  noPanic := hpanic

/-- A run with nothing to do. -/
theorem SendRun.sound_done {data : Bytes} {off : Nat}
    (hoff : data.length ≤ off) (fds : List Fd) :
    (⟨[], some (.ok ())⟩ : SendRun).Sound (data.drop off) fds where
  isPrefix := List.nil_prefix
  attached := trivial
  nonempty := fun _ h => absurd h List.not_mem_nil
  complete := ⟨fun _ => (List.drop_of_length_le hoff).symm, fun _ => rfl⟩
  noPanic := by simp

/-- A run behind an accepting call. -/
theorem SendRun.Sound.cons {run : SendRun} {piece left : Bytes}
    (h : run.Sound left []) (fds : List Fd) (hpiece : piece ≠ []) :
    ({ run with sent := ⟨piece, fds⟩ :: run.sent } : SendRun).Sound
      (piece ++ left) fds where
  isPrefix := by
    rw [taken_cons]
    exact (List.prefix_append_right_inj piece).mpr h.isPrefix
  attached := ⟨rfl, h.attached.fds_eq_nil⟩
  nonempty := by
    intro s hs
    rcases List.mem_cons.mp hs with rfl | hs
    · exact hpiece
    · exact h.nonempty s hs
  complete := by
    rw [taken_cons, List.append_cancel_left_eq]
    exact h.complete
  noPanic := h.noPanic

namespace DbusWriter

-- ============================================== the equations of the loop

section loop

variable {data : Bytes} {fds : List Fd}

/-- Each call of the writer uses up one of the kernel. -/
theorem length_of_sendmsgSome {chunk : Bytes} {sendFds : List Fd}
    {calls rest : List Sendmsg} {result : Result Segment}
    (h : sendmsgSome chunk sendFds calls = some (result, rest)) :
    rest.length < calls.length := by
  induction calls with
  | nil => cases h
  | cons call calls ih =>
      rw [sendmsgSome] at h
      rw [List.length_cons]
      cases hcall : sendmsgOnce chunk sendFds call with
      | some result' =>
          rw [hcall] at h
          cases h
          exact Nat.lt_succ_self _
      | none =>
          rw [hcall] at h
          exact Nat.lt_succ_of_lt (ih h)

/-- The number of iterations makes no difference as long as there are as
many as calls. -/
theorem sendLoop_iterations (calls : List Sendmsg) :
    ∀ (iterations off : Nat) (p : Bool), calls.length ≤ iterations →
      sendLoop data fds iterations off p calls
        = sendLoop data fds calls.length off p calls := by
  induction hn : calls.length using Nat.strong_induction_on
    generalizing calls with
  | _ n ih =>
      intro iterations off p hle
      cases iterations with
      | zero =>
          rw [Nat.le_zero.mp hle]
      | succ iterations =>
          cases n with
          | zero =>
              rw [List.length_eq_zero_iff] at hn
              subst hn
              rw [sendLoop, sendLoop]
              rfl
          | succ n =>
              rw [sendLoop, sendLoop]
              split
              next hoff =>
                dsimp only
                split
                · rfl
                · rfl
                · rfl
                next segment rest hsome =>
                  have hlt := length_of_sendmsgSome hsome
                  rw [hn] at hlt
                  rw [ih rest.length hlt rest rfl _ _ _ (by omega),
                    ih rest.length hlt rest rfl n _ _ (by omega)]
              next hoff => rfl

/-- Behind the last byte the loop is done. -/
theorem sendLoop_done {off : Nat} (iterations : Nat) (p : Bool)
    (calls : List Sendmsg) (hoff : ¬off < data.length) :
    sendLoop data fds iterations off p calls = ⟨[], some (.ok ())⟩ := by
  cases iterations with
  | zero => rw [sendLoop, if_neg hoff]
  | succ iterations => rw [sendLoop, if_neg hoff]

/-- A call that blocks is made again. -/
theorem sendLoop_wouldBlock (off : Nat) (p : Bool) (calls : List Sendmsg) :
    sendLoop data fds (Sendmsg.wouldBlock :: calls).length off p
        (.wouldBlock :: calls)
      = sendLoop data fds calls.length off p calls := by
  rw [← sendLoop_iterations calls (calls.length + 1) off p (by omega),
    List.length_cons, sendLoop, sendLoop]
  rfl

/-- What was accepted is not sent again. -/
theorem sendLoop_accepts {off : Nat} (n : Nat) (p : Bool)
    (calls : List Sendmsg) (hoff : off < data.length) :
    sendLoop data fds (Sendmsg.accepts (n + 1) :: calls).length off p
        (.accepts (n + 1) :: calls)
      = let piece := (data.drop off).take (n + 1)
        let run := sendLoop data fds calls.length (off + piece.length) false
          calls
        { run with sent := ⟨piece, if p then fds else []⟩ :: run.sent } := by
  have hne : ((data.drop off).take (n + 1)).length ≠ 0 := by
    rw [List.length_take, List.length_drop]
    omega
  rw [List.length_cons, sendLoop, if_pos hoff]
  simp only [sendmsgSome, sendmsgOnce]
  rw [if_neg hne]

variable (data fds) in
/-- A refusal ends the loop. -/
theorem sendLoop_refuses {call : Sendmsg} (h : call.Refuses) :
    ∃ e, ∀ (off : Nat) (p : Bool) (calls : List Sendmsg), off < data.length →
      sendLoop data fds (call :: calls).length off p (call :: calls)
        = ⟨[], some (.err e)⟩ := by
  cases call with
  | wouldBlock => cases h
  | accepts n =>
      have hn : n = 0 := h
      subst hn
      refine ⟨.io (utf8 "failed to write any bytes"),
        fun off p calls hoff => ?_⟩
      rw [List.length_cons, sendLoop, if_pos hoff]
      rfl
  | fails text =>
      refine ⟨.io text, fun off p calls hoff => ?_⟩
      rw [List.length_cons, sendLoop, if_pos hoff]
      rfl

-- ================================================================== the runs

variable (data) in
/-- Behind an accepting call, what is left is the rest of what was. -/
theorem drop_add_take_length (off n : Nat) :
    data.drop off = (data.drop off).take n
      ++ data.drop (off + ((data.drop off).take n).length) := by
  rw [← List.drop_drop, List.length_take, List.length_drop]
  rcases Nat.le_total n (data.length - off) with h | h
  · rw [Nat.min_eq_left h, List.take_append_drop]
  · rw [Nat.min_eq_right h, List.take_of_length_le (by simpa using h),
      ← List.length_drop, List.drop_length, List.append_nil]

variable (data fds) in
/-- At any point the loop sends a beginning of what is left. -/
theorem sendLoop_sound (calls : List Sendmsg) :
    ∀ (off : Nat) (p : Bool),
      (sendLoop data fds calls.length off p calls).Sound (data.drop off)
        (if p then fds else []) := by
  induction calls with
  | nil =>
      intro off p
      by_cases hoff : off < data.length
      · rw [List.length_nil, sendLoop, if_pos hoff]
        exact SendRun.sound_nil _ (by simpa using hoff) (by simp) (by simp)
      · rw [sendLoop_done _ _ _ hoff]
        exact SendRun.sound_done (Nat.le_of_not_lt hoff) _
  | cons call calls ih =>
      intro off p
      by_cases hoff : off < data.length
      · rcases call.cases with rfl | ⟨n, rfl⟩ | hrefuses
        · rw [sendLoop_wouldBlock]
          exact ih off p
        · have hpiece : (data.drop off).take (n + 1) ≠ [] := by
            simpa using hoff
          have hrest := ih
            (off + ((data.drop off).take (n + 1)).length) false
          have hrun := hrest.cons (if p then fds else []) hpiece
          rw [← drop_add_take_length] at hrun
          rw [sendLoop_accepts n p calls hoff]
          exact hrun
        · obtain ⟨e, hrun⟩ :=
            sendLoop_refuses data fds hrefuses
          rw [hrun off p calls hoff]
          exact SendRun.sound_nil _ (by simpa using hoff) (by simp) (by simp)
      · rw [sendLoop_done _ _ _ hoff]
        exact SendRun.sound_done (Nat.le_of_not_lt hoff) _

/-- Where every call makes progress or blocks, the run does not end in an
error. -/
theorem sendLoop_not_err (calls : List Sendmsg) :
    ∀ (off : Nat) (p : Bool), (∀ call ∈ calls, ¬call.Refuses) →
      ∀ e, (sendLoop data fds calls.length off p calls).returned
        ≠ some (.err e) := by
  induction calls with
  | nil =>
      intro off p _ e
      rw [List.length_nil, sendLoop]
      split
      · simp
      · simp
  | cons call calls ih =>
      intro off p hcalls e
      have hrest := fun c hc => hcalls c (List.mem_cons_of_mem call hc)
      by_cases hoff : off < data.length
      · rcases call.cases with rfl | ⟨n, rfl⟩ | hrefuses
        · rw [sendLoop_wouldBlock]
          exact ih off p hrest e
        · rw [sendLoop_accepts n p calls hoff]
          exact ih _ false hrest e
        · exact absurd hrefuses (hcalls _ (List.mem_cons_self ..))
      · rw [sendLoop_done _ _ _ hoff]
        simp

variable (data fds) in
/-- More calls change nothing for a run that has returned; one that waits
goes on with them. -/
theorem sendLoop_append (calls more : List Sendmsg) :
    ∀ (off : Nat) (p : Bool),
      let run := sendLoop data fds calls.length off p calls
      let run' := sendLoop data fds (calls ++ more).length off p
        (calls ++ more)
      (run.returned ≠ none ∧ run' = run)
        ∨ (run.returned = none ∧ ∃ off' p', off' < data.length ∧
            let rest := sendLoop data fds more.length off' p' more
            run' = ⟨run.sent ++ rest.sent, rest.returned⟩) := by
  induction calls with
  | nil =>
      intro off p
      dsimp only
      by_cases hoff : off < data.length
      · rw [List.length_nil, sendLoop, if_pos hoff]
        exact .inr ⟨rfl, off, p, hoff, rfl⟩
      · rw [sendLoop_done _ _ _ hoff, sendLoop_done _ _ _ hoff]
        exact .inl ⟨by simp, rfl⟩
  | cons call calls ih =>
      intro off p
      dsimp only
      rw [List.cons_append]
      by_cases hoff : off < data.length
      · rcases call.cases with rfl | ⟨n, rfl⟩ | hrefuses
        · rw [sendLoop_wouldBlock, sendLoop_wouldBlock]
          exact ih off p
        · rw [sendLoop_accepts n p _ hoff, sendLoop_accepts n p _ hoff]
          rcases ih (off + ((data.drop off).take (n + 1)).length) false with
            ⟨hreturned, hrun⟩ | ⟨hwaits, off', p', hoff', hrun⟩
          · left
            dsimp only
            rw [hrun]
            exact ⟨hreturned, rfl⟩
          · right
            refine ⟨hwaits, off', p', hoff', ?_⟩
            dsimp only
            rw [hrun, List.cons_append]
        · obtain ⟨e, hrun⟩ :=
            sendLoop_refuses data fds hrefuses
          rw [hrun off p _ hoff, hrun off p _ hoff]
          exact .inl ⟨by simp, rfl⟩
      · rw [sendLoop_done _ _ _ hoff, sendLoop_done _ _ _ hoff]
        exact .inl ⟨by simp, rfl⟩

/-- While a run waits, each call that did not block has taken a byte. -/
theorem answered_le_taken (calls : List Sendmsg) :
    ∀ (off : Nat) (p : Bool),
      let run := sendLoop data fds calls.length off p calls
      run.returned = none → answered calls ≤ (taken run.sent).length := by
  induction calls with
  | nil =>
      intro off p run _
      exact Nat.zero_le _
  | cons call calls ih =>
      intro off p
      dsimp only
      intro hwaits
      by_cases hoff : off < data.length
      · rcases call.cases with rfl | ⟨n, rfl⟩ | hrefuses
        · rw [sendLoop_wouldBlock] at hwaits ⊢
          exact ih off p hwaits
        · rw [sendLoop_accepts n p calls hoff] at hwaits ⊢
          have hrest := ih _ false hwaits
          have hpiece : 0 < ((data.drop off).take (n + 1)).length := by
            rw [List.length_take, List.length_drop]
            omega
          rw [taken_cons, List.length_append, answered,
            List.countP_cons_of_pos (by simp), Nat.add_comm]
          exact Nat.add_le_add (Nat.succ_le_of_lt hpiece) hrest
        · obtain ⟨e, hrun⟩ :=
            sendLoop_refuses data fds hrefuses
          rw [hrun off p calls hoff] at hwaits
          cases hwaits
      · rw [sendLoop_done _ _ _ hoff] at hwaits
        cases hwaits

end loop

-- ================================================================== flushing

/-- How many bytes each accepting call takes. -/
def counts (calls : List Sendmsg) : List Nat :=
  calls.filterMap fun call =>
    match call with
    | .accepts n => some n
    | _ => none

/-- The loop is one flush of the queue. -/
theorem flush_of_sendLoop (data : Bytes) (fds : List Fd)
    (calls : List Sendmsg) :
    ∀ (off : Nat) (p : Bool),
      let run := sendLoop data fds calls.length off p calls
      run.returned = some (.ok ()) →
      flush (counts calls) (data.drop off) (if p then fds else [])
        = .ok run.sent := by
  have hdone : ∀ (calls : List Sendmsg) (off : Nat) (p : Bool),
      ¬off < data.length →
      flush (counts calls) (data.drop off) (if p then fds else [])
        = .ok (sendLoop data fds calls.length off p calls).sent := by
    intro calls off p hoff
    rw [sendLoop_done _ _ _ hoff,
      List.drop_of_length_le (Nat.le_of_not_lt hoff), flush]
  induction calls with
  | nil =>
      intro off p run hok
      by_cases hoff : off < data.length
      · have hrun : run = ⟨[], none⟩ := by
          unfold run
          rw [List.length_nil, sendLoop, if_pos hoff]
        rw [hrun] at hok
        cases hok
      · exact hdone [] off p hoff
  | cons call calls ih =>
      intro off p
      dsimp only
      intro hok
      by_cases hoff : off < data.length
      · rcases call.cases with rfl | ⟨n, rfl⟩ | hrefuses
        · rw [sendLoop_wouldBlock] at hok ⊢
          exact ih off p hok
        · rw [sendLoop_accepts n p calls hoff] at hok ⊢
          have hrest := ih _ false hok
          have hleft : data.drop off
              = data[off] :: data.drop (off + 1) :=
            List.drop_eq_getElem_cons hoff
          have hflush : ∀ carried, flush (counts (.accepts (n + 1) :: calls))
              (data.drop off) carried
              = (do
                  let rest ← flush (counts calls)
                    ((data.drop off).drop (n + 1)) []
                  .ok (⟨(data.drop off).take (n + 1), carried⟩ :: rest)) := by
            intro carried
            rw [hleft]
            rfl
          have hdrop : (data.drop off).drop (n + 1)
              = data.drop (off + ((data.drop off).take (n + 1)).length) := by
            have hparts := drop_add_take_length data off (n + 1)
            have hself := List.take_append_drop (n + 1) (data.drop off)
            exact List.append_cancel_left (hself.trans hparts)
          rw [hflush, hdrop]
          simp only [Bool.false_eq_true, if_false] at hrest
          rw [hrest]
          rfl
        · obtain ⟨e, hrun⟩ :=
            sendLoop_refuses data fds hrefuses
          rw [hrun off p calls hoff] at hok
          cases hok
      · exact hdone (call :: calls) off p hoff

-- ================================================================ the writer

section send

variable {data : Bytes} {fds : List Fd}

/-- A message with few enough descriptors goes into the loop. -/
theorem sendCalls_eq (calls : List Sendmsg)
    (hfds : fds.length ≤ maxFdsPerMessage) :
    sendCalls calls data fds
      = sendLoop data fds calls.length 0 (!fds.isEmpty) calls := by
  unfold sendCalls
  rw [if_neg (Nat.not_lt.mpr hfds)]

variable (data) in
/-- So what is sent is a beginning of it. -/
theorem sendCalls_sound (calls : List Sendmsg)
    (hfds : fds.length ≤ maxFdsPerMessage) :
    (sendCalls calls data fds).Sound data fds := by
  have h := sendLoop_sound data fds calls 0 (!fds.isEmpty)
  rw [← sendCalls_eq calls hfds, List.drop_zero] at h
  cases fds with
  | nil => exact h
  | cons fd fds => exact h

/-- A call that returned `Ok` has flushed the message with the counts that
its `sendmsg` calls returned. -/
theorem send_of_sendCalls {calls : List Sendmsg}
    (h : (sendCalls calls data fds).returned = some (.ok ())) :
    DbusWriter.send (counts calls) data fds
      = .ok (sendCalls calls data fds).sent := by
  unfold sendCalls at h ⊢
  unfold DbusWriter.send
  split at h
  · cases h
  next hfds =>
    rw [if_neg hfds, if_neg hfds]
    have hflush :=
      flush_of_sendLoop data fds calls 0 (!fds.isEmpty) h
    rw [List.drop_zero] at hflush
    cases fds with
    | nil => exact hflush
    | cons fd fds => exact hflush

/-- The calls of a script that begins as the kernel's does. -/
def firstCalls (kernel : Nat → Sendmsg) (n : Nat) : List Sendmsg :=
  (List.range n).map kernel

/-- The first calls of a kernel are followed by the next. -/
theorem firstCalls_add (kernel : Nat → Sendmsg) (n k : Nat) :
    ∃ more, firstCalls kernel (n + k) = firstCalls kernel n ++ more := by
  unfold firstCalls
  rw [List.range_add, List.map_append]
  exact ⟨_, rfl⟩

/-- When the socket always becomes writable again, any number of calls
do not block. -/
theorem exists_answered {kernel : Nat → Sendmsg}
    (hfair : ∀ i, ∃ j, i ≤ j ∧ kernel j ≠ .wouldBlock) (k : Nat) :
    ∃ n, k ≤ answered (firstCalls kernel n) := by
  induction k with
  | zero => exact ⟨0, Nat.zero_le _⟩
  | succ k ih =>
      obtain ⟨n, hn⟩ := ih
      obtain ⟨j, hj, hcall⟩ := hfair n
      obtain ⟨d, rfl⟩ := Nat.exists_eq_add_of_le hj
      obtain ⟨more, hmore⟩ := firstCalls_add kernel n d
      refine ⟨n + d + 1, ?_⟩
      have hlast : firstCalls kernel (n + d + 1)
          = firstCalls kernel n ++ more ++ [kernel (n + d)] := by
        rw [← hmore]
        unfold firstCalls
        rw [List.range_succ, List.map_append]
        rfl
      unfold answered at hn ⊢
      rw [hlast, List.countP_append, List.countP_append,
        List.countP_singleton, if_pos (by simpa using hcall)]
      omega

/-- A run returns, and what comes behind that makes no difference to it. -/
theorem exists_returned (hfds : fds.length ≤ maxFdsPerMessage)
    {kernel : Nat → Sendmsg}
    (hfair : ∀ i, ∃ j, i ≤ j ∧ kernel j ≠ .wouldBlock) :
    ∃ n run, run.returned ≠ none ∧ ∀ m, n ≤ m →
      sendCalls (firstCalls kernel m) data fds = run := by
  obtain ⟨n, hn⟩ := exists_answered hfair (data.length + 1)
  have hreturned :
      (sendCalls (firstCalls kernel n) data fds).returned ≠ none := by
    intro hwaits
    have hsound := sendCalls_sound data (firstCalls kernel n) hfds
    have hlen := hsound.isPrefix.length_le
    rw [sendCalls_eq _ hfds] at hwaits hlen
    have hle := answered_le_taken _ 0 (!fds.isEmpty) hwaits
    omega
  refine ⟨n, _, hreturned, fun m hm => ?_⟩
  obtain ⟨d, rfl⟩ := Nat.exists_eq_add_of_le hm
  obtain ⟨more, hmore⟩ := firstCalls_add kernel n d
  rw [sendCalls_eq _ hfds] at hreturned
  rw [sendCalls_eq _ hfds, sendCalls_eq _ hfds, hmore]
  rcases sendLoop_append data fds (firstCalls kernel n)
    more 0 (!fds.isEmpty) with ⟨-, hrun⟩ | ⟨hwaits, -⟩
  · exact hrun
  · exact absurd hwaits hreturned

/-- A call that takes nothing ends a run that waits for it. -/
theorem sendCalls_refused (hfds : fds.length ≤ maxFdsPerMessage)
    {good : List Sendmsg} (more : List Sendmsg) {bad : Sendmsg}
    (hbad : bad.Refuses)
    (hwaits : (sendCalls good data fds).returned = none) :
    ∃ e, sendCalls (good ++ bad :: more) data fds
      = ⟨(sendCalls good data fds).sent, some (.err e)⟩ := by
  obtain ⟨e, hrun⟩ := sendLoop_refuses data fds hbad
  refine ⟨e, ?_⟩
  rw [sendCalls_eq _ hfds] at hwaits ⊢
  rw [sendCalls_eq _ hfds]
  rcases sendLoop_append data fds good (bad :: more) 0
    (!fds.isEmpty) with ⟨hreturned, -⟩ | ⟨-, off, p, hoff, happend⟩
  · exact absurd hwaits hreturned
  · rw [happend, hrun off p more hoff, List.append_nil]

/-- What a run that returned put on the stream begins with the part that
has the descriptors. -/
theorem SendRun.Sound.first {run : SendRun} (h : run.Sound data fds)
    (hdata : data ≠ []) (hall : taken run.sent = data) :
    ∃ first rest, run.sent = first :: rest ∧ first.bytes ≠ []
      ∧ first.fds = fds ∧ ∀ later ∈ rest, later.fds = [] := by
  have hattached := h.attached
  have hnonempty := h.nonempty
  cases hsent : run.sent with
  | nil =>
      rw [hsent] at hall
      exact absurd hall.symm hdata
  | cons first rest =>
      rw [hsent] at hattached hnonempty
      exact ⟨first, rest, rfl, hnonempty first (List.mem_cons_self ..),
        hattached.1, hattached.2⟩

end send

end DbusWriter

end DbusRouter.Model
