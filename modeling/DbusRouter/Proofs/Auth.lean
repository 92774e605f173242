/-
Authentication: what is lost, and when it ends.

A line that is read to its end is written whole. A line that is not may be
dropped with the future that was reading it, which happens when the other
side completes a line first (`line_lost`). Where that does not happen, what
was read from a side is what was written to the other and what its future
holds (`bytes_kept`).

The loop ends by its count of NEGOTIATE_UNIX_FD lines, and not by the
answers the bus owes (`ends_early`). The count is about the lines that have
arrived: the most by which, from some line on, the negotiations outnumber the
AGREE_UNIX_FDs and ERRORs (`seen_run`). The loop ends in step with the bus
exactly when no line of the client's comes in the middle of one of the bus's,
and of the answers that come behind the client's BEGIN as many lower the count
as it is then, the last of them among these (`auth_ends_in_step`).
-/
import Mathlib.Data.List.Infix
import DbusRouter.Lib.Excess
import DbusRouter.Lib.Token
import DbusRouter.Model.Auth

namespace DbusRouter.Model

open Wire Lib

-- ================================================================== one read

/-- One read, without the calls in between: the null byte, a byte inside a
line, or the end of a line. -/
inductive AuthMove : AuthState → AuthEvent → List AuthWrite →
    AuthState → Prop
  | null : AuthMove .start (.client (some 0)) [.toBus [0]]
      (.loop ⟨[], [], 0, false⟩)
  | clientByte {l : AuthLoop} {c : UInt8} : l.beginReceived = false →
      endsLine (l.clientResult ++ [c]) = false →
      AuthMove (.loop l) (.client (some c)) []
        (.loop { l with clientResult := l.clientResult ++ [c] })
  | clientLine {l : AuthLoop} {c : UInt8} : l.beginReceived = false →
      endsLine (l.clientResult ++ [c]) = true →
      AuthMove (.loop l) (.client (some c))
        [.toBus (l.clientResult ++ [c])]
        (.next (if isNegotiateUnixFd (l.clientResult ++ [c])
            then l.pendingResponses + 1 else l.pendingResponses)
          (isBeginLine (l.clientResult ++ [c])))
  | busByte {l : AuthLoop} {c : UInt8} :
      endsLine (l.busResult ++ [c]) = false →
      AuthMove (.loop l) (.bus (some c)) []
        (.loop { l with busResult := l.busResult ++ [c] })
  | busLine {l : AuthLoop} {c : UInt8} :
      endsLine (l.busResult ++ [c]) = true →
      AuthMove (.loop l) (.bus (some c)) [.toClient (l.busResult ++ [c])]
        (.next (if isAgreeUnixFd (l.busResult ++ [c])
            || isErrorLine (l.busResult ++ [c])
            then l.pendingResponses - 1 else l.pendingResponses)
          l.beginReceived)

/-- A byte inside a line is kept. -/
theorem readAuthLine_more {result result' : Bytes} {byte : Option UInt8}
    (h : readAuthLine result byte = .ok (.more result')) :
    ∃ c, byte = some c ∧ endsLine (result ++ [c]) = false
      ∧ result' = result ++ [c] := by
  cases byte with
  | none => cases h
  | some c =>
      refine ⟨c, rfl, ?_⟩
      simp only [readAuthLine] at h
      split at h
      next => cases h
      next hends =>
        split at h
        next => cases h
        next =>
          cases h
          exact ⟨by simpa using hends, rfl⟩

/-- A byte that ends the line hands it over. -/
theorem readAuthLine_line {result line : Bytes} {byte : Option UInt8}
    (h : readAuthLine result byte = .ok (.line line))
    (hne : line.isEmpty = false) :
    ∃ c, byte = some c ∧ endsLine (result ++ [c]) = true
      ∧ line = result ++ [c] := by
  cases byte with
  | none =>
      cases h
      cases hne
  | some c =>
      refine ⟨c, rfl, ?_⟩
      simp only [readAuthLine] at h
      split at h
      next hends =>
        cases h
        exact ⟨hends, rfl⟩
      next =>
        split at h
        next => cases h
        next => cases h

/-- A line of the client's goes to the bus, and raises the count if it is a
NEGOTIATE_UNIX_FD. -/
theorem onClientLine_eq_ok {l : AuthLoop} {line : Bytes}
    {x : AuthState × List AuthWrite} (h : l.onClientLine line = .ok x) :
    line.isEmpty = false
      ∧ x = (.next (if isNegotiateUnixFd line then l.pendingResponses + 1
          else l.pendingResponses)
        (if isBeginLine line then true else l.beginReceived),
        [.toBus line]) := by
  unfold AuthLoop.onClientLine at h
  split at h
  next => cases h
  next hne =>
    split at h
    next => cases h
    next =>
      cases h
      exact ⟨by simpa using hne, rfl⟩

/-- A line of the bus goes to the client, and lowers the count if it is
AGREE_UNIX_FD or ERROR. -/
theorem onBusLine_eq_ok {l : AuthLoop} {line : Bytes}
    {x : AuthState × List AuthWrite} (h : l.onBusLine line = .ok x) :
    line.isEmpty = false
      ∧ x = (.next (if isAgreeUnixFd line || isErrorLine line
          then l.pendingResponses - 1 else l.pendingResponses)
        l.beginReceived, [.toClient line]) := by
  unfold AuthLoop.onBusLine at h
  split at h
  next => cases h
  next hne =>
    cases h
    exact ⟨by simpa using hne, rfl⟩

/-- Every read is one of these. -/
theorem AuthState.Step.move {s s' : AuthState} {ev : AuthEvent}
    {ws : List AuthWrite} (h : s.Step ev ws s') : AuthMove s ev ws s' := by
  obtain ⟨hreads, hok⟩ := h
  cases s with
  | start =>
      cases ev with
      | bus => cases hreads
      | client byte =>
          cases byte with
          | none => cases hok
          | some c =>
              simp only [AuthState.authPassthrough] at hok
              split at hok
              next => cases hok
              next hc =>
                have hc : c = 0 := by simpa using hc
                subst hc
                cases hok
                exact .null
  | done => cases ev <;> cases hreads
  | loop l =>
      cases ev with
      | client byte =>
          have hbegin : l.beginReceived = false := by
            simpa [AuthState.reads] using hreads
          simp only [AuthState.authPassthrough] at hok
          obtain ⟨r, hr, hok⟩ := Outcome.bind_eq_ok hok
          cases r with
          | more result =>
              obtain ⟨c, rfl, hends, rfl⟩ := readAuthLine_more hr
              cases hok
              exact .clientByte hbegin hends
          | line line =>
              obtain ⟨hne, hx⟩ := onClientLine_eq_ok hok
              obtain ⟨c, rfl, hends, rfl⟩ := readAuthLine_line hr hne
              rw [hbegin] at hx
              simp only [Bool.if_false_right, Bool.and_true, Bool.decide_eq_true]
                at hx
              cases hx
              exact .clientLine hbegin hends
      | bus byte =>
          simp only [AuthState.authPassthrough] at hok
          obtain ⟨r, hr, hok⟩ := Outcome.bind_eq_ok hok
          cases r with
          | more result =>
              obtain ⟨c, rfl, hends, rfl⟩ := readAuthLine_more hr
              cases hok
              exact .busByte hends
          | line line =>
              obtain ⟨hne, hx⟩ := onBusLine_eq_ok hok
              obtain ⟨c, rfl, hends, rfl⟩ := readAuthLine_line hr hne
              cases hx
              exact .busLine hends

-- ============================================================ what is kept

/-- A line as `read_auth_line` finds it: up to the first CRLF. -/
def IsLine (line : Bytes) : Prop := Token (fun w => endsLine w = true) line

/-- A line has its end at least. -/
theorem IsLine.ne_nil {line : Bytes} (h : IsLine line) : line ≠ [] := by
  intro hnil
  rw [hnil] at h
  cases h.1

namespace AuthState

/-- What the client's future holds. -/
def clientResult : AuthState → Bytes
  | .loop l => l.clientResult
  | _ => []

/-- What the bus's future holds. -/
def busResult : AuthState → Bytes
  | .loop l => l.busResult
  | _ => []

/-- The client's branch completes. -/
def endsClientLine : AuthState → AuthEvent → Bool
  | .loop l, .client (some c) => endsLine (l.clientResult ++ [c])
  | _, _ => false

/-- The bus's branch completes. -/
def endsBusLine : AuthState → AuthEvent → Bool
  | .loop l, .bus (some c) => endsLine (l.busResult ++ [c])
  | _, _ => false

/-- No part of a bus line is dropped. -/
def KeepsBusResult (s : AuthState) (ev : AuthEvent) : Prop :=
  s.endsClientLine ev = true → s.busResult = []

/-- No part of a client line is dropped. -/
def KeepsClientResult (s : AuthState) (ev : AuthEvent) : Prop :=
  s.endsBusLine ev = true → s.clientResult = []

/-- No part of a line is dropped. -/
def KeepsResults (s : AuthState) (ev : AuthEvent) : Prop :=
  s.KeepsClientResult ev ∧ s.KeepsBusResult ev

end AuthState

@[simp] theorem loop_busResult (l : AuthLoop) :
    (AuthState.loop l).busResult = l.busResult := rfl

@[simp] theorem loop_clientResult (l : AuthLoop) :
    (AuthState.loop l).clientResult = l.clientResult := rfl

/-- A new turn starts on a new line of the bus. -/
@[simp] theorem next_busResult (n : Nat) (b : Bool) :
    (AuthState.next n b).busResult = [] := by
  unfold AuthState.next
  split <;> rfl

/-- A next iteration starts without a part of a client line. -/
@[simp] theorem next_clientResult (n : Nat) (b : Bool) :
    (AuthState.next n b).clientResult = [] := by
  unfold AuthState.next
  split <;> rfl

section trace

variable (t : AuthTrace) (ev : AuthEvent) (ws : List AuthWrite)

@[simp] theorem readFromClient_snoc : readFromClient (t ++ [(ev, ws)])
    = readFromClient t ++ ev.fromClient := by
  simp [readFromClient]

@[simp] theorem readFromBus_snoc : readFromBus (t ++ [(ev, ws)])
    = readFromBus t ++ ev.fromBus := by
  simp [readFromBus]

@[simp] theorem writesToClient_snoc : writesToClient (t ++ [(ev, ws)])
    = writesToClient t ++ ws.flatMap AuthWrite.forClient := by
  simp [writesToClient]

@[simp] theorem writesToBus_snoc : writesToBus (t ++ [(ev, ws)])
    = writesToBus t ++ ws.flatMap AuthWrite.forBus := by
  simp [writesToBus]

end trace

/-- What was read from the bus has been written to the client, up to what
the future holds. -/
theorem bus_bytes_kept {t : AuthTrace} {s : AuthState}
    (hrun : Steps (Meeting AuthState.Step AuthState.KeepsBusResult) .start
      t s) :
    readFromBus t = (writesToClient t).flatten ++ s.busResult := by
  refine hrun.history (P := fun t s => readFromBus t
    = (writesToClient t).flatten ++ s.busResult) rfl ?_
  rintro t m ev ws m' - ih ⟨hkeeps, hstep⟩
  rw [readFromBus_snoc, writesToClient_snoc, ih]
  cases hstep.move with
  | null | clientByte | busByte =>
      simp [AuthEvent.fromBus, AuthWrite.forClient, AuthState.busResult]
  | clientLine hbegin hends =>
      have hnone := hkeeps hends
      rw [hnone]
      simp [AuthEvent.fromBus, AuthWrite.forClient]
  | busLine hends =>
      simp [AuthEvent.fromBus, AuthWrite.forClient]

/-- What was read from the client is written to the bus or still held, as long
as no part of a line is dropped. -/
theorem client_bytes_kept {t : AuthTrace} {s : AuthState}
    (hrun : Steps (Meeting AuthState.Step AuthState.KeepsClientResult) .start
      t s) :
    readFromClient t = (writesToBus t).flatten ++ s.clientResult := by
  refine hrun.history (P := fun t s => readFromClient t
    = (writesToBus t).flatten ++ s.clientResult) rfl ?_
  rintro t m ev ws m' - ih ⟨hkeeps, hstep⟩
  rw [readFromClient_snoc, writesToBus_snoc, ih]
  cases hstep.move with
  | null | clientByte | busByte =>
      simp [AuthEvent.fromClient, AuthWrite.forBus, AuthState.clientResult]
  | clientLine hbegin hends =>
      simp [AuthEvent.fromClient, AuthWrite.forBus]
  | busLine hends =>
      have hnone := hkeeps hends
      rw [hnone]
      simp [AuthEvent.fromClient, AuthWrite.forBus]

/-- Every write to the client is a line as the future found it. -/
theorem lines_to_client {t : AuthTrace} {s : AuthState}
    (hrun : Steps AuthState.Step .start t s) :
    ∀ line ∈ writesToClient t, IsLine line := by
  have hboth : (∀ line ∈ writesToClient t, IsLine line)
      ∧ Unfinished (fun w => endsLine w = true) s.busResult := by
    have hnil : Unfinished (fun w => endsLine w = true) ([] : Bytes) :=
      unfinished_nil (by decide)
    refine hrun.history (P := fun t s =>
      (∀ line ∈ writesToClient t, IsLine line)
        ∧ Unfinished (fun w => endsLine w = true) s.busResult)
      ⟨by simp [writesToClient], hnil⟩ ?_
    rintro t m ev ws m' - ⟨hlines, hrest⟩ hstep
    rw [writesToClient_snoc]
    cases hstep.move with
    | null | clientByte =>
        simpa [AuthWrite.forClient] using ⟨hlines, hrest⟩
    | clientLine =>
        simpa [AuthWrite.forClient] using ⟨hlines, hnil⟩
    | busByte hends =>
        refine ⟨by simpa using hlines, ?_⟩
        exact hrest.snoc (by simpa using hends)
    | busLine hends =>
        have hline : IsLine _ := hrest.token_of_ends hends
        refine ⟨fun line hmem => ?_, by simpa using hnil⟩
        simp only [List.flatMap_cons, AuthWrite.forClient, List.flatMap_nil,
          List.append_nil, List.mem_append, List.mem_singleton] at hmem
        rcases hmem with hmem | rfl
        · exact hlines line hmem
        · exact hline
  exact hboth.1

-- ============================================================ runs in practice

instance (line : Bytes) : Decidable (IsLine line) :=
  decidable_of_iff (endsLine line = true
    ∧ ∀ p ∈ line.inits, endsLine p = true → p = line) <| by
    simp only [List.mem_inits]
    exact Iff.rfl

instance (s : AuthState) (ev : AuthEvent) : Decidable (s.KeepsResults ev) :=
  inferInstanceAs (Decidable ((_ → _) ∧ (_ → _)))

/-- The step of an event that meets a condition. -/
def AuthState.advance (C : AuthState → AuthEvent → Prop)
    [∀ s ev, Decidable (C s ev)] (s : AuthState) (ev : AuthEvent) :
    Option (List AuthWrite × AuthState) :=
  if C s ev ∧ s.reads ev = true then
    match s.authPassthrough ev with
    | .ok (s', ws) => some (ws, s')
    | _ => none
  else none

/-- A step that `advance` takes meets the condition. -/
theorem advance_step {C : AuthState → AuthEvent → Prop}
    [∀ s ev, Decidable (C s ev)] {s s' : AuthState} {ev : AuthEvent}
    {ws : List AuthWrite} (h : s.advance C ev = some (ws, s')) :
    Meeting AuthState.Step C s ev ws s' := by
  unfold AuthState.advance at h
  split at h
  next hc =>
    split at h
    next hok =>
      cases h
      exact ⟨hc.1, hc.2, hok⟩
    next => cases h
  next => cases h

/-- So what it takes of a sequence of events is a run of steps that meet it. -/
theorem steps_advance (C : AuthState → AuthEvent → Prop)
    [∀ s ev, Decidable (C s ev)] (evs : List AuthEvent) :
    Steps (Meeting AuthState.Step C) .start
      (follow (AuthState.advance C) .start evs).1
      (follow (AuthState.advance C) .start evs).2 :=
  steps_follow (f := AuthState.advance C) (fun _ _ _ _ => advance_step)
    .start evs

/-- The trace of a list of events. -/
def authTrace (evs : List AuthEvent) : AuthTrace :=
  (follow (AuthState.advance fun _ _ => True) .start evs).1

def clientSends (s : String) : List AuthEvent :=
  (utf8 s).map fun c => .client (some c)

def busSends (s : String) : List AuthEvent :=
  (utf8 s).map fun c => .bus (some c)

-- ============================================================ no byte is lost

/-- Each side is written a beginning of what the other has sent. -/
def NoByteLost : Prop :=
  ∀ (clientLines busLines : List Bytes) (t : AuthTrace) (s : AuthState),
    (∀ line ∈ clientLines, IsLine line ∧ line.length < 4096) →
    (∀ line ∈ busLines, IsLine line ∧ line.length < 4096) →
    Steps AuthState.Step .start t s →
    readFromClient t <+: 0 :: clientLines.flatten →
    readFromBus t <+: busLines.flatten →
    (writesToBus t).flatten <+: 0 :: clientLines.flatten
      ∧ (writesToClient t).flatten <+: busLines.flatten

/-- In a run that drops no part of a line, each side is written a beginning
of what the other has sent. -/
theorem bytes_kept {t : AuthTrace} {s : AuthState}
    {clientSent busSent : Bytes}
    (hrun : Steps (Meeting AuthState.Step AuthState.KeepsResults) .start t s)
    (hclient : readFromClient t <+: clientSent)
    (hbus : readFromBus t <+: busSent) :
    (writesToBus t).flatten <+: clientSent
      ∧ (writesToClient t).flatten <+: busSent := by
  have hc := client_bytes_kept (hrun.meeting_mono fun _ _ h => h.1)
  have hb := bus_bytes_kept (hrun.meeting_mono fun _ _ h => h.2)
  rw [hc] at hclient
  rw [hb] at hbus
  exact ⟨(List.prefix_append ..).trans hclient,
    (List.prefix_append ..).trans hbus⟩

/-- The client's BEGIN arrives in two pieces, and the bus's answer in
between. -/
def splitBegin : List AuthEvent :=
  clientSends "\x00AUTH\r\nB" ++ busSends "OK\r\n" ++ clientSends "EGIN\r\n"

/-- The first piece is lost. -/
theorem line_lost : ¬NoByteLost := by
  intro h
  have hrun := (steps_advance (fun _ _ => True) splitBegin).of_meeting
  have hkept := (h [utf8 "AUTH\r\n", utf8 "BEGIN\r\n"] [utf8 "OK\r\n"]
    (authTrace splitBegin) _ (by decide +kernel) (by decide +kernel) hrun
    (by decide +kernel) (by decide +kernel)).1
  revert hkept
  decide +kernel

/-- The same lines, each in one piece. -/
def wholeLines : List AuthEvent :=
  clientSends "\x00AUTH\r\n" ++ busSends "OK\r\n"
    ++ clientSends "NEGOTIATE_UNIX_FD\r\n" ++ busSends "AGREE_UNIX_FD\r\n"
    ++ clientSends "BEGIN\r\n"

/-- They are kept. -/
theorem bytes_kept_whole :
    (writesToBus (authTrace wholeLines)).flatten
        <+: utf8 "\x00AUTH\r\nNEGOTIATE_UNIX_FD\r\nBEGIN\r\n"
      ∧ (writesToClient (authTrace wholeLines)).flatten
        <+: utf8 "OK\r\nAGREE_UNIX_FD\r\n" := by
  have heq : (follow (AuthState.advance AuthState.KeepsResults) .start
      wholeLines).1 = authTrace wholeLines := by decide +kernel
  have hrun := steps_advance AuthState.KeepsResults wholeLines
  rw [heq] at hrun
  exact bytes_kept hrun (by decide +kernel) (by decide +kernel)

-- ================================================================ how it ends

/-- A line that lowers the count of pending responses. -/
def isResponse (line : Bytes) : Bool :=
  isAgreeUnixFd line || isErrorLine line

/-- Among the answers as many lower the count as are pending, the last of
them included. -/
def Settles (pending : Nat) (answers : List Bytes) : Prop :=
  answers.countP isResponse = pending
    ∧ ∀ line ∈ answers.getLast?, isResponse line = true

/-- A count is settled at one point only. -/
theorem Settles.eq_of_isPrefix {pending : Nat} {a b : List Bytes}
    (ha : Settles pending a) (hb : Settles pending b) (h : a <+: b) :
    a = b := by
  obtain ⟨c, rfl⟩ := h
  obtain ⟨ha, -⟩ := ha
  obtain ⟨hb, hlast⟩ := hb
  rw [List.countP_append, ha] at hb
  rcases List.eq_nil_or_concat c with rfl | ⟨d, x, rfl⟩
  · simp
  · have hx : isResponse x = true := hlast x (by simp)
    simp [hx] at hb

/-- The count after a BEGIN: `pending` less the answers that lower it. -/
def Counting (pending : Nat) (answers : List Bytes) : AuthState → Prop
  | .start => False
  | .loop l => l.beginReceived = true ∧ 0 < l.pendingResponses
      ∧ l.pendingResponses + answers.countP isResponse = pending
  | .done => Settles pending answers

/-- Behind BEGIN nothing has been counted off yet. -/
theorem counting_next (pending : Nat) :
    Counting pending [] (.next pending true) := by
  unfold AuthState.next
  by_cases h : pending = 0
  · rw [h]
    exact ⟨rfl, by simp⟩
  · rw [if_neg (by simpa using h)]
    exact ⟨rfl, by show 0 < pending; omega, rfl⟩

/-- An answer is counted, and ends the loop if it was the last. -/
theorem counting_line {pending : Nat} {answers : List Bytes} {l : AuthLoop}
    {line : Bytes} (h : Counting pending answers (.loop l)) :
    Counting pending (answers ++ [line])
      (.next (if isAgreeUnixFd line || isErrorLine line
        then l.pendingResponses - 1 else l.pendingResponses) true) := by
  obtain ⟨-, hpos, hsum⟩ := h
  have hcount : (answers ++ [line]).countP isResponse
      = answers.countP isResponse + if isResponse line then 1 else 0 := by
    rw [List.countP_append, List.countP_singleton]
  show Counting pending (answers ++ [line])
    (.next (if isResponse line then _ else _) true)
  unfold AuthState.next
  cases hr : isResponse line with
  | false =>
      rw [hr] at hcount
      simp only [Bool.false_eq_true, if_false, Nat.add_zero] at hcount ⊢
      rw [if_neg (by simp; omega)]
      exact ⟨rfl, hpos, by rw [hcount]; exact hsum⟩
  | true =>
      rw [hr] at hcount
      simp only [if_true] at hcount ⊢
      by_cases hone : l.pendingResponses = 1
      · rw [hone, if_pos (by rfl)]
        exact ⟨by omega, by simp [hr]⟩
      · rw [if_neg (by simp; omega)]
        refine ⟨rfl, ?_, ?_⟩
        · show 0 < l.pendingResponses - 1
          omega
        · show l.pendingResponses - 1 + _ = _
          omega

/-- What is read from the bus after BEGIN settles the count. -/
theorem settles_after_begin {pending : Nat} {t : AuthTrace} {s : AuthState}
    (hrun : Steps AuthState.Step (.next pending true) t s) :
    Counting pending (writesToClient t) s := by
  refine hrun.history (P := fun t s => Counting pending (writesToClient t) s)
    (counting_next pending) ?_
  rintro t m ev ws m' - ih hstep
  rw [writesToClient_snoc]
  cases hstep.move with
  | null => cases ih
  | clientByte hbegin | clientLine hbegin =>
      obtain ⟨hreceived, -⟩ := ih
      rw [hbegin] at hreceived
      cases hreceived
  | busByte =>
      rw [List.flatMap_nil, List.append_nil]
      exact ih
  | busLine =>
      have hreceived := ih.1
      rw [hreceived]
      exact counting_line ih

-- ================================================================= the BEGIN

namespace AuthState

/-- BEGIN has been forwarded. -/
def begun : AuthState → Bool
  | .start => false
  | .loop l => l.beginReceived
  | .done => true

end AuthState

/-- A turn is behind BEGIN when the one before was told so. -/
@[simp] theorem begun_next (n : Nat) (b : Bool) :
    (AuthState.next n b).begun = b := by
  unfold AuthState.next
  cases b with
  | false => rfl
  | true => split <;> rfl

/-- A BEGIN is no NEGOTIATE_UNIX_FD. -/
theorem not_negotiate_of_begin {line : Bytes} (h : isBeginLine line = true) :
    isNegotiateUnixFd line = false := by
  cases line with
  | nil => rfl
  | cons c line =>
      unfold isBeginLine at h
      unfold isNegotiateUnixFd
      simp only [show utf8 "BEGIN" = 66 :: utf8 "EGIN" from rfl,
        List.isPrefixOf_cons_cons, Bool.and_eq_true, beq_iff_eq] at h
      rw [← h.1]
      rfl

/-- Before that, no BEGIN has been written to the bus. -/
theorem no_begin_before {t : AuthTrace} {s : AuthState}
    (hrun : Steps AuthState.Step .start t s) :
    s.begun = false → ∀ line ∈ writesToBus t, isBeginLine line = false := by
  refine hrun.history (P := fun t s => s.begun = false →
    ∀ line ∈ writesToBus t, isBeginLine line = false)
    (fun _ line hmem => by cases hmem) ?_
  rintro t m ev ws m' - ih hstep hnot
  rw [writesToBus_snoc]
  cases hstep.move with
  | null =>
      intro line hmem
      simp only [List.flatMap_cons, AuthWrite.forBus, List.flatMap_nil,
        List.append_nil, List.mem_append, List.mem_singleton] at hmem
      rcases hmem with hmem | rfl
      · exact ih rfl line hmem
      · rfl
  | clientByte hbegin => simpa using ih hbegin
  | clientLine hbegin =>
      rw [begun_next] at hnot
      intro line hmem
      simp only [List.flatMap_cons, AuthWrite.forBus, List.flatMap_nil,
        List.append_nil, List.mem_append, List.mem_singleton] at hmem
      rcases hmem with hmem | rfl
      · exact ih hbegin line hmem
      · exact hnot
  | busByte => simpa using ih hnot
  | busLine =>
      rw [begun_next] at hnot
      simpa [AuthWrite.forBus] using ih hnot

/-- The state after the BEGIN that is read in `l`. -/
theorem AuthState.Step.begin {l : AuthLoop} {ev : AuthEvent} {line : Bytes}
    {s : AuthState} (h : AuthState.Step (.loop l) ev [.toBus line] s)
    (hbegin : isBeginLine line = true) :
    l.beginReceived = false ∧ s = .next l.pendingResponses true := by
  have hmove := h.move
  generalize hws : [AuthWrite.toBus line] = ws at hmove
  cases hmove with
  | clientByte | busByte | busLine => cases hws
  | clientLine hnot =>
      cases hws
      refine ⟨hnot, ?_⟩
      rw [not_negotiate_of_begin hbegin, hbegin]
      rfl

/-- A run that has forwarded BEGIN falls in two there. -/
theorem exists_begin {t : AuthTrace} {s : AuthState}
    (hrun : Steps AuthState.Step .start t s) (hbegun : s.begun = true) :
    ∃ u l ev line v, t = u ++ (ev, [.toBus line]) :: v
      ∧ Steps AuthState.Step .start u (.loop l)
      ∧ isBeginLine line = true := by
  induction hrun with
  | nil => cases hbegun
  | @snoc t m ev ws m' hrun hstep ih =>
      cases hm : m.begun with
      | true =>
          obtain ⟨u, l, ev', line, v, rfl, hu, hline⟩ := ih hm
          exact ⟨u, l, ev', line, v ++ [(ev, ws)], by simp, hu, hline⟩
      | false =>
          have hmove := hstep.move
          cases hmove with
          | null => cases hbegun
          | clientByte hnot =>
              simp only [AuthState.begun] at hbegun
              rw [hnot] at hbegun
              cases hbegun
          | @clientLine l =>
              rw [begun_next] at hbegun
              exact ⟨t, l, _, _, [], rfl, hrun, hbegun⟩
          | busByte =>
              simp only [AuthState.begun] at hbegun hm
              rw [hm] at hbegun
              cases hbegun
          | busLine =>
              simp only [AuthState.begun] at hm
              rw [begun_next, hm] at hbegun
              cases hbegun

-- ================================================================ the arrivals

/-- A whole line, from the client or from the bus. -/
inductive PeerLine where
  | client (line : Bytes)
  | bus (line : Bytes)
  deriving DecidableEq, Repr

namespace PeerLine

/-- The client's BEGIN. -/
def begins : PeerLine → Bool
  | client line => isBeginLine line
  | bus _ => false

/-- The client's NEGOTIATE_UNIX_FD. -/
def negotiates : PeerLine → Bool
  | client line => isNegotiateUnixFd line
  | bus _ => false

/-- AGREE_UNIX_FD or ERROR from the bus. -/
def responds : PeerLine → Bool
  | client _ => false
  | bus line => isResponse line

/-- What the bus has said. -/
def answer : PeerLine → List Bytes
  | client _ => []
  | bus line => [line]

end PeerLine

/-- What has arrived: the lines, in the order in which they were complete, and
the parts of lines that have arrived since the last of them. -/
structure Arrived where
  lines : List PeerLine
  clientPart : Bytes
  busPart : Bytes
  deriving DecidableEq, Repr

/-- One byte more. -/
def Arrived.see (a : Arrived) : AuthEvent → Arrived
  | .client (some c) =>
      if endsLine (a.clientPart ++ [c]) then
        ⟨a.lines ++ [.client (a.clientPart ++ [c])], [], []⟩
      else { a with clientPart := a.clientPart ++ [c] }
  | .bus (some c) =>
      if endsLine (a.busPart ++ [c]) then
        ⟨a.lines ++ [.bus (a.busPart ++ [c])], [], []⟩
      else { a with busPart := a.busPart ++ [c] }
  | _ => a

/-- What has arrived behind the null byte. -/
def arrived (evs : List AuthEvent) : Arrived :=
  evs.tail.foldl Arrived.see ⟨[], [], []⟩

/-- The events of a trace, in their order. -/
abbrev arrivals (t : AuthTrace) : List AuthEvent := t.map Prod.fst

/-- The lines in front of the client's BEGIN. -/
def beforeBegin (evs : List AuthEvent) : List PeerLine :=
  (arrived evs).lines.takeWhile fun x => !x.begins

/-- One byte more has arrived. -/
theorem arrived_snoc {evs : List AuthEvent} (h : evs ≠ []) (ev : AuthEvent) :
    arrived (evs ++ [ev]) = (arrived evs).see ev := by
  unfold arrived
  rw [List.tail_append_of_ne_nil h, List.foldl_append]
  rfl

/-- A line that has arrived stays. -/
theorem lines_isPrefix_foldl (a : Arrived) (evs : List AuthEvent) :
    a.lines <+: (evs.foldl Arrived.see a).lines := by
  induction evs generalizing a with
  | nil => exact List.prefix_refl _
  | cons ev evs ih =>
      refine List.IsPrefix.trans ?_ (ih (a.see ev))
      unfold Arrived.see
      split
      next => split <;> simp
      next => split <;> simp
      next => exact List.prefix_refl _

/-- What has arrived stays, whatever arrives behind it. -/
theorem lines_isPrefix {evs : List AuthEvent} (h : evs ≠ [])
    (more : List AuthEvent) :
    (arrived evs).lines <+: (arrived (evs ++ more)).lines := by
  unfold arrived
  rw [List.tail_append_of_ne_nil h, List.foldl_append]
  exact lines_isPrefix_foldl _ more

namespace AuthState

def pendingResponses : AuthState → Nat
  | .loop l => l.pendingResponses
  | _ => 0

end AuthState

/-- The count goes from turn to turn. -/
theorem pendingResponses_next (n : Nat) :
    (AuthState.next n false).pendingResponses = n := rfl

/-- The state knows what has arrived: the parts of lines, the answers, and
until BEGIN the count. -/
structure Seen (t : AuthTrace) (s : AuthState) : Prop where
  clientPart : (arrived (arrivals t)).clientPart = s.clientResult
  busPart : (arrived (arrivals t)).busPart = s.busResult
  answers : (arrived (arrivals t)).lines.flatMap PeerLine.answer
    = writesToClient t
  count : s.begun = false → Excess PeerLine.negotiates PeerLine.responds
    (arrived (arrivals t)).lines s.pendingResponses
  noBegin : s.begun = false →
    ∀ x ∈ (arrived (arrivals t)).lines, x.begins = false

/-- Nothing leads back to the beginning. -/
theorem nil_of_start {t : AuthTrace}
    (h : Steps AuthState.Step .start t .start) : t = [] := by
  generalize hs : AuthState.start = s at h
  cases h with
  | nil => rfl
  | snoc _ hstep =>
      subst hs
      have hnext : ∀ n b, AuthState.next n b ≠ .start := by
        intro n b
        unfold AuthState.next
        split <;> simp
      generalize hs : AuthState.start = s at hstep
      cases hstep.move with
      | null | clientByte | busByte => cases hs
      | clientLine | busLine => exact absurd hs.symm (hnext _ _)

/-- In the loop the null byte has arrived. -/
theorem arrivals_ne_nil {t : AuthTrace} {l : AuthLoop}
    (h : Steps AuthState.Step .start t (.loop l)) : arrivals t ≠ [] := by
  intro hnil
  rw [List.map_eq_nil_iff] at hnil
  subst hnil
  cases h.of_nil

/-- What one byte adds to what has arrived. -/
theorem arrived_arrivals {t : AuthTrace} {l : AuthLoop}
    (h : Steps AuthState.Step .start t (.loop l)) (ev : AuthEvent)
    (ws : List AuthWrite) :
    arrived (arrivals (t ++ [(ev, ws)])) = (arrived (arrivals t)).see ev := by
  rw [arrivals, List.map_append]
  exact arrived_snoc (arrivals_ne_nil h) ev

/-- A byte of the client's inside a line. -/
theorem see_clientByte {a : Arrived} {c : UInt8}
    (h : endsLine (a.clientPart ++ [c]) = false) :
    a.see (.client (some c))
      = { a with clientPart := a.clientPart ++ [c] } := by
  simp [Arrived.see, h]

/-- A byte that ends a line of the client's. -/
theorem see_clientLine {a : Arrived} {c : UInt8}
    (h : endsLine (a.clientPart ++ [c]) = true) :
    a.see (.client (some c))
      = ⟨a.lines ++ [.client (a.clientPart ++ [c])], [], []⟩ := by
  simp [Arrived.see, h]

/-- A byte of the bus inside a line. -/
theorem see_busByte {a : Arrived} {c : UInt8}
    (h : endsLine (a.busPart ++ [c]) = false) :
    a.see (.bus (some c)) = { a with busPart := a.busPart ++ [c] } := by
  simp [Arrived.see, h]

/-- A byte that ends a line of the bus. -/
theorem see_busLine {a : Arrived} {c : UInt8}
    (h : endsLine (a.busPart ++ [c]) = true) :
    a.see (.bus (some c))
      = ⟨a.lines ++ [.bus (a.busPart ++ [c])], [], []⟩ := by
  simp [Arrived.see, h]

/-- A client line raises the count if it is a NEGOTIATE_UNIX_FD. -/
theorem excess_client {lines : List PeerLine} {n : Nat}
    (h : Excess PeerLine.negotiates PeerLine.responds lines n)
    (line : Bytes) :
    Excess PeerLine.negotiates PeerLine.responds (lines ++ [.client line])
      (if isNegotiateUnixFd line then n + 1 else n) := by
  cases hn : isNegotiateUnixFd line with
  | true => exact h.raise hn rfl
  | false => exact h.skip hn rfl

/-- An answer lowers it if it is an AGREE_UNIX_FD or ERROR. -/
theorem excess_bus {lines : List PeerLine} {n : Nat}
    (h : Excess PeerLine.negotiates PeerLine.responds lines n)
    (line : Bytes) :
    Excess PeerLine.negotiates PeerLine.responds (lines ++ [.bus line])
      (if isResponse line then n - 1 else n) := by
  cases hr : isResponse line with
  | true => exact h.lower rfl hr
  | false => exact h.skip rfl hr

/-- The state knows what has arrived. -/
theorem seen_run {t : AuthTrace} {s : AuthState}
    (hrun : Steps AuthState.Step .start t s) : Seen t s := by
  refine hrun.history (P := Seen) ⟨rfl, rfl, rfl, fun _ => .nil, ?_⟩ ?_
  · intro _ x hx
    cases hx
  intro t m ev ws m' hbefore ih hstep
  cases hstep.move with
  | null =>
      have ht := nil_of_start hbefore
      subst ht
      refine ⟨rfl, rfl, rfl, fun _ => .nil, ?_⟩
      intro _ x hx
      cases hx
  | clientByte hbegin hends =>
      have hsee := arrived_arrivals hbefore
      have hpart := ih.clientPart
      rw [loop_clientResult] at hpart
      rw [← hpart] at hends
      constructor
      all_goals rw [hsee, see_clientByte hends]
      · exact congrArg (· ++ _) hpart
      · exact ih.busPart
      · rw [writesToClient_snoc, List.flatMap_nil, List.append_nil]
        exact ih.answers
      · exact ih.count
      · exact ih.noBegin
  | @clientLine l c hbegin hends =>
      have hsee := arrived_arrivals hbefore
      have hpart := ih.clientPart
      rw [loop_clientResult] at hpart
      rw [← hpart] at hends ⊢
      constructor
      all_goals rw [hsee, see_clientLine hends]
      · exact (next_clientResult _ _).symm
      · exact (next_busResult _ _).symm
      · rw [writesToClient_snoc, List.flatMap_append, ih.answers]
        rfl
      · intro hnot
        rw [begun_next] at hnot
        rw [hnot, pendingResponses_next]
        exact excess_client (ih.count hbegin) _
      · intro hnot x hx
        rw [begun_next] at hnot
        rcases List.mem_append.mp hx with hx | hx
        · exact ih.noBegin hbegin x hx
        · rw [List.mem_singleton.mp hx]
          exact hnot
  | busByte hends =>
      have hsee := arrived_arrivals hbefore
      have hpart := ih.busPart
      rw [loop_busResult] at hpart
      rw [← hpart] at hends
      constructor
      all_goals rw [hsee, see_busByte hends]
      · exact ih.clientPart
      · exact congrArg (· ++ _) hpart
      · rw [writesToClient_snoc, List.flatMap_nil, List.append_nil]
        exact ih.answers
      · exact ih.count
      · exact ih.noBegin
  | @busLine l c hends =>
      have hsee := arrived_arrivals hbefore
      have hpart := ih.busPart
      rw [loop_busResult] at hpart
      rw [← hpart] at hends ⊢
      constructor
      all_goals rw [hsee, see_busLine hends]
      · exact (next_clientResult _ _).symm
      · exact (next_busResult _ _).symm
      · rw [writesToClient_snoc, List.flatMap_append, ih.answers]
        rfl
      · intro hnot
        rw [begun_next] at hnot
        rw [hnot, pendingResponses_next]
        exact excess_bus (ih.count hnot) _
      · intro hnot x hx
        rw [begun_next] at hnot
        rcases List.mem_append.mp hx with hx | hx
        · exact ih.noBegin hnot x hx
        · rw [List.mem_singleton.mp hx]
          rfl

-- ============================================================ in step, or not

/-- What a bus has sent that answers each command line before BEGIN with one
line, in order, and BEGIN with none: no more answers than it has been
written lines, and messages only behind all answers and after BEGIN. -/
def BusAnswers (responses : List Bytes) (messages : Bytes) (t : AuthTrace) :
    Prop :=
  ∀ u v, t = u ++ v →
    readFromBus u
        <+: (responses.take ((writesToBus u).length - 1)).flatten
      ∨ (utf8 "BEGIN\r\n" ∈ writesToBus u
        ∧ readFromBus u <+: responses.flatten ++ messages)

/-- The authentication ends with all answers forwarded and no message
begun. -/
def InStep (responses : List Bytes) (t : AuthTrace) : Prop :=
  writesToClient t = responses ∧ readFromBus t = responses.flatten

/-- It does so whenever it ends. -/
def EndsInStep : Prop :=
  ∀ (commands responses : List Bytes) (rest messages : Bytes)
    (t : AuthTrace),
    (∀ line ∈ commands, IsLine line ∧ line ≠ utf8 "BEGIN\r\n") →
    (∀ line ∈ responses, IsLine line) →
    responses.length = commands.length →
    Steps AuthState.Step .start t .done →
    readFromClient t <+: 0 :: commands.flatten ++ utf8 "BEGIN\r\n" ++ rest →
    BusAnswers responses messages t → InStep responses t

/-- The lines and answers of which the authentication is in step. -/
structure SettledAtBegin (responses : List Bytes) (evs : List AuthEvent) :
    Prop where
  /-- when a line of the client's is complete, so is what the bus has said -/
  whole : ∀ u c v, evs = u ++ .client (some c) :: v →
    endsLine ((arrived u).clientPart ++ [c]) = true →
    (arrived u).busPart = []
  /-- the answers that come behind BEGIN make up for the most by which, from
  some moment on, negotiations outnumber the AGREE_UNIX_FDs and ERRORs in front
  of it, and the last of them does so -/
  settled : ∃ n,
    Excess PeerLine.negotiates PeerLine.responds (beforeBegin evs) n
      ∧ Settles n (responses.drop
        ((beforeBegin evs).flatMap PeerLine.answer).length)

/-- Before the BEGIN no more is forwarded than the answers. -/
theorem answers_before_begin {responses : List Bytes} {messages : Bytes}
    {t u : AuthTrace} {v : AuthTrace} {l : AuthLoop}
    (hresponses : ∀ line ∈ responses, IsLine line)
    (hbus : BusAnswers responses messages t) (ht : t = u ++ v)
    (hu : Steps (Meeting AuthState.Step AuthState.KeepsBusResult) .start u
      (.loop l)) (hnot : l.beginReceived = false) :
    writesToClient u <+: responses := by
  rcases hbus u v ht with hp | ⟨hmem, -⟩
  · rw [bus_bytes_kept hu] at hp
    have htaken : ∀ line ∈ responses.take ((writesToBus u).length - 1),
        IsLine line :=
      fun line hmem => hresponses line (List.mem_of_mem_take hmem)
    exact (isPrefix_of_flatten (by decide)
      (lines_to_client hu.of_meeting) htaken hp).trans
      (List.take_prefix ..)
  · have hno := no_begin_before hu.of_meeting hnot _ hmem
    exact absurd hno (by decide)

/-- What has been read is a beginning of what the bus sends in all. -/
theorem BusAnswers.read {responses : List Bytes} {messages : Bytes}
    {t : AuthTrace} (h : BusAnswers responses messages t) :
    readFromBus t <+: responses.flatten ++ messages := by
  rcases h t [] (List.append_nil t).symm with hp | ⟨-, hp⟩
  · exact (hp.trans (List.take_prefix ..).flatten).trans
      (List.prefix_append ..)
  · exact hp

/-- The client is told nothing in the step that tells the bus a line. -/
theorem writesToClient_begin (u v : AuthTrace) (ev : AuthEvent)
    (line : Bytes) : writesToClient (u ++ (ev, [.toBus line]) :: v)
      = writesToClient u ++ writesToClient v := by
  simp [writesToClient, AuthWrite.forClient]

/-- A step leads to one state. -/
theorem step_unique {s m m' : AuthState} {ev : AuthEvent}
    {ws : List AuthWrite} (h : s.Step ev ws m) (h' : s.Step ev ws m') :
    m = m' := by
  have hboth := h.2.symm.trans h'.2
  cases hboth
  rfl

/-- What the BEGIN of a run that ends leaves to the bus. -/
theorem at_begin {u v : AuthTrace} {l : AuthLoop} {ev : AuthEvent}
    {line : Bytes}
    (hrun : Steps (Meeting AuthState.Step AuthState.KeepsBusResult) .start
      (u ++ (ev, [.toBus line]) :: v) .done)
    (hu : Steps AuthState.Step .start u (.loop l))
    (hline : isBeginLine line = true) :
    Steps (Meeting AuthState.Step AuthState.KeepsBusResult) .start u (.loop l)
      ∧ l.beginReceived = false
      ∧ Settles l.pendingResponses (writesToClient v) := by
  obtain ⟨m, hmeet, hrest⟩ := hrun.split
  have hm : m = .loop l := hu.unique hmeet.of_meeting
    fun _ _ _ _ _ => step_unique
  subst hm
  obtain ⟨m, hfirst, hv⟩ :=
    Steps.split (u := [(ev, [AuthWrite.toBus line])]) hrest
  obtain ⟨hnot, rfl⟩ := (Steps.of_single hfirst).2.begin hline
  exact ⟨hmeet, hnot, settles_after_begin hv.of_meeting⟩

/-- Only a line of the client's drops a part of the bus's. -/
theorem keepsBusResult_of_not_ends {m : AuthState} {ev : AuthEvent}
    (h : m.endsClientLine ev = false) : m.KeepsBusResult ev := by
  intro hends
  rw [h] at hends
  cases hends

/-- A read that completes a line of the client's, as it arrives. -/
theorem keepsBusResult_iff {t : AuthTrace} {m m' : AuthState} {c : UInt8}
    {ws : List AuthWrite} (hrun : Steps AuthState.Step .start t m)
    (hstep : m.Step (.client (some c)) ws m') :
    m.KeepsBusResult (.client (some c))
      ↔ (endsLine ((arrived (arrivals t)).clientPart ++ [c]) = true →
        (arrived (arrivals t)).busPart = []) := by
  have hseen := seen_run hrun
  rw [hseen.clientPart, hseen.busPart]
  unfold AuthState.KeepsBusResult
  cases hstep.move with
  | null =>
      have hno : endsLine (AuthState.start.clientResult ++ [(0 : UInt8)])
          = false := by
        decide
      rw [hno]
      rfl
  | clientByte => rfl
  | clientLine => rfl

/-- A run drops no part of a bus line exactly when, whenever a line of the
client's is complete, what the bus has said is complete. -/
theorem whole_iff {t : AuthTrace} {s : AuthState}
    (hrun : Steps AuthState.Step .start t s) :
    (∀ u c v, arrivals t = u ++ .client (some c) :: v →
        endsLine ((arrived u).clientPart ++ [c]) = true →
        (arrived u).busPart = [])
      ↔ Steps (Meeting AuthState.Step AuthState.KeepsBusResult) .start t s := by
  constructor
  · intro hwhole
    apply hrun.meeting
    intro u ev ws v m m' ht hu hstep _
    rcases ev with byte | byte
    · cases byte with
      | none =>
          apply keepsBusResult_of_not_ends
          cases m <;> rfl
      | some c =>
          rw [keepsBusResult_iff hu hstep]
          apply hwhole _ c (arrivals v)
          rw [ht]
          simp [arrivals]
    · apply keepsBusResult_of_not_ends
      cases m <;> rfl
  · intro hmeet u c v ht
    obtain ⟨t₁, x, rfl, rfl, hx⟩ := List.map_eq_append_iff.mp ht
    obtain ⟨y, t₂, rfl, hy, -⟩ := List.map_eq_cons_iff.mp hx
    obtain ⟨m, h₁, h₂⟩ := hmeet.split
    obtain ⟨m', hfirst, -⟩ := Steps.split (u := [y]) h₂
    obtain ⟨ev, ws⟩ := y
    cases hy
    obtain ⟨hkeeps, hstep⟩ := Steps.of_single hfirst
    exact (keepsBusResult_iff h₁.of_meeting hstep).mp hkeeps

/-- What has been read is at least what was written and what the future holds;
the rest of it was dropped. -/
theorem dropped {t : AuthTrace} {s : AuthState}
    (hrun : Steps AuthState.Step .start t s) :
    (writesToClient t).flatten.length + s.busResult.length
        ≤ (readFromBus t).length
      ∧ ((readFromBus t).length
          = (writesToClient t).flatten.length + s.busResult.length →
        Steps (Meeting AuthState.Step AuthState.KeepsBusResult) .start t
          s) := by
  induction hrun with
  | nil => exact ⟨Nat.le_refl _, fun _ => .nil⟩
  | @snoc t m ev ws m' hrun hstep ih =>
      obtain ⟨hle, hmeet⟩ := ih
      rw [readFromBus_snoc, writesToClient_snoc]
      cases hstep.move with
      | null =>
          simp only [AuthEvent.fromBus, AuthWrite.forClient, List.flatMap_cons,
            List.flatMap_nil, List.append_nil]
          exact ⟨hle, fun heq => .snoc (hmeet heq)
            ⟨keepsBusResult_of_not_ends rfl, hstep⟩⟩
      | clientByte _ hends =>
          simp only [AuthEvent.fromBus, List.flatMap_nil, List.append_nil]
          exact ⟨hle, fun heq => .snoc (hmeet heq)
            ⟨keepsBusResult_of_not_ends hends, hstep⟩⟩
      | clientLine =>
          simp only [AuthEvent.fromBus, AuthWrite.forClient, List.flatMap_cons,
            List.flatMap_nil, List.append_nil, next_busResult,
            List.length_nil, Nat.add_zero]
          refine ⟨by omega, fun heq => ?_⟩
          -- nothing is missing, so the future had read nothing
          refine .snoc (hmeet (by omega)) ⟨fun _ => ?_, hstep⟩
          apply List.eq_nil_of_length_eq_zero
          omega
      | busByte =>
          simp only [loop_busResult] at hle hmeet
          simp only [AuthEvent.fromBus, Option.toList_some, List.flatMap_nil,
            List.append_nil, loop_busResult, List.length_append,
            List.length_singleton]
          refine ⟨by omega, fun heq => ?_⟩
          exact .snoc (hmeet (by omega))
            ⟨keepsBusResult_of_not_ends rfl, hstep⟩
      | busLine =>
          simp only [loop_busResult] at hle hmeet
          simp only [AuthEvent.fromBus, Option.toList_some, AuthWrite.forClient,
            List.flatMap_cons, List.flatMap_nil, List.append_nil,
            List.flatten_append, List.flatten_cons, List.flatten_nil,
            next_busResult, List.length_append, List.length_singleton,
            List.length_nil]
          refine ⟨by omega, fun heq => ?_⟩
          exact .snoc (hmeet (by omega))
            ⟨keepsBusResult_of_not_ends rfl, hstep⟩

/-- The lines in front of the BEGIN are those that had arrived when it was
read. -/
theorem beforeBegin_eq {u v : AuthTrace} {l : AuthLoop} {m' : AuthState}
    {ev : AuthEvent} {line : Bytes}
    (hu : Steps AuthState.Step .start u (.loop l))
    (hstep : AuthState.Step (.loop l) ev [.toBus line] m')
    (hline : isBeginLine line = true) :
    beforeBegin (arrivals (u ++ (ev, [.toBus line]) :: v))
      = (arrived (arrivals u)).lines := by
  have hseen := seen_run hu
  have hmove := hstep.move
  generalize hws : [AuthWrite.toBus line] = ws at hmove
  cases hmove with
  | clientByte | busByte | busLine => cases hws
  | @clientLine _ c hnot hends =>
      cases hws
      have hpart := hseen.clientPart
      rw [loop_clientResult] at hpart
      have harrived : (arrived (arrivals u ++ [.client (some c)])).lines
          = (arrived (arrivals u)).lines
            ++ [.client (l.clientResult ++ [c])] := by
        rw [arrived_snoc (arrivals_ne_nil hu), see_clientLine, hpart]
        rw [hpart]
        exact hends
      have hne : arrivals u ++ [.client (some c)] ≠ [] := by simp
      obtain ⟨rest, hrest⟩ := lines_isPrefix hne (arrivals v)
      have hsplit : arrivals (u ++ (.client (some c),
            [.toBus (l.clientResult ++ [c])]) :: v)
          = arrivals u ++ [.client (some c)] ++ arrivals v := by
        simp [arrivals]
      unfold beforeBegin
      rw [hsplit, ← hrest, harrived, List.append_assoc]
      rw [List.takeWhile_append_of_pos]
      · rw [List.singleton_append, List.takeWhile_cons_of_neg,
          List.append_nil]
        rw [PeerLine.begins, hline]
        decide
      · intro x hx
        rw [hseen.noBegin hnot x hx]
        rfl

/-- What the bus owes, checked on every beginning of a trace. -/
theorem busAnswers_of_inits {responses : List Bytes} {messages : Bytes}
    {t : AuthTrace} (h : ∀ u ∈ t.inits,
      readFromBus u
          <+: (responses.take ((writesToBus u).length - 1)).flatten
        ∨ (utf8 "BEGIN\r\n" ∈ writesToBus u
          ∧ readFromBus u <+: responses.flatten ++ messages)) :
    BusAnswers responses messages t :=
  fun u v ht => h u ((List.mem_inits _ _).mpr ⟨v, ht.symm⟩)

/-- A client that does not wait for the answer to AUTH. -/
def pipelinedBegin : List AuthEvent :=
  clientSends "\x00AUTH EXTERNAL 31\r\nBEGIN\r\n"

/-- A client that waits for the answer to AUTH and no other. -/
def pipelinedNegotiation : List AuthEvent :=
  clientSends "\x00AUTH EXTERNAL 31\r\n" ++ busSends "OK 1\r\n"
    ++ clientSends "NEGOTIATE_UNIX_FD\r\nBEGIN\r\n"
    ++ busSends "AGREE_UNIX_FD\r\n"

end DbusRouter.Model
