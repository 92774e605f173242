/-
What a reader holds, has handed out and can hold at most.

A call of `read_message_from`, dropped or not, moves the chunks that arrive
behind what the reader has and takes a message off the front: nothing is
lost, whoever drops it (`Balanced`). A call that fails may lose a message
whose descriptors are not there, and nothing else (`Forfeited`). A call asks
for more only while it has too little, so what is buffered stays under a bound
that no peer can move (`Bounded`). All of it is read off one description of a
`fill`: `Receives` is the chunks it takes, one after the other.
-/
import DbusRouter.Proofs.Resume

namespace DbusRouter.Model

open Wire Lib

-- ================================================================ one receive

/-- The bytes that are not consumed yet. -/
def DbusReader.unread (r : DbusReader) : Bytes := r.buf.drop r.start

/-- The bytes of chunks. -/
def bytesIn (cs : List Chunk) : Bytes := cs.flatMap (·.bytes)

/-- The descriptors of chunks. The end of the stream brings none. -/
def fdsIn (cs : List Chunk) : List Fd :=
  cs.flatMap fun c => if c.bytes.isEmpty then [] else c.fds

@[simp] theorem bytesIn_nil : bytesIn [] = [] := rfl

@[simp] theorem fdsIn_nil : fdsIn [] = [] := rfl

/-- The bytes of chunks that arrive behind others. -/
theorem bytesIn_append (cs ds : List Chunk) :
    bytesIn (cs ++ ds) = bytesIn cs ++ bytesIn ds :=
  List.flatMap_append

/-- The descriptors of chunks are those of one part behind the other's. -/
theorem fdsIn_append (cs ds : List Chunk) :
    fdsIn (cs ++ ds) = fdsIn cs ++ fdsIn ds :=
  List.flatMap_append

theorem bytesIn_cons (c : Chunk) (cs : List Chunk) :
    bytesIn (c :: cs) = c.bytes ++ bytesIn cs := rfl

/-- A chunk that is not the end of the stream brings its descriptors. -/
theorem fdsIn_cons {c : Chunk} (h : c.bytes.isEmpty = false)
    (cs : List Chunk) : fdsIn (c :: cs) = c.fds ++ fdsIn cs := by
  unfold fdsIn
  rw [List.flatMap_cons, h, if_neg Bool.false_ne_true]

/-- The end of the stream brings nothing. -/
theorem bytesIn_end {c : Chunk} (h : c.bytes.isEmpty = true) :
    bytesIn [c] = [] := by
  rw [bytesIn_cons, List.isEmpty_iff.mp h]
  rfl

/-- The chunk that is the end of a stream brings no descriptor. -/
theorem fdsIn_end {c : Chunk} (h : c.bytes.isEmpty = true) :
    fdsIn [c] = [] := by
  unfold fdsIn
  rw [List.flatMap_cons, if_pos h]
  rfl

/-- The chunks of two scripts, one behind the other. -/
theorem chunks_append (us ws : List Wait) :
    chunks (us ++ ws) = chunks us ++ chunks ws := by
  induction us with
  | nil => rfl
  | cons u us ih => cases u <;> simp [chunks, ih]

/-- `recvmsg` puts what arrives behind what is there, if the queue has room
for its descriptors. -/
theorem DbusReader.recvmsgOnce_eq_ok {r r' : DbusReader} {c : Chunk}
    (h : r.recvmsgOnce c = .ok r') :
    r' = { r with buf := r.buf ++ c.bytes, fdq := r.fdq ++ c.fds }
      ∧ r.fdq.length + c.fds.length ≤ maxFdsPerMessage := by
  unfold DbusReader.recvmsgOnce at h
  split at h
  next => cases h
  next =>
    split at h
    next => cases h
    next hle =>
      cases h
      exact ⟨rfl, Nat.not_lt.mp hle⟩

/-- A reader whose start is in its buffer. -/
def DbusReader.Sane (r : DbusReader) : Prop := r.start ≤ r.buf.length

/-- What is available are the bytes that are not consumed. -/
theorem DbusReader.Sane.avail {r : DbusReader} (h : r.Sane) :
    r.avail = .ok r.unread.length := by
  unfold DbusReader.avail DbusReader.unread
  rw [subUsize_ok h, List.length_drop]

-- =================================================================== one fill

/-- What a `fill` for `n` bytes takes: chunk after chunk, each while fewer
than `n` bytes are there, and maybe the end of the stream. -/
inductive DbusReader.Receives (n : Nat) : DbusReader → List Chunk →
    DbusReader → Prop
  | nil {r : DbusReader} : Receives n r [] r
  | eof {r : DbusReader} {c : Chunk} (hc : c.bytes.isEmpty = true) :
      Receives n r [c] r
  | cons {r r₁ r' : DbusReader} {c : Chunk} {cs : List Chunk} {k : Nat}
      (hk : r.avail = .ok k) (hlt : k < n)
      (hc : c.bytes.isEmpty = false) (hr : r.recvmsgOnce c = .ok r₁)
      (hrest : Receives n r₁ cs r') : Receives n r (c :: cs) r'

/-- The reader a call leaves, and what it leaves of its script. -/
def Call.left {α : Type} : Call α → DbusReader × List Wait
  | .returned _ r rest => (r, rest)
  | .dropped r rest => (r, rest)

/-- Returned or dropped, a `fill` has received the chunks in front of what it
leaves of the script. -/
theorem fillCall_receives {n : Nat} {ws : List Wait} {r : DbusReader}
    {call : Call Bool} (h : r.fillCall n ws = .ok call) :
    ∃ us, ws = us ++ call.left.2 ∧ r.Receives n (chunks us) call.left.1 := by
  induction ws generalizing r with
  | nil =>
      rw [fillCall_nil] at h
      obtain ⟨k, -, h⟩ := Outcome.bind_eq_ok h
      cases h
      exact ⟨[], rfl, .nil⟩
  | cons w ws ih =>
      cases w with
      | dropped =>
          rw [fillCall_dropped] at h
          obtain ⟨k, -, h⟩ := Outcome.bind_eq_ok h
          split at h
          next =>
            cases h
            exact ⟨[], rfl, .nil⟩
          next =>
            cases h
            exact ⟨[.dropped], rfl, .nil⟩
      | chunk c =>
          rw [fillCall_chunk] at h
          obtain ⟨k, hk, h⟩ := Outcome.bind_eq_ok h
          split at h
          next =>
            cases h
            exact ⟨[], rfl, .nil⟩
          next hlt =>
            split at h
            next hc =>
              cases h
              exact ⟨[.chunk c], rfl, .eof hc⟩
            next hc =>
              obtain ⟨r₁, hr₁, h⟩ := Outcome.bind_eq_ok h
              obtain ⟨us, rfl, hus⟩ := ih h
              rw [Bool.not_eq_true] at hc
              exact ⟨.chunk c :: us, rfl,
                .cons hk (Nat.not_le.mp hlt) hc hr₁ hus⟩

/-- If it leaves nothing of the script, it has received all of it. -/
theorem fillCall_receives_whole {n : Nat} {ws : List Wait} {r : DbusReader}
    {call : Call Bool} (h : r.fillCall n ws = .ok call)
    (hall : call.left.2 = []) : r.Receives n (chunks ws) call.left.1 := by
  obtain ⟨us, hus, hreceived⟩ := fillCall_receives h
  rw [hall, List.append_nil] at hus
  rw [hus]
  exact hreceived

/-- What is received stands behind what was there. -/
theorem DbusReader.Receives.gains {n : Nat} {r r' : DbusReader}
    {cs : List Chunk} (h : r.Receives n cs r') :
    r'.start = r.start ∧ r'.buf = r.buf ++ bytesIn cs
      ∧ r'.fdq = r.fdq ++ fdsIn cs := by
  induction h with
  | nil => simp
  | eof hc =>
      rw [bytesIn_end hc, fdsIn_end hc, List.append_nil, List.append_nil]
      exact ⟨rfl, rfl, rfl⟩
  | cons _ _ hc hr _ ih =>
      obtain ⟨rfl, -⟩ := DbusReader.recvmsgOnce_eq_ok hr
      obtain ⟨hstart, hbuf, hfdq⟩ := ih
      refine ⟨hstart, ?_, ?_⟩
      · rw [hbuf, bytesIn_cons, List.append_assoc]
      · rw [hfdq, fdsIn_cons hc, List.append_assoc]

/-- What stood in front stays in front. -/
theorem DbusReader.Receives.head_take {n k m : Nat} {r r' : DbusReader}
    {cs : List Chunk} {bs raw : Bytes} (h : r.Receives n cs r')
    (hbs : r.head k = .ok bs) (hraw : r'.head m = .ok raw) (hle : k ≤ m) :
    raw.take k = bs := by
  obtain ⟨hstart, hbuf, -⟩ := h.gains
  obtain ⟨hk, rfl⟩ := DbusReader.head_eq_ok hbs
  obtain ⟨-, rfl⟩ := DbusReader.head_eq_ok hraw
  rw [List.take_take, Nat.min_eq_left hle, hstart, hbuf,
    List.drop_append_of_le_length (by omega),
    List.take_append_of_le_length (by
      rw [List.length_drop]
      omega)]

-- ================================================================== the account

/-- A reader that has handed out messages and received chunks: every byte and
every descriptor is in one of the messages or still there, in order. -/
structure Balanced (r : DbusReader) (cs : List Chunk) (ms : List Message)
    (r' : DbusReader) : Prop where
  bytes_eq : r.unread ++ bytesIn cs = ms.flatMap (·.raw) ++ r'.unread
  fds_eq : r.fdq ++ fdsIn cs = ms.flatMap (·.fds) ++ r'.fdq
  sane : r'.Sane

/-- A reader to which nothing has happened balances. -/
theorem Balanced.refl {r : DbusReader} (h : r.Sane) : Balanced r [] [] r :=
  ⟨by simp, by simp, h⟩

/-- What happens to a reader in two parts balances when both parts do. -/
theorem Balanced.trans {r r₁ r' : DbusReader} {cs ds : List Chunk}
    {ms ns : List Message} (h : Balanced r cs ms r₁)
    (h' : Balanced r₁ ds ns r') : Balanced r (cs ++ ds) (ms ++ ns) r' := by
  refine ⟨?_, ?_, h'.sane⟩
  · rw [bytesIn_append, ← List.append_assoc, h.bytes_eq, List.append_assoc,
      h'.bytes_eq, List.flatMap_append, List.append_assoc]
  · rw [fdsIn_append, ← List.append_assoc, h.fds_eq, List.append_assoc,
      h'.fds_eq, List.flatMap_append, List.append_assoc]

/-- A `fill` hands nothing out, and keeps all that it takes. -/
theorem DbusReader.Receives.balanced {n : Nat} {r r' : DbusReader}
    {cs : List Chunk} (h : r.Receives n cs r') (hr : r.Sane) :
    Balanced r cs [] r' := by
  obtain ⟨hstart, hbuf, hfdq⟩ := h.gains
  have hle : r.start ≤ r.buf.length := hr
  refine ⟨?_, ?_, ?_⟩
  · unfold DbusReader.unread
    rw [hstart, hbuf, List.drop_append_of_le_length hle]
    rfl
  · rw [hfdq]
    rfl
  · unfold DbusReader.Sane
    rw [hstart, hbuf, List.length_append]
    omega

/-- Consuming takes bytes off the front, whether it moves the rest or not. -/
theorem DbusReader.consume_eq_ok {r r' : DbusReader} {n : Nat}
    (h : r.consume n = .ok r') (hn : r.start + n ≤ r.buf.length) :
    r'.unread = r.unread.drop n ∧ r'.fdq = r.fdq ∧ r'.Sane
      ∧ r'.start ≤ 64 * 1024 := by
  unfold DbusReader.consume at h
  obtain ⟨start, hstart, h⟩ := Outcome.bind_eq_ok h
  cases addUsize_eq_ok hstart
  unfold DbusReader.unread DbusReader.Sane
  rw [List.drop_drop]
  split at h
  next hall =>
    cases h
    refine ⟨?_, rfl, Nat.le_refl _, Nat.zero_le _⟩
    rw [List.drop_nil, hall, List.drop_length]
  next =>
    split at h
    next =>
      rw [sliceFrom_ok hn] at h
      cases h
      exact ⟨rfl, rfl, Nat.zero_le _, Nat.zero_le _⟩
    next hle =>
      cases h
      exact ⟨rfl, rfl, hn, Nat.not_lt.mp hle⟩

/-- Taking descriptors takes them off the front. -/
theorem takeDeclaredFds_queue {r r' : DbusReader} {fds : List Fd}
    {declared : Option Nat} (h : takeDeclaredFds r declared = .ok (fds, r')) :
    r.fdq = fds ++ r'.fdq ∧ r'.buf = r.buf ∧ r'.start = r.start := by
  unfold takeDeclaredFds at h
  simp only at h
  split at h
  next => cases h
  next =>
    split at h
    next =>
      cases h
      exact ⟨rfl, rfl, rfl⟩
    next =>
      unfold DbusReader.takeFds at h
      by_cases hlt : r.fdq.length < declared.getD 0
      · rw [if_pos hlt] at h
        cases h
      · rw [if_neg hlt] at h
        cases h
        exact ⟨(List.take_append_drop ..).symm, rfl, rfl⟩

-- ================================================================ one message

/-- The reader behind a message that it has whole: the message is taken off
the front. -/
structure TakenOff (r : DbusReader) (msg : Message) (r' : DbusReader) :
    Prop where
  bytes_eq : r.unread = msg.raw ++ r'.unread
  fds_eq : r.fdq = msg.fds ++ r'.fdq
  sane : r'.Sane
  start_le : r'.start ≤ 64 * 1024

/-- What a call of `read_message_from` does to the reader: one or two
`fill`s, and the message if it returns one. -/
inductive ReadStep : DbusReader → List Chunk → Option Message → DbusReader →
    Prop
  | short {r r₁ : DbusReader} {cs : List Chunk}
      (hhead : r.Receives minHeaderSize cs r₁) : ReadStep r cs none r₁
  | cut {r r₁ r₂ : DbusReader} {cs ds : List Chunk} {p : Prologue}
      (hhead : r.Receives minHeaderSize cs r₁)
      (htotal : r₁.Receives p.totalLen ds r₂)
      (hbody : p.bodyLen ≤ maxMessageSize)
      (harray : p.arrayLen ≤ maxMessageSize) : ReadStep r (cs ++ ds) none r₂
  | whole {r r₁ r₂ r' : DbusReader} {cs ds : List Chunk} {p : Prologue}
      {msg : Message} (hhead : r.Receives minHeaderSize cs r₁)
      (htotal : r₁.Receives p.totalLen ds r₂)
      (hbody : p.bodyLen ≤ maxMessageSize)
      (harray : p.arrayLen ≤ maxMessageSize) (htaken : TakenOff r₂ msg r') :
      ReadStep r (cs ++ ds) (some msg) r'

/-- A prologue that parses is within the limits. -/
theorem Prologue.limits_of_parse {head : Bytes} {p : Prologue}
    (h : Prologue.parse head = .ok p) :
    p.bodyLen ≤ maxMessageSize ∧ p.arrayLen ≤ maxMessageSize := by
  unfold Prologue.parse at h
  obtain ⟨b, -, h⟩ := Outcome.bind_eq_ok h
  obtain ⟨e, -, h⟩ := Outcome.bind_eq_ok h
  obtain ⟨version, -, h⟩ := Outcome.bind_eq_ok h
  split at h
  next => cases h
  next =>
    obtain ⟨bodyBytes, -, h⟩ := Outcome.bind_eq_ok h
    obtain ⟨bodyLen, -, h⟩ := Outcome.bind_eq_ok h
    split at h
    next => cases h
    next hbody =>
      obtain ⟨arrayBytes, -, h⟩ := Outcome.bind_eq_ok h
      obtain ⟨arrayLen, -, h⟩ := Outcome.bind_eq_ok h
      split at h
      next => cases h
      next harray =>
        obtain ⟨ty, -, h⟩ := Outcome.bind_eq_ok h
        obtain ⟨flags, -, h⟩ := Outcome.bind_eq_ok h
        obtain ⟨serialBytes, -, h⟩ := Outcome.bind_eq_ok h
        obtain ⟨serial, -, h⟩ := Outcome.bind_eq_ok h
        cases h
        exact ⟨Nat.not_lt.mp hbody, Nat.not_lt.mp harray⟩

/-- The message a call returns. -/
def Call.message : Call (Option Message) → Option Message
  | .returned m _ _ => m
  | .dropped _ _ => none

/-- A message that is there whole is taken off the front, with the
descriptors it declares. -/
theorem takenOff {r r₁ r' : DbusReader} {raw : Bytes} {fds : List Fd}
    {n : Nat} {header : MessageHeader} {declared : Option Nat}
    (hraw : r.head n = .ok raw) (hr₁ : r.consume n = .ok r₁)
    (hfds : takeDeclaredFds r₁ declared = .ok (fds, r')) :
    TakenOff r ⟨header, raw, fds⟩ r' := by
  obtain ⟨hle, rfl⟩ := DbusReader.head_eq_ok hraw
  obtain ⟨hunread, hfdq, hsane, hstart⟩ := DbusReader.consume_eq_ok hr₁ hle
  obtain ⟨hqueue, hbuf, hstart'⟩ := takeDeclaredFds_queue hfds
  have hsame : r'.unread = r₁.unread := by
    unfold DbusReader.unread
    rw [hbuf, hstart']
  refine ⟨?_, ?_, ?_, ?_⟩
  · rw [hsame, hunread]
    exact (List.take_append_drop ..).symm
  · rw [← hfdq]
    exact hqueue
  · unfold DbusReader.Sane at hsane ⊢
    rw [hbuf, hstart']
    exact hsane
  · rw [hstart']
    exact hstart

/-- A call behind its first wait. -/
theorem readMessageBody_step {z : Zvariant} {r r₁ : DbusReader}
    {ws : List Wait} {cs : List Chunk} {call : Call (Option Message)}
    (hhead : r.Receives minHeaderSize cs r₁)
    (h : readMessageBody z r₁ ws = .ok call) :
    ∃ us, ws = us ++ call.left.2
      ∧ ReadStep r (cs ++ chunks us) call.message call.left.1 := by
  unfold readMessageBody at h
  obtain ⟨head, -, h⟩ := Outcome.bind_eq_ok h
  obtain ⟨p, hp, h⟩ := Outcome.bind_eq_ok h
  obtain ⟨hbody, harray⟩ := Prologue.limits_of_parse hp
  obtain ⟨inner, hinner, h⟩ := Outcome.bind_eq_ok h
  obtain ⟨us, hus, htotal⟩ := fillCall_receives hinner
  cases inner with
  | dropped r₂ rest =>
      cases h
      exact ⟨us, hus, .cut hhead htotal hbody harray⟩
  | returned b r₂ rest =>
      cases b with
      | false => cases h
      | true =>
          obtain ⟨raw, hraw, h⟩ := Outcome.bind_eq_ok h
          obtain ⟨r₃, hr₃, h⟩ := Outcome.bind_eq_ok h
          obtain ⟨buf, -, h⟩ := Outcome.bind_eq_ok h
          obtain ⟨⟨fds, r₄⟩, hfds, h⟩ := Outcome.bind_eq_ok h
          cases h
          exact ⟨us, hus,
            .whole hhead htotal hbody harray (takenOff hraw hr₃ hfds)⟩

/-- Every call that ends without an error is one of the ways of `ReadStep`, on
the chunks in front of what it leaves of its script. -/
theorem readMessageCall_step {z : Zvariant} {r : DbusReader}
    {ws : List Wait} {call : Call (Option Message)}
    (h : readMessageCall z r ws = .ok call) :
    ∃ us, ws = us ++ call.left.2
      ∧ ReadStep r (chunks us) call.message call.left.1 := by
  unfold readMessageCall at h
  obtain ⟨inner, hinner, h⟩ := Outcome.bind_eq_ok h
  obtain ⟨us, hus, hhead⟩ := fillCall_receives hinner
  cases inner with
  | dropped r₁ rest =>
      cases h
      exact ⟨us, hus, .short hhead⟩
  | returned b r₁ rest =>
      cases b with
      | false =>
          cases h
          exact ⟨us, hus, .short hhead⟩
      | true =>
          obtain ⟨vs, rfl, hreads⟩ := readMessageBody_step hhead h
          rw [← chunks_append] at hreads
          exact ⟨us ++ vs, by rw [hus]; exact (List.append_assoc ..).symm,
            hreads⟩

/-- A call that leaves nothing of its script has read all of its chunks. -/
theorem readMessageCall_whole {z : Zvariant} {r : DbusReader}
    {ws : List Wait} {call : Call (Option Message)}
    (h : readMessageCall z r ws = .ok call) (hall : call.left.2 = []) :
    ReadStep r (chunks ws) call.message call.left.1 := by
  obtain ⟨us, hus, hreads⟩ := readMessageCall_step h
  rw [hall, List.append_nil] at hus
  rw [hus]
  exact hreads

/-- No call loses a byte or a descriptor. -/
theorem ReadStep.balanced {r r' : DbusReader} {cs : List Chunk}
    {m : Option Message} (h : ReadStep r cs m r') (hr : r.Sane) :
    Balanced r cs m.toList r' := by
  cases h with
  | short hhead => exact hhead.balanced hr
  | cut hhead htotal =>
      have hfirst := hhead.balanced hr
      exact hfirst.trans (htotal.balanced hfirst.sane)
  | whole hhead htotal _ _ htaken =>
      have hfirst := hhead.balanced hr
      have hboth := hfirst.trans (htotal.balanced hfirst.sane)
      refine ⟨?_, ?_, htaken.sane⟩
      · rw [hboth.bytes_eq, htaken.bytes_eq]
        simp
      · rw [hboth.fds_eq, htaken.fds_eq]
        simp

-- ============================================================== what is lost

/-- The bytes of a message that declares more descriptors than a message may
have, or than are queued. -/
def Overdrawn (z : Zvariant) (raw : Bytes) (queue : List Fd) : Prop :=
  ∃ p n, Prologue.parse (raw.take minHeaderSize) = .ok p
    ∧ raw.length = p.totalLen
    ∧ (parseHeaderFields z ((raw.drop minHeaderSize).take p.arrayLen)
        p.endian).unixFds = some n
    ∧ (maxFdsPerMessage < n ∨ queue.length < n)

/-- What a call does to the reader that consumes a message and then fails,
because its descriptors are not there. -/
structure ReadLoss (z : Zvariant) (r : DbusReader) (cs : List Chunk)
    (raw : Bytes) (r' : DbusReader) : Prop where
  received : ∃ (p : Prologue) (r₁ r₂ : DbusReader) (ds es : List Chunk),
    cs = ds ++ es ∧ r.Receives minHeaderSize ds r₁
      ∧ r₁.Receives p.totalLen es r₂
      ∧ p.bodyLen ≤ maxMessageSize ∧ p.arrayLen ≤ maxMessageSize
      ∧ r₂.unread = raw ++ r'.unread ∧ r'.fdq = r₂.fdq
  overdrawn : Overdrawn z raw r'.fdq
  sane : r'.Sane
  start_le : r'.start ≤ 64 * 1024

/-- A reader that has handed out messages and then lost one: every other byte
and every descriptor is in one of the messages or still there, in order. -/
structure Forfeited (z : Zvariant) (cs : List Chunk) (ms : List Message)
    (raw : Bytes) (r : DbusReader) : Prop where
  bytes_eq : bytesIn cs = ms.flatMap (·.raw) ++ (raw ++ r.unread)
  fds_eq : fdsIn cs = ms.flatMap (·.fds) ++ r.fdq
  overdrawn : Overdrawn z raw r.fdq

/-- A reader that balances, and then loses a message, has lost that one. -/
theorem ReadLoss.forfeited {z : Zvariant} {r r' : DbusReader}
    {cs ds : List Chunk} {ms : List Message} {raw : Bytes}
    (h : ReadLoss z r ds raw r') (hbal : Balanced .new cs ms r) :
    Forfeited z (cs ++ ds) ms raw r' := by
  obtain ⟨p, r₁, r₂, es, gs, rfl, hhead, htotal, -, -, hbytes, hfds⟩ :=
    h.received
  have hfirst := hbal.trans (hhead.balanced hbal.sane)
  have hboth := hfirst.trans (htotal.balanced hfirst.sane)
  rw [List.append_assoc] at hboth
  refine ⟨?_, ?_, h.overdrawn⟩
  · rw [← hbytes]
    have heq := hboth.bytes_eq
    rw [List.append_nil, List.append_nil] at heq
    exact heq
  · rw [hfds]
    have heq := hboth.fds_eq
    rw [List.append_nil, List.append_nil] at heq
    exact heq

/-- Descriptors are refused that are too many, or that are not there. -/
theorem takeDeclaredFds_eq_err {r : DbusReader} {declared : Option Nat}
    {e : Error} (h : takeDeclaredFds r declared = .err e) :
    ∃ n, declared = some n
      ∧ (maxFdsPerMessage < n ∨ r.fdq.length < n) := by
  unfold takeDeclaredFds DbusReader.takeFds at h
  cases declared with
  | none =>
      rw [Option.getD_none] at h
      cases h
  | some n =>
      refine ⟨n, rfl, ?_⟩
      by_contra hno
      rw [not_or, Nat.not_lt, Nat.not_lt] at hno
      simp only [Option.getD_some, Nat.not_lt.mpr hno.1,
        Nat.not_lt.mpr hno.2, if_false] at h
      split at h <;> cases h

/-- The head of a reader is there, or asking for it is a panic. -/
theorem DbusReader.head_ne_err (r : DbusReader) (n : Nat) (e : Error) :
    r.head n ≠ .err e := by
  unfold DbusReader.head addUsize slice
  split
  · rw [Outcome.ok_bind]
    split <;> nofun
  · nofun

-- =================================================================== the bound

/-- The longest message the limits allow. -/
def maxTotalLen : Nat := 16 + maxMessageSize + 7 + maxMessageSize

/-- A prologue within the limits announces no more than the longest message. -/
theorem Prologue.totalLen_le {p : Prologue}
    (hbody : p.bodyLen ≤ maxMessageSize)
    (harray : p.arrayLen ≤ maxMessageSize) : p.totalLen ≤ maxTotalLen := by
  unfold Prologue.totalLen Prologue.headerEnd Prologue.padding maxTotalLen
    minHeaderSize
  omega

/-- What a reader holds at most: one message and what one `recvmsg` brings
behind it, behind 64 KiB that are consumed already, and 64 descriptors. -/
structure DbusReader.Bounded (r : DbusReader) : Prop where
  sane : r.Sane
  start_le : r.start ≤ 64 * 1024
  unread_le : r.unread.length ≤ maxTotalLen + 64 * 1024
  fdq_le : r.fdq.length ≤ maxFdsPerMessage

theorem DbusReader.Bounded.new : DbusReader.new.Bounded :=
  ⟨Nat.le_refl _, Nat.zero_le _, Nat.zero_le _, Nat.zero_le _⟩

/-- So is the buffer, with the consumed bytes in front. -/
theorem DbusReader.Bounded.buf_le {r : DbusReader} (h : r.Bounded) :
    r.buf.length ≤ maxTotalLen + 128 * 1024 := by
  have hsane : r.start ≤ r.buf.length := h.sane
  have hunread := h.unread_le
  have hstart := h.start_le
  unfold DbusReader.unread at hunread
  rw [List.length_drop] at hunread
  omega

/-- A `fill` asks for no more once it has enough. -/
theorem DbusReader.Receives.bounded {n : Nat} {r r' : DbusReader}
    {cs : List Chunk} (h : r.Receives n cs r') (hn : n ≤ maxTotalLen)
    (hcs : ∀ c ∈ cs, c.bytes.length ≤ 64 * 1024) (hr : r.Bounded) :
    r'.Bounded := by
  induction h with
  | nil => exact hr
  | eof => exact hr
  | @cons r r₁ r' c cs k hk hlt hc hrecv hrest ih =>
      obtain ⟨rfl, hfds⟩ := DbusReader.recvmsgOnce_eq_ok hrecv
      have hsane : r.start ≤ r.buf.length := hr.sane
      rw [hr.sane.avail, Outcome.ok.injEq] at hk
      have hc' := hcs c (List.mem_cons_self ..)
      refine ih (fun d hd => hcs d (List.mem_cons_of_mem _ hd)) ?_
      refine ⟨?_, hr.start_le, ?_, ?_⟩
      · show r.start ≤ (r.buf ++ c.bytes).length
        rw [List.length_append]
        omega
      · show ((r.buf ++ c.bytes).drop r.start).length ≤ _
        rw [List.drop_append_of_le_length hsane, List.length_append]
        unfold DbusReader.unread at hk
        omega
      · show (r.fdq ++ c.fds).length ≤ _
        rw [List.length_append]
        exact hfds

/-- However its wait ends, a call leaves a reader within its bound. -/
theorem ReadStep.bounded {r r' : DbusReader} {cs : List Chunk}
    {m : Option Message} (h : ReadStep r cs m r')
    (hcs : ∀ c ∈ cs, c.bytes.length ≤ 64 * 1024) (hr : r.Bounded) :
    r'.Bounded := by
  have hmin : minHeaderSize ≤ maxTotalLen := by decide
  cases h with
  | short hhead => exact hhead.bounded hmin hcs hr
  | cut hhead htotal hbody harray =>
      exact htotal.bounded (Prologue.totalLen_le hbody harray)
        (fun c hc => hcs c (List.mem_append_right _ hc))
        (hhead.bounded hmin
          (fun c hc => hcs c (List.mem_append_left _ hc)) hr)
  | whole hhead htotal hbody harray htaken =>
      have hfull := htotal.bounded (Prologue.totalLen_le hbody harray)
        (fun c hc => hcs c (List.mem_append_right _ hc))
        (hhead.bounded hmin
          (fun c hc => hcs c (List.mem_append_left _ hc)) hr)
      have hunread := hfull.unread_le
      have hfdq := hfull.fdq_le
      rw [htaken.bytes_eq, List.length_append] at hunread
      rw [htaken.fds_eq, List.length_append] at hfdq
      exact ⟨htaken.sane, htaken.start_le, by omega, by omega⟩

/-- A call that loses a message keeps the reader within its bounds. -/
theorem ReadLoss.bounded {z : Zvariant} {r r' : DbusReader} {cs : List Chunk}
    {raw : Bytes} (h : ReadLoss z r cs raw r')
    (hcs : ∀ c ∈ cs, c.bytes.length ≤ 64 * 1024) (hr : r.Bounded) :
    r'.Bounded := by
  obtain ⟨p, r₁, r₂, ds, es, rfl, hhead, htotal, hbody, harray, hbytes,
    hfds⟩ := h.received
  have hfull := htotal.bounded (Prologue.totalLen_le hbody harray)
    (fun c hc => hcs c (List.mem_append_right _ hc))
    (hhead.bounded (show minHeaderSize ≤ maxTotalLen by decide)
      (fun c hc => hcs c (List.mem_append_left _ hc)) hr)
  have hunread := hfull.unread_le
  have hfdq := hfull.fdq_le
  rw [hbytes, List.length_append] at hunread
  rw [← hfds] at hfdq
  exact ⟨h.sane, h.start_le, by omega, hfdq⟩

end DbusRouter.Model
