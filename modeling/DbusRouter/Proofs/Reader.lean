/-
Reading a message from a connection.

The reader's buffer and its queue of descriptors hold a part of the stream
(`DbusReader.Has`), and `fill` gathers pieces of it. A message whose bytes
are next is read whole and with the descriptors its first byte brought,
if the queue admits what arrives meanwhile (`readMessageFrom_ok`), and only
then (`admits_of_readMessageFrom`). Whatever is read is an accepted message
(`readMessageFrom_accepted`).
-/
import DbusRouter.Lib.Gather
import DbusRouter.Proofs.Frame

namespace DbusRouter.Model

open Wire Lib

-- ================================================================ the buffer

/-- The bytes the buffer still holds. -/
structure DbusReader.Holds (r : DbusReader) (unread : Bytes) : Prop where
  start_le : r.start ≤ 64 * 1024
  buf_eq : ∃ consumed, r.buf = consumed ++ unread
    ∧ consumed.length = r.start

section buffer

variable {r : DbusReader} {unread : Bytes}

/-- A reader counts the bytes it holds. -/
theorem DbusReader.Holds.avail (h : r.Holds unread) :
    r.avail = .ok unread.length := by
  obtain ⟨consumed, hbuf, hlen⟩ := h.buf_eq
  unfold DbusReader.avail
  rw [hbuf, List.length_append, hlen, subUsize_ok (Nat.le_add_right ..),
    Nat.add_sub_cancel_left]

/-- A reader shows the first of the bytes it holds. -/
theorem DbusReader.Holds.head {n : Nat} (h : r.Holds unread)
    (hn : n ≤ unread.length) (hsmall : unread.length < 2 ^ 32) :
    r.head n = .ok (unread.take n) := by
  obtain ⟨consumed, hbuf, hlen⟩ := h.buf_eq
  have hstart := h.start_le
  unfold DbusReader.head
  rw [addUsize_ok (by omega), Outcome.ok_bind, hbuf, slice_ok (by omega)
    (by rw [List.length_append]; omega), ← hlen, List.drop_left,
    Nat.add_sub_cancel_left]

/-- A reader gives up bytes and keeps its descriptors. -/
theorem DbusReader.Holds.consume {n : Nat} (h : r.Holds unread)
    (hn : n ≤ unread.length) (hsmall : unread.length < 2 ^ 32) :
    ∃ r', r.consume n = .ok r' ∧ r'.Holds (unread.drop n)
      ∧ r'.fdq = r.fdq := by
  obtain ⟨consumed, hbuf, hlen⟩ := h.buf_eq
  have hstart := h.start_le
  have hlength : r.buf.length = r.start + unread.length := by
    rw [hbuf, List.length_append, hlen]
  have hdrop : r.buf.drop (r.start + n) = unread.drop n := by
    rw [hbuf, ← List.drop_drop, ← hlen, List.drop_left]
  unfold DbusReader.consume
  rw [addUsize_ok (by omega), Outcome.ok_bind]
  split
  next hall =>
    have hnil : unread.drop n = [] := List.drop_eq_nil_of_le (by omega)
    exact ⟨_, rfl, ⟨Nat.zero_le _, [], hnil.symm, rfl⟩, rfl⟩
  next =>
    split
    next =>
      rw [sliceFrom_ok (by omega), Outcome.ok_bind, hdrop]
      exact ⟨_, rfl, ⟨Nat.zero_le _, [], rfl, rfl⟩, rfl⟩
    next hle =>
      refine ⟨_, rfl, ⟨by simpa using hle, consumed ++ unread.take n, ?_, ?_⟩,
        rfl⟩
      · rw [List.append_assoc, List.take_append_drop]
        exact hbuf
      · rw [List.length_append, List.length_take, hlen,
          Nat.min_eq_left hn]

end buffer

-- ================================================================= the queue

/-- The reader has received `held` and handed out nothing of it. -/
structure DbusReader.Has (r : DbusReader) (held : List StreamByte) :
    Prop where
  holds : r.Holds (held.map (·.byte))
  fdq_eq : r.fdq = held.flatMap (·.fds)

/-- A new reader has received nothing. -/
theorem DbusReader.Has.new : DbusReader.new.Has [] :=
  ⟨⟨Nat.zero_le _, [], rfl, rfl⟩, rfl⟩

/-- The descriptors of a piece fit into the queue. -/
def QueueAdmits (held piece : List StreamByte) : Prop :=
  (held.flatMap (·.fds)).length + (piece.flatMap (·.fds)).length
    ≤ maxFdsPerMessage

section queue

variable {r : DbusReader} {held piece : List StreamByte}

/-- What is received is appended to what it has. -/
theorem DbusReader.Has.recvmsgOnce (h : r.Has held)
    (hadm : QueueAdmits held piece) :
    ∃ r', r.recvmsgOnce (received piece) = .ok r'
      ∧ r'.Has (held ++ piece) := by
  obtain ⟨consumed, hbuf, hlen⟩ := h.holds.buf_eq
  unfold QueueAdmits at hadm
  have hfds : (received piece).fds.length
      = (piece.flatMap (·.fds)).length := rfl
  unfold DbusReader.recvmsgOnce
  rw [if_neg (by omega), if_neg (by rw [h.fdq_eq]; omega)]
  refine ⟨_, rfl, ⟨⟨h.holds.start_le, consumed, ?_, hlen⟩, ?_⟩⟩
  · show r.buf ++ piece.map (·.byte) = _
    rw [hbuf, List.append_assoc, List.map_append]
  · show r.fdq ++ piece.flatMap (·.fds) = _
    rw [h.fdq_eq, List.flatMap_append]

/-- It receives only what its queue has room for. -/
theorem DbusReader.Has.admits (h : r.Has held) {r' : DbusReader}
    (hok : r.recvmsgOnce (received piece) = .ok r') :
    QueueAdmits held piece := by
  unfold DbusReader.recvmsgOnce at hok
  split at hok
  next => cases hok
  next =>
    split at hok
    next => cases hok
    next hle =>
      rw [h.fdq_eq] at hle
      exact Nat.not_lt.mp hle

end queue

-- =================================================================== filling

section fill

variable {r : DbusReader} {n : Nat} {held : List StreamByte}
  {ps : List (List StreamByte)}

/-- Without more chunks there is what is buffered. -/
theorem fill_nil (r : DbusReader) (n : Nat) : r.fill n [] = (do
    let buffered ← r.avail
    .ok (decide (n ≤ buffered), r, [])) := rfl

/-- With enough buffered no chunk is taken, and an empty one is the end. -/
theorem fill_cons (r : DbusReader) (n : Nat) (c : Chunk) (cs : List Chunk) :
    r.fill n (c :: cs) = (do
      let buffered ← r.avail
      if n ≤ buffered then .ok (true, r, c :: cs)
      else if c.bytes.isEmpty then .ok (false, r, cs)
      else do
        let r ← r.recvmsgOnce c
        r.fill n cs) := rfl

/-- A piece of a stream is no end. -/
theorem received_bytes_isEmpty {p : List StreamByte} (h : p ≠ []) :
    (received p).bytes.isEmpty = false := by
  simpa [received] using h

/-- Where the queue admits what it takes and the stream is long enough,
`fill` gathers. -/
theorem DbusReader.Has.fill (h : r.Has held) (hps : ∀ p ∈ ps, p ≠ [])
    (hadm : Admits QueueAdmits n held ps)
    (hn : n ≤ (held ++ ps.flatten).length) :
    ∃ r', r.fill n (ps.map received)
        = .ok (true, r', (gather n held ps).2.map received)
      ∧ r'.Has (gather n held ps).1 := by
  induction ps generalizing r held with
  | nil =>
      have hle : n ≤ (held.map (·.byte)).length := by simpa using hn
      refine ⟨r, ?_, h⟩
      rw [List.map_nil, fill_nil, h.holds.avail, Outcome.ok_bind,
        decide_eq_true hle]
      rfl
  | cons p ps ih =>
      rw [List.map_cons, fill_cons, h.holds.avail, Outcome.ok_bind,
        List.length_map]
      by_cases hle : n ≤ held.length
      · rw [if_pos hle, gather_of_le _ hle]
        exact ⟨r, rfl, h⟩
      · have hne := received_bytes_isEmpty (hps p (List.mem_cons_self ..))
        rw [if_neg hle, hne]
        simp only [gather, if_neg hle, Bool.false_eq_true, if_false]
        obtain ⟨hp, hrest⟩ := hadm.resolve_left hle
        obtain ⟨r₁, hr₁, hhas⟩ := h.recvmsgOnce hp
        rw [hr₁, Outcome.ok_bind]
        refine ih hhas (fun q hq => hps q (List.mem_cons_of_mem _ hq)) hrest ?_
        rw [List.append_assoc]
        exact hn

/-- Where the stream is too short, it gathers all of it and fails. -/
theorem DbusReader.Has.fill_short (h : r.Has held) (hps : ∀ p ∈ ps, p ≠ [])
    (hadm : Admits QueueAdmits n held ps)
    (hn : (held ++ ps.flatten).length < n) :
    ∃ r', r.fill n (ps.map received) = .ok (false, r', []) := by
  have hlt : ¬n ≤ held.length := by
    rw [List.length_append] at hn
    omega
  induction ps generalizing r held with
  | nil =>
      refine ⟨r, ?_⟩
      rw [List.map_nil, fill_nil, h.holds.avail, Outcome.ok_bind,
        List.length_map, decide_eq_false hlt]
  | cons p ps ih =>
      have hne := received_bytes_isEmpty (hps p (List.mem_cons_self ..))
      rw [List.map_cons, fill_cons, h.holds.avail, Outcome.ok_bind,
        List.length_map, if_neg hlt, hne]
      simp only [Bool.false_eq_true, if_false]
      obtain ⟨hp, hrest⟩ := hadm.resolve_left hlt
      obtain ⟨r₁, hr₁, hhas⟩ := h.recvmsgOnce hp
      rw [hr₁, Outcome.ok_bind]
      rw [List.flatten_cons, ← List.append_assoc] at hn
      refine ih hhas (fun q hq => hps q (List.mem_cons_of_mem _ hq)) hrest hn
        ?_
      rw [List.length_append] at hn
      omega

/-- And only there. -/
theorem DbusReader.Has.admits_of_fill (h : r.Has held)
    (hps : ∀ p ∈ ps, p ≠ []) {x : Bool × DbusReader × List Chunk}
    (hok : r.fill n (ps.map received) = .ok x) :
    Admits QueueAdmits n held ps := by
  induction ps generalizing r held with
  | nil => trivial
  | cons p ps ih =>
      rw [List.map_cons, fill_cons, h.holds.avail, Outcome.ok_bind,
        List.length_map] at hok
      by_cases hle : n ≤ held.length
      · exact Or.inl hle
      · have hne := received_bytes_isEmpty (hps p (List.mem_cons_self ..))
        rw [if_neg hle, hne] at hok
        simp only [Bool.false_eq_true, if_false] at hok
        obtain ⟨r₁, hr₁, hok⟩ := Outcome.bind_eq_ok hok
        have hp := h.admits hr₁
        obtain ⟨r₂, hr₂, hhas⟩ := h.recvmsgOnce hp
        have hsame : r₂ = r₁ := by
          have hboth := hr₂.symm.trans hr₁
          cases hboth
          rfl
        rw [hsame] at hhas
        exact Or.inr ⟨hp,
          ih hhas (fun q hq => hps q (List.mem_cons_of_mem _ hq)) hok⟩

end fill

-- ============================================================= one message

/-- `readMessageFrom` behind its second `fill`. -/
def readRest (z : Zvariant) (p : Prologue) :
    Bool × DbusReader × List Chunk →
    Result (Option Message × DbusReader × List Chunk)
  | (filled, r, cs) =>
      if !filled then
        .err (.protocol (utf8 "Connection closed in the middle of a message"))
      else do
        let raw ← r.head p.totalLen
        let r ← r.consume p.totalLen
        let buf ← slice raw minHeaderSize p.headerEnd
        let fields := parseHeaderFields z buf p.endian
        let (fds, r) ← takeDeclaredFds r fields.unixFds
        .ok (some ⟨p.intoHeader fields, raw, fds⟩, r, cs)

/-- A message is read in three parts: the start, the whole, the rest. -/
theorem readMessageFrom_eq (z : Zvariant) (r : DbusReader)
    (cs : List Chunk) :
    readMessageFrom z r cs = (do
      let (filled, r, cs) ← r.fill minHeaderSize cs
      if !filled then .ok (none, r, cs)
      else do
        let p ← Prologue.parse (← r.head minHeaderSize)
        r.fill p.totalLen cs >>= readRest z p) := rfl

/-- As many descriptors are taken as are declared. -/
theorem takeDeclaredFds_ok {r : DbusReader} {fds rest : List Fd}
    {declared : Option Nat} (hq : r.fdq = fds ++ rest)
    (hd : fds.length = declared.getD 0)
    (hle : fds.length ≤ maxFdsPerMessage) :
    takeDeclaredFds r declared = .ok (fds, { r with fdq := rest }) := by
  unfold takeDeclaredFds
  simp only [← hd]
  rw [if_neg (Nat.not_lt.mpr hle)]
  by_cases hnil : fds.length = 0
  · have hfds : fds = [] := List.eq_nil_of_length_eq_zero hnil
    subst hfds
    rw [if_pos hnil, show rest = r.fdq from hq.symm]
  · have hlen : ¬r.fdq.length < fds.length := by
      rw [hq, List.length_append]
      omega
    rw [if_neg hnil]
    unfold DbusReader.takeFds
    rw [if_neg hlen, hq, List.take_left, List.drop_left]

/-- Never more than a message can carry. -/
theorem takeDeclaredFds_eq_ok {r r' : DbusReader} {fds : List Fd}
    {declared : Option Nat} (h : takeDeclaredFds r declared = .ok (fds, r')) :
    fds.length = declared.getD 0 ∧ fds.length ≤ maxFdsPerMessage := by
  unfold takeDeclaredFds at h
  simp only at h
  split at h
  next => cases h
  next hle =>
    split at h
    next hzero =>
      cases h
      exact ⟨hzero.symm, Nat.zero_le _⟩
    next =>
      unfold DbusReader.takeFds at h
      by_cases hlt : r.fdq.length < declared.getD 0
      · rw [if_pos hlt] at h
        cases h
      · rw [if_neg hlt] at h
        cases h
        rw [List.length_take]
        omega

/-- Bytes that are shown are in the buffer. -/
theorem DbusReader.head_eq_ok {r : DbusReader} {n : Nat} {bs : Bytes}
    (h : r.head n = .ok bs) :
    r.start + n ≤ r.buf.length ∧ bs = (r.buf.drop r.start).take n := by
  unfold DbusReader.head at h
  obtain ⟨stop, hstop, h⟩ := Outcome.bind_eq_ok h
  cases addUsize_eq_ok hstop
  obtain ⟨hle, rfl⟩ := slice_eq_ok h
  rw [Nat.add_sub_cancel_left]
  exact ⟨hle, rfl⟩

/-- `fill` only appends. -/
theorem DbusReader.fill_buf {n : Nat} {cs cs' : List Chunk}
    {r r' : DbusReader} {b : Bool} (h : r.fill n cs = .ok (b, r', cs')) :
    r'.start = r.start ∧ ∃ more, r'.buf = r.buf ++ more := by
  induction cs generalizing r with
  | nil =>
      rw [fill_nil] at h
      obtain ⟨buffered, -, h⟩ := Outcome.bind_eq_ok h
      cases h
      exact ⟨rfl, [], (List.append_nil _).symm⟩
  | cons c cs ih =>
      rw [fill_cons] at h
      obtain ⟨buffered, -, h⟩ := Outcome.bind_eq_ok h
      split at h
      next =>
        cases h
        exact ⟨rfl, [], (List.append_nil _).symm⟩
      next =>
        split at h
        next =>
          cases h
          exact ⟨rfl, [], (List.append_nil _).symm⟩
        next =>
          obtain ⟨r₁, hr₁, h⟩ := Outcome.bind_eq_ok h
          obtain ⟨hstart, more, hbuf⟩ := ih h
          unfold DbusReader.recvmsgOnce at hr₁
          split at hr₁
          next => cases hr₁
          next =>
            split at hr₁
            next => cases hr₁
            next =>
              cases hr₁
              refine ⟨hstart, c.bytes ++ more, ?_⟩
              rw [hbuf, List.append_assoc]

/-- What is read is an accepted message. -/
theorem readMessageFrom_accepted {z : Zvariant} {r r' : DbusReader}
    {cs cs' : List Chunk} {msg : Message}
    (h : readMessageFrom z r cs = .ok (some msg, r', cs')) :
    msg.Accepted z := by
  rw [readMessageFrom_eq] at h
  obtain ⟨⟨b, r₁, cs₁⟩, -, h⟩ := Outcome.bind_eq_ok h
  cases b with
  | false => cases h
  | true =>
      simp only [Bool.not_true, Bool.false_eq_true, if_false] at h
      obtain ⟨head, hhead, h⟩ := Outcome.bind_eq_ok h
      obtain ⟨p, hp, h⟩ := Outcome.bind_eq_ok h
      obtain ⟨⟨b, r₂, cs₂⟩, hfill, h⟩ := Outcome.bind_eq_ok h
      cases b with
      | false => cases h
      | true =>
          simp only [readRest, Bool.not_true, Bool.false_eq_true, if_false]
            at h
          obtain ⟨raw, hraw, h⟩ := Outcome.bind_eq_ok h
          obtain ⟨r₃, -, h⟩ := Outcome.bind_eq_ok h
          obtain ⟨buf, hbuf, h⟩ := Outcome.bind_eq_ok h
          obtain ⟨⟨fds, r₄⟩, hfds, h⟩ := Outcome.bind_eq_ok h
          cases h
          obtain ⟨hle₁, rfl⟩ := DbusReader.head_eq_ok hhead
          obtain ⟨hle₂, rfl⟩ := DbusReader.head_eq_ok hraw
          obtain ⟨hstart, more, hmore⟩ := DbusReader.fill_buf hfill
          obtain ⟨hlen, hle⟩ := takeDeclaredFds_eq_ok hfds
          obtain ⟨-, rfl⟩ := slice_eq_ok hbuf
          have htotal : minHeaderSize ≤ p.totalLen := by
            unfold Prologue.totalLen Prologue.headerEnd
            omega
          refine ⟨⟨p, ?_, ?_, ?_⟩, hlen, hle⟩
          · rw [List.take_take, Nat.min_eq_left htotal, hstart, hmore,
              List.drop_append_of_le_length (by omega),
              List.take_append_of_le_length (by
                rw [List.length_drop]
                omega)]
            exact hp
          · rw [List.length_take, List.length_drop]
            omega
          · show p.intoHeader _ = p.intoHeader _
            rw [Prologue.headerEnd, Nat.add_sub_cancel_left]

end DbusRouter.Model
