/-
A dropped read is made good by the next one.

A call that is dropped has moved chunks into the buffer and nothing else,
and a `fill` that asks for as much finds them there
(`fillCall_of_fill`). So a call made anew reads what the dropped one would
have read (`readMessageCall_of_read`), and a script with drops gives what
its chunks alone give, with one more call for each drop
(`readCalls_of_readMessages`).
-/
import Mathlib.Data.List.Forall2
import DbusRouter.Model.Task
import DbusRouter.Proofs.Descriptors

namespace DbusRouter.Model

open Wire Lib

-- ================================================================= one fill

/-- The buffer has only grown. -/
def DbusReader.Extends (r r' : DbusReader) : Prop :=
  r'.start = r.start ∧ ∃ more, r'.buf = r.buf ++ more

/-- A reader has what it has. -/
theorem DbusReader.Extends.refl (r : DbusReader) : r.Extends r :=
  ⟨rfl, [], (List.append_nil _).symm⟩

/-- What it kept it keeps. -/
theorem DbusReader.Extends.trans {r₁ r₂ r₃ : DbusReader}
    (h : r₁.Extends r₂) (h' : r₂.Extends r₃) : r₁.Extends r₃ := by
  obtain ⟨hstart, more, hbuf⟩ := h
  obtain ⟨hstart', more', hbuf'⟩ := h'
  refine ⟨hstart'.trans hstart, more ++ more', ?_⟩
  rw [hbuf', hbuf, List.append_assoc]

/-- Receiving only adds. -/
theorem DbusReader.recvmsgOnce_extends {r r' : DbusReader} {c : Chunk}
    (h : r.recvmsgOnce c = .ok r') : r.Extends r' := by
  unfold DbusReader.recvmsgOnce at h
  split at h
  next => cases h
  next =>
    split at h
    next => cases h
    next =>
      cases h
      exact ⟨rfl, c.bytes, rfl⟩

section fill

variable {r r' : DbusReader} {n : Nat}

/-- A reader that fills can count its bytes. -/
theorem avail_of_fill {cs : List Chunk} {x : Bool × DbusReader × List Chunk}
    (h : r.fill n cs = .ok x) : ∃ k, r.avail = .ok k := by
  cases cs with
  | nil =>
      rw [fill_nil] at h
      obtain ⟨k, hk, -⟩ := Outcome.bind_eq_ok h
      exact ⟨k, hk⟩
  | cons c cs =>
      rw [fill_cons] at h
      obtain ⟨k, hk, -⟩ := Outcome.bind_eq_ok h
      exact ⟨k, hk⟩

/-- Where enough is buffered, nothing is received. -/
theorem fill_of_le {k : Nat} (hk : r.avail = .ok k) (hn : n ≤ k)
    (cs : List Chunk) : r.fill n cs = .ok (true, r, cs) := by
  cases cs with
  | nil =>
      rw [fill_nil, hk, Outcome.ok_bind, decide_eq_true hn]
  | cons c cs =>
      rw [fill_cons, hk, Outcome.ok_bind, if_pos hn]

/-- After a `fill` enough is buffered. -/
theorem le_of_fill {cs cs' : List Chunk} {k : Nat}
    (h : r.fill n cs = .ok (true, r', cs')) (hk : r'.avail = .ok k) :
    n ≤ k := by
  induction cs generalizing r with
  | nil =>
      rw [fill_nil] at h
      obtain ⟨k', hk', h⟩ := Outcome.bind_eq_ok h
      rw [Outcome.ok.injEq, Prod.mk.injEq, decide_eq_true_eq,
        Prod.mk.injEq] at h
      obtain ⟨hle, rfl, -⟩ := h
      rw [hk] at hk'
      cases hk'
      exact hle
  | cons c cs ih =>
      rw [fill_cons] at h
      obtain ⟨k', hk', h⟩ := Outcome.bind_eq_ok h
      split at h
      next hle =>
        cases h
        rw [hk] at hk'
        cases hk'
        exact hle
      next =>
        split at h
        next => cases h
        next =>
          obtain ⟨r₂, -, h⟩ := Outcome.bind_eq_ok h
          exact ih h

/-- Without more waiting there is what is buffered. -/
theorem fillCall_nil (r : DbusReader) (n : Nat) : r.fillCall n [] = (do
    let buffered ← r.avail
    .ok (.returned (decide (n ≤ buffered)) r [])) := rfl

/-- A call that is dropped while it waits keeps the reader. -/
theorem fillCall_dropped (r : DbusReader) (n : Nat) (ws : List Wait) :
    r.fillCall n (.dropped :: ws) = (do
      let buffered ← r.avail
      if n ≤ buffered then .ok (.returned true r (.dropped :: ws))
      else .ok (.dropped r ws)) := rfl

/-- One that gets a chunk goes on with it. -/
theorem fillCall_chunk (r : DbusReader) (n : Nat) (c : Chunk)
    (ws : List Wait) :
    r.fillCall n (.chunk c :: ws) = (do
      let buffered ← r.avail
      if n ≤ buffered then .ok (.returned true r (.chunk c :: ws))
      else if c.bytes.isEmpty then .ok (.returned false r ws)
      else do
        let r ← r.recvmsgOnce c
        r.fillCall n ws) := rfl

/-- What a `fill` on a script's chunks says about the call: it returns the
same, or it is dropped in a state from which every `fill` that asks for as
much goes on as from the first. -/
theorem fillCall_of_fill {ws : List Wait} {b : Bool} {cs : List Chunk}
    (h : r.fill n (chunks ws) = .ok (b, r', cs)) :
    (∃ rest, r.fillCall n ws = .ok (.returned b r' rest)
        ∧ chunks rest = cs ∧ drops rest = drops ws
        ∧ chunks rest <:+ chunks ws)
      ∨ ∃ r₁ rest, r.fillCall n ws = .ok (.dropped r₁ rest)
        ∧ drops ws = drops rest + 1 ∧ chunks rest <:+ chunks ws
        ∧ r.Extends r₁
        ∧ ∀ m, n ≤ m → r₁.fill m (chunks rest) = r.fill m (chunks ws) := by
  induction ws generalizing r with
  | nil =>
      rw [chunks, fill_nil] at h
      obtain ⟨k, hk, h⟩ := Outcome.bind_eq_ok h
      cases h
      refine Or.inl ⟨[], ?_, rfl, rfl, List.suffix_refl _⟩
      rw [fillCall_nil, hk, Outcome.ok_bind]
  | cons w ws ih =>
      cases w with
      | dropped =>
          rw [chunks] at h
          obtain ⟨k, hk⟩ := avail_of_fill h
          by_cases hn : n ≤ k
          · rw [fill_of_le hk hn] at h
            cases h
            refine Or.inl ⟨.dropped :: ws, ?_, rfl, rfl, List.suffix_refl _⟩
            rw [fillCall_dropped, hk, Outcome.ok_bind, if_pos hn]
          · refine Or.inr ⟨r, ws, ?_, rfl, List.suffix_refl _, .refl r,
              fun m _ => rfl⟩
            rw [fillCall_dropped, hk, Outcome.ok_bind, if_neg hn]
      | chunk c =>
          rw [chunks] at h
          rw [fill_cons] at h
          obtain ⟨k, hk, h⟩ := Outcome.bind_eq_ok h
          by_cases hn : n ≤ k
          · rw [if_pos hn] at h
            cases h
            refine Or.inl ⟨.chunk c :: ws, ?_, rfl, rfl, List.suffix_refl _⟩
            rw [fillCall_chunk, hk, Outcome.ok_bind, if_pos hn]
          · rw [if_neg hn] at h
            rw [fillCall_chunk, hk, Outcome.ok_bind, if_neg hn]
            by_cases hc : c.bytes.isEmpty = true
            · rw [if_pos hc] at h
              cases h
              rw [if_pos hc]
              exact Or.inl ⟨ws, rfl, rfl, rfl, List.suffix_cons ..⟩
            · rw [if_neg hc] at h
              obtain ⟨r₂, hr₂, h⟩ := Outcome.bind_eq_ok h
              rw [if_neg hc, hr₂, Outcome.ok_bind]
              rcases ih h with ⟨rest, hcall, hcs, hdrops, hsuffix⟩
                | ⟨r₁, rest, hcall, hdrops, hsuffix, hext, hfill⟩
              · exact Or.inl ⟨rest, hcall, hcs, hdrops,
                  hsuffix.trans (List.suffix_cons ..)⟩
              · refine Or.inr ⟨r₁, rest, hcall, hdrops,
                  hsuffix.trans (List.suffix_cons ..),
                  (DbusReader.recvmsgOnce_extends hr₂).trans hext, ?_⟩
                intro m hm
                rw [hfill m hm, chunks, fill_cons, hk, Outcome.ok_bind,
                  if_neg (by omega), if_neg hc, hr₂, Outcome.ok_bind]

/-- A call that finds the end of the stream has used up the script. -/
theorem fillCall_false {ws rest : List Wait}
    (hne : ∀ c ∈ chunks ws, c.bytes ≠ [])
    (h : r.fillCall n ws = .ok (.returned false r' rest)) : rest = [] := by
  induction ws generalizing r with
  | nil =>
      rw [fillCall_nil] at h
      obtain ⟨k, -, h⟩ := Outcome.bind_eq_ok h
      rw [Outcome.ok.injEq, Call.returned.injEq] at h
      exact h.2.2.symm
  | cons w ws ih =>
      cases w with
      | dropped =>
          rw [fillCall_dropped] at h
          obtain ⟨k, -, h⟩ := Outcome.bind_eq_ok h
          split at h
          next => cases h
          next => cases h
      | chunk c =>
          rw [fillCall_chunk] at h
          obtain ⟨k, -, h⟩ := Outcome.bind_eq_ok h
          have hc : ¬c.bytes.isEmpty = true := by
            simpa using hne c (List.mem_cons_self ..)
          split at h
          next => cases h
          next =>
            obtain ⟨r₂, -, h⟩ := Outcome.bind_eq_ok h
            exact ih (fun c hc => hne c (List.mem_cons_of_mem _ hc)) h

end fill

-- ============================================================= one message

/-- Bytes that were shown are shown again. -/
theorem DbusReader.Extends.head {r r' : DbusReader} {n : Nat} {bs : Bytes}
    (h : r.Extends r') (hhead : r.head n = .ok bs) : r'.head n = .ok bs := by
  obtain ⟨hstart, more, hbuf⟩ := h
  obtain ⟨hle, rfl⟩ := DbusReader.head_eq_ok hhead
  unfold DbusReader.head at hhead ⊢
  obtain ⟨stop, hstop, -⟩ := Outcome.bind_eq_ok hhead
  have heq := addUsize_eq_ok hstop
  subst heq
  rw [hstart, hstop, Outcome.ok_bind, hbuf, slice_ok (by omega)
    (by rw [List.length_append]; omega), Nat.add_sub_cancel_left,
    List.drop_append_of_le_length (by omega),
    List.take_append_of_le_length (by rw [List.length_drop]; omega)]

/-- A reader that has more counts no fewer bytes. -/
theorem DbusReader.Extends.avail {r r' : DbusReader} {k : Nat}
    (h : r.Extends r') (hk : r.avail = .ok k) :
    ∃ k', r'.avail = .ok k' ∧ k ≤ k' := by
  obtain ⟨hstart, more, hbuf⟩ := h
  unfold DbusReader.avail subUsize at hk ⊢
  split at hk
  next hle =>
    cases hk
    rw [hstart, hbuf, List.length_append, if_pos (by omega)]
    exact ⟨_, rfl, by omega⟩
  next => cases hk

/-- A message is no shorter than the start of its header. -/
theorem Prologue.minHeaderSize_le (p : Prologue) :
    minHeaderSize ≤ p.totalLen := by
  unfold Prologue.totalLen Prologue.headerEnd
  omega

section read

variable {z : Zvariant} {r r' : DbusReader} {ws : List Wait}
  {m : Option Message} {cs : List Chunk}

/-- What a read on a script's chunks says about the call: it returns the
same, or it is dropped and the next call reads what it would have read. -/
theorem readMessageCall_of_read
    (h : readMessageFrom z r (chunks ws) = .ok (m, r', cs)) :
    (∃ rest, readMessageCall z r ws = .ok (.returned m r' rest)
        ∧ chunks rest = cs ∧ drops rest = drops ws
        ∧ chunks rest <:+ chunks ws)
      ∨ ∃ r₁ rest, readMessageCall z r ws = .ok (.dropped r₁ rest)
        ∧ drops ws = drops rest + 1 ∧ chunks rest <:+ chunks ws
        ∧ readMessageFrom z r₁ (chunks rest)
          = readMessageFrom z r (chunks ws) := by
  have hread := h
  rw [readMessageFrom_eq] at h
  obtain ⟨⟨b, r₁, cs₁⟩, hfill, h⟩ := Outcome.bind_eq_ok h
  unfold readMessageCall
  rcases fillCall_of_fill hfill with ⟨rest, hcall, hcs, hdrops, hsuffix⟩
    | ⟨r₂, rest, hcall, hdrops, hsuffix, -, hagain⟩
  · subst hcs
    rw [hcall, Outcome.ok_bind]
    cases b with
    | false =>
        cases h
        exact Or.inl ⟨rest, rfl, rfl, hdrops, hsuffix⟩
    | true =>
        simp only [Bool.not_true, Bool.false_eq_true, if_false] at h
        obtain ⟨head, hhead, h⟩ := Outcome.bind_eq_ok h
        obtain ⟨p, hp, h⟩ := Outcome.bind_eq_ok h
        obtain ⟨⟨b, r₂, cs₂⟩, hfill₂, h⟩ := Outcome.bind_eq_ok h
        unfold readMessageBody
        simp only [hhead, hp, Outcome.ok_bind]
        rcases fillCall_of_fill hfill₂ with
          ⟨rest₂, hcall₂, hcs₂, hdrops₂, hsuffix₂⟩
          | ⟨r₃, rest₂, hcall₂, hdrops₂, hsuffix₂, hext, hagain⟩
        · subst hcs₂
          rw [hcall₂, Outcome.ok_bind]
          cases b with
          | false => cases h
          | true =>
              simp only [readRest, Bool.not_true, Bool.false_eq_true,
                if_false] at h
              obtain ⟨raw, hraw, h⟩ := Outcome.bind_eq_ok h
              obtain ⟨r₃, hr₃, h⟩ := Outcome.bind_eq_ok h
              obtain ⟨buf, hbuf, h⟩ := Outcome.bind_eq_ok h
              obtain ⟨⟨fds, r₄⟩, hfds, h⟩ := Outcome.bind_eq_ok h
              cases h
              refine Or.inl ⟨rest₂, ?_, rfl, hdrops₂.trans hdrops,
                hsuffix₂.trans hsuffix⟩
              simp only [hraw, hr₃, hbuf, hfds, Outcome.ok_bind]
        · rw [hcall₂, Outcome.ok_bind]
          refine Or.inr ⟨r₃, rest₂, rfl, by omega, hsuffix₂.trans hsuffix, ?_⟩
          -- the next call finds the prologue in the buffer
          obtain ⟨k, hk⟩ := avail_of_fill hfill₂
          have hk16 : minHeaderSize ≤ k := le_of_fill hfill hk
          obtain ⟨k', hk', hle⟩ := hext.avail hk
          rw [readMessageFrom_eq, fill_of_le hk' (by omega), Outcome.ok_bind]
          simp only [Bool.not_true, Bool.false_eq_true, if_false]
          rw [hext.head hhead, Outcome.ok_bind, hp, Outcome.ok_bind,
            hagain _ (Nat.le_refl _), hread, hfill₂]
          exact h
  · rw [hcall, Outcome.ok_bind]
    refine Or.inr ⟨r₂, rest, rfl, hdrops, hsuffix, ?_⟩
    rw [readMessageFrom_eq, readMessageFrom_eq, hagain _ (Nat.le_refl _)]

end read

-- ============================================================ all messages

/-- After a dropped call the next one goes on with its reader. -/
theorem readCalls_succ (z : Zvariant) (n : Nat) (r : DbusReader)
    (ws : List Wait) : readCalls z (n + 1) r ws = (do
      match ← readMessageCall z r ws with
      | .dropped r ws => readCalls z n r ws
      | .returned m r ws => do
          let (ms, r, ws) ← readCalls z n r ws
          .ok (m :: ms, r, ws)) := rfl

/-- A call that returns nothing has used up the script. -/
theorem readMessageCall_none {z : Zvariant} {r r' : DbusReader}
    {ws rest : List Wait} (hne : ∀ c ∈ chunks ws, c.bytes ≠ [])
    (h : readMessageCall z r ws = .ok (.returned none r' rest)) :
    rest = [] := by
  unfold readMessageCall at h
  obtain ⟨call, hcall, h⟩ := Outcome.bind_eq_ok h
  cases call with
  | dropped => cases h
  | returned b r₁ rest₁ =>
      cases b with
      | false =>
          cases h
          exact fillCall_false hne hcall
      | true =>
          unfold readMessageBody at h
          obtain ⟨head, -, h⟩ := Outcome.bind_eq_ok h
          obtain ⟨p, -, h⟩ := Outcome.bind_eq_ok h
          obtain ⟨call₂, -, h⟩ := Outcome.bind_eq_ok h
          cases call₂ with
          | dropped => cases h
          | returned b r₂ rest₂ =>
              cases b with
              | false => cases h
              | true =>
                  obtain ⟨raw, -, h⟩ := Outcome.bind_eq_ok h
                  obtain ⟨r₃, -, h⟩ := Outcome.bind_eq_ok h
                  obtain ⟨buf, -, h⟩ := Outcome.bind_eq_ok h
                  obtain ⟨x, -, h⟩ := Outcome.bind_eq_ok h
                  cases h

/-- With one more call for each drop, a script gives the messages that its
chunks give. -/
theorem readCalls_of_readMessages {z : Zvariant} (n : Nat) :
    ∀ {msgs : List Message} {r r' : DbusReader} {ws : List Wait}
      {cs : List Chunk}, msgs.length + drops ws = n →
      (∀ c ∈ chunks ws, c.bytes ≠ []) →
      readMessages z (msgs.length + 1) r (chunks ws) = .ok (msgs, r', cs) →
      readCalls z (n + 1) r ws = .ok (msgs.map some ++ [none], r', []) := by
  induction n with
  | zero =>
      intro msgs r r' ws cs hn hne h
      have hnil : msgs = [] := List.eq_nil_of_length_eq_zero (by omega)
      subst hnil
      rw [List.length_nil, readMessages_succ] at h
      obtain ⟨⟨m, r₁, cs₁⟩, hread, h⟩ := Outcome.bind_eq_ok h
      cases m with
      | some m => cases h
      | none =>
          cases h
          rcases readMessageCall_of_read hread with ⟨rest, hcall, -, -, -⟩
            | ⟨r₂, rest, -, hdrops, -, -⟩
          · have hrest := readMessageCall_none hne hcall
            subst hrest
            rw [readCalls_succ, hcall, Outcome.ok_bind]
            rfl
          · omega
  | succ n ih =>
      intro msgs r r' ws cs hn hne h
      have hstep := h
      rw [readMessages_succ] at h
      obtain ⟨⟨m, r₁, cs₁⟩, hread, h⟩ := Outcome.bind_eq_ok h
      rcases readMessageCall_of_read hread with
        ⟨rest, hcall, hcs, hdrops, hsuffix⟩
        | ⟨r₂, rest, hcall, hdrops, hsuffix, hagain⟩
      · have hne' : ∀ c ∈ chunks rest, c.bytes ≠ [] :=
          fun c hc => hne c (hsuffix.subset hc)
        rw [readCalls_succ, hcall, Outcome.ok_bind]
        cases m with
        | none =>
            -- the end of the stream comes after the last drop
            cases h
            have hrest := readMessageCall_none hne hcall
            subst hrest
            rw [drops] at hdrops
            simp only [List.length_nil] at hn
            omega
        | some m =>
            subst hcs
            obtain ⟨⟨ms, r₂, cs₂⟩, hms, h⟩ := Outcome.bind_eq_ok h
            cases h
            rw [List.length_cons] at hn hms
            have hlater := ih (show ms.length + drops rest = n by omega) hne'
              hms
            simp only [hlater, Outcome.ok_bind]
            rfl
      · have hne' : ∀ c ∈ chunks rest, c.bytes ≠ [] :=
          fun c hc => hne c (hsuffix.subset hc)
        rw [readCalls_succ, hcall, Outcome.ok_bind]
        have hlater : readMessages z (msgs.length + 1) r₂ (chunks rest)
            = .ok (msgs, r', cs) := by
          rw [readMessages_succ, hagain, ← readMessages_succ]
          exact hstep
        exact ih (by omega) hne' hlater

-- ============================================================ without fds

/-- Bytes as a stream on which nothing is attached. -/
def bareStream (bs : Bytes) : List StreamByte := bs.map (⟨·, none⟩)

/-- A stream without descriptors has the bytes it was made of. -/
theorem bareStream_bytes (bs : Bytes) :
    (bareStream bs).map (·.byte) = bs := by
  rw [bareStream, List.map_map]
  exact List.map_id bs

/-- A bare stream has no descriptors. -/
theorem bareStream_fds {bs : Bytes} {x : StreamByte}
    (hx : x ∈ bareStream bs) : x.fds = [] := by
  obtain ⟨b, -, rfl⟩ := List.mem_map.mp hx
  rfl

/-- It can be received in one go if it is not too long. -/
theorem bareStream_receivable {bs : Bytes} (hne : bs ≠ [])
    (hle : bs.length ≤ 64 * 1024) : Receivable (bareStream bs) := by
  refine ⟨?_, ?_, ?_⟩
  · unfold bareStream
    rw [ne_eq, List.map_eq_nil_iff]
    exact hne
  · unfold bareStream
    rw [List.length_map]
    exact hle
  · rw [List.pairwise_iff_forall_sublist]
    intro b later hsub hb
    have hmem : b ∈ bareStream bs := hsub.subset (List.mem_cons_self ..)
    exact absurd (bareStream_fds hmem) hb

/-- A chunk without descriptors is what is received of a bare stream. -/
theorem received_bareStream {c : Chunk} (h : c.fds = []) :
    received (bareStream c.bytes) = c := by
  obtain ⟨bytes, fds⟩ := c
  subst h
  unfold received
  rw [bareStream_bytes, flatMap_fds_eq_nil fun x hx => bareStream_fds hx]

/-- Messages behind each other are one stream. -/
theorem bareStream_flatMap {α : Type} (f : α → Bytes) (l : List α) :
    (l.map fun a => bareStream (f a)).flatten = bareStream (l.flatMap f) := by
  induction l with
  | nil => rfl
  | cons a l ih =>
      rw [List.map_cons, List.flatten_cons, ih, List.flatMap_cons, bareStream,
        bareStream, bareStream, List.map_append]

/-- A message without descriptors is carried by its bytes. -/
theorem carries_bareStream {z : Zvariant} {msg : Message}
    (hacc : msg.Accepted z) (hfds : msg.fds = []) :
    Carries msg (bareStream msg.raw) := by
  refine ⟨bareStream_bytes msg.raw, ?_⟩
  cases hs : bareStream msg.raw with
  | nil =>
      obtain ⟨p, -, hlen, -⟩ := hacc.framed
      have hmin := p.minHeaderSize_le
      rw [← hlen, ← bareStream_bytes msg.raw, hs] at hmin
      cases hmin
  | cons b rest =>
      refine ⟨b, rest, rfl, ?_, fun x hx => ?_⟩
      · rw [hfds]
        exact bareStream_fds (hs ▸ List.mem_cons_self ..)
      · exact bareStream_fds (hs ▸ List.mem_cons_of_mem _ hx)

section chunks

variable {cs : List Chunk}

/-- Chunks without descriptors are received of pieces of a bare stream. -/
theorem received_bareStreams (h : ∀ c ∈ cs, c.fds = []) :
    (cs.map fun c => bareStream c.bytes).map received = cs := by
  rw [List.map_map]
  conv_rhs => rw [← List.map_id cs]
  exact List.map_congr_left fun c hc => received_bareStream (h c hc)

/-- So are chunks of any size a call can return. -/
theorem receivable_bareStreams
    (h : ∀ c ∈ cs, 1 ≤ c.bytes.length ∧ c.bytes.length ≤ 64 * 1024) :
    ∀ p ∈ cs.map fun c => bareStream c.bytes, Receivable p := by
  intro p hp
  obtain ⟨c, hc, rfl⟩ := List.mem_map.mp hp
  exact bareStream_receivable (List.ne_nil_of_length_pos (h c hc).1)
    (h c hc).2

end chunks

/-- However the bytes of messages without descriptors are cut into chunks,
and wherever calls are dropped between two of these, the calls that return
give the messages, and then the end of the stream. -/
theorem reads_resumed {z : Zvariant} {msgs : List Message} {ws : List Wait}
    (hmsgs : ∀ msg ∈ msgs, msg.Accepted z ∧ msg.fds = [])
    (hchunks : ∀ c ∈ chunks ws,
      1 ≤ c.bytes.length ∧ c.bytes.length ≤ 64 * 1024 ∧ c.fds = [])
    (hstream : (chunks ws).flatMap (·.bytes) = msgs.flatMap (·.raw)) :
    ∃ r, readCalls z (msgs.length + drops ws + 1) .new ws
      = .ok (msgs.map some ++ [none], r, []) := by
  have hne : ∀ c ∈ chunks ws, c.bytes ≠ [] := fun c hc =>
    List.ne_nil_of_length_pos (hchunks c hc).1
  have hacc : ∀ msg ∈ msgs, msg.Accepted z := fun msg hmsg =>
    (hmsgs msg hmsg).1
  have hss : List.Forall₂ Carries msgs
      (msgs.map fun msg => bareStream msg.raw) := by
    rw [List.forall₂_map_right_iff, List.forall₂_same]
    exact fun msg hmsg => carries_bareStream (hacc msg hmsg) (hmsgs msg hmsg).2
  have hpieces := received_bareStreams fun c hc => (hchunks c hc).2.2
  have hps := receivable_bareStreams fun c hc =>
    ⟨(hchunks c hc).1, (hchunks c hc).2.1⟩
  have hlimit : ∀ p ∈ (chunks ws).map fun c => bareStream c.bytes,
      (p.flatMap (·.fds)).length ≤ maxFdsPerMessage := by
    intro p hp
    obtain ⟨c, -, rfl⟩ := List.mem_map.mp hp
    rw [flatMap_fds_eq_nil fun x hx => bareStream_fds hx]
    exact Nat.zero_le _
  have hfits : QueueFits 0 msgs (chunks ws) := by
    intro before c after before' msg after' hcs hms _ _
    have hc : c.fds = [] := (hchunks c (by rw [hcs]; simp)).2.2
    have hm : msg.fds = [] := (hmsgs msg (by rw [hms]; simp)).2
    rw [hc, hm]
    exact Nat.zero_le _
  have hiff := readMessages_iff hss hacc DbusReader.Has.new
    (Nat.zero_le _) hps hlimit (by
      rw [List.nil_append, bareStream_flatMap, bareStream_flatMap, hstream])
  rw [hpieces] at hiff
  obtain ⟨r, hr⟩ := hiff.mpr hfits
  exact ⟨r, readCalls_of_readMessages _ rfl hne hr⟩

/-- Two signals in four chunks, with a call dropped in the middle of the
first, one between them and one at the end. -/
theorem reads_resumed_two : ∃ r, readCalls .reference 6 .new
    [.chunk ⟨(fdSignal 1 0).raw.take 20, []⟩, .dropped,
      .chunk ⟨(fdSignal 1 0).raw.drop 20, []⟩, .dropped,
      .chunk ⟨(fdSignal 2 0).raw.take 3, []⟩,
      .chunk ⟨(fdSignal 2 0).raw.drop 3, []⟩, .dropped]
    = .ok ([some (fdSignal 1 0), some (fdSignal 2 0), none], r, []) :=
  reads_resumed
    (show ∀ msg ∈ [fdSignal 1 0, fdSignal 2 0],
      msg.Accepted .reference ∧ msg.fds = [] by decide +kernel)
    (by decide +kernel) (by decide +kernel)

end DbusRouter.Model
