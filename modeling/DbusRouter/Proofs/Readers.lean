/-
The two readers.

`readMessage` assembles a message from five reads of a plain stream,
`readMessageFrom` slices it from a buffer. Every stream is frames and then
bytes that begin with none (`exists_frames`). Where the frames declare no
descriptors, both readers give them (`readMessage_message`,
`readFrom_message`), and what does not parse is an error to both. They part
where the stream is cut in a prologue: each takes what is too short for its
first read as the end of the stream, and that is less than twelve bytes to
the one and less than sixteen to the other (`readers_agree_iff`).
-/
import DbusRouter.Proofs.Resume

namespace DbusRouter.Model

open Wire Lib

-- ======================================================== repeated reading

/-- How repeated reading ends. -/
inductive Ending where
  /-- at the end of the stream -/
  | closed
  | failed (e : Error)
  | panicked (p : Panic)
  /-- in none of these within the calls made -/
  | unfinished
  deriving DecidableEq, Repr

/-- Calls a reader, `n` times at most, until it gives no message. -/
def readAll {σ : Type} (read : σ → Result (Option Message × σ)) :
    Nat → σ → List Message × Ending
  | 0, _ => ([], .unfinished)
  | n + 1, s =>
      match read s with
      | .ok (some msg, s) =>
          (msg :: (readAll read n s).1, (readAll read n s).2)
      | .ok (none, _) => ([], .closed)
      | .err e => ([], .failed e)
      | .panic p => ([], .panicked p)

/-- The right end of a stream that has `rest` behind its last whole
message. -/
def Ending.Right (rest : Bytes) : Ending → Prop
  | .closed => rest = []
  | .failed _ => rest ≠ []
  | .panicked _ => False
  | .unfinished => False

section readAll

variable {σ : Type} {read : σ → Result (Option Message × σ)}

theorem readAll_some {s s' : σ} {msg : Message}
    (h : read s = .ok (some msg, s')) (n : Nat) :
    readAll read (n + 1) s
      = (msg :: (readAll read n s').1, (readAll read n s').2) := by
  simp only [readAll, h]

theorem readAll_none {s s' : σ} (h : read s = .ok (none, s')) (n : Nat) :
    readAll read (n + 1) s = ([], .closed) := by
  simp only [readAll, h]

theorem readAll_err {s : σ} {e : Error} (h : read s = .err e) (n : Nat) :
    readAll read (n + 1) s = ([], .failed e) := by
  simp only [readAll, h]

/-- A reader that reads each message it stands before reads them all, and
ends as it does on the rest. -/
theorem readAll_messages (before : σ → Bytes → Prop) (P : Ending → Prop)
    {rest : Bytes} {msgs : List Message}
    (hnext : ∀ msg ∈ msgs, ∀ s more, before s (msg.raw ++ more) →
      ∃ s', read s = .ok (some msg, s') ∧ before s' more)
    (hrest : ∀ s, before s rest →
      ∃ e, P e ∧ ∀ n, readAll read (n + 1) s = ([], e))
    {s : σ} (hs : before s (msgs.flatMap (·.raw) ++ rest)) {n : Nat}
    (hn : msgs.length < n) :
    ∃ e, P e ∧ readAll read n s = (msgs, e) := by
  induction msgs generalizing s n with
  | nil =>
      obtain ⟨e, he, hall⟩ := hrest s hs
      obtain ⟨k, rfl⟩ := Nat.exists_eq_succ_of_ne_zero (Nat.ne_of_gt hn)
      exact ⟨e, he, hall k⟩
  | cons msg msgs ih =>
      rw [List.length_cons] at hn
      obtain ⟨k, rfl⟩ := Nat.exists_eq_succ_of_ne_zero
        (Nat.ne_of_gt (Nat.zero_lt_of_lt hn))
      rw [List.flatMap_cons, List.append_assoc] at hs
      obtain ⟨s', hread, hs'⟩ := hnext msg (List.mem_cons_self ..) s _ hs
      obtain ⟨e, he, hall⟩ := ih
        (fun m hm => hnext m (List.mem_cons_of_mem _ hm)) hs'
        (Nat.lt_of_succ_lt_succ hn)
      refine ⟨e, he, ?_⟩
      rw [readAll_some hread, hall]

end readAll

-- ============================================================== the stream

/-- Every stream is frames and a rest that begins with none. -/
theorem exists_frames (s : Bytes) : ∃ (fs : List Frame) (rest : Bytes),
    s = fs.flatMap Frame.bytes ++ rest ∧ ∀ f : Frame, ¬f.bytes <+: rest := by
  induction hn : s.length using Nat.strong_induction_on generalizing s with
  | h n ih =>
      by_cases hf : ∃ f : Frame, f.bytes <+: s
      · obtain ⟨f, more, rfl⟩ := hf
        have hpos : 0 < f.bytes.length := by
          rw [f.bytes_length, Frame.bodyStart]
          omega
        rw [List.length_append] at hn
        obtain ⟨fs, rest, hmore, hrest⟩ := ih more.length (by omega) more rfl
        refine ⟨f :: fs, rest, ?_, hrest⟩
        rw [List.flatMap_cons, List.append_assoc, ← hmore]
      · refine ⟨[], s, rfl, fun f h => hf ⟨f, h⟩⟩

/-- Behind a prologue that parses there is no frame exactly when it declares
more than there is. -/
theorem begins_none_iff {rest : Bytes} {p : Prologue}
    (hp : Prologue.parse (rest.take minHeaderSize) = .ok p) :
    (∀ f : Frame, ¬f.bytes <+: rest) ↔ rest.length < p.totalLen := by
  constructor
  · intro hrest
    by_contra hle
    have hlen : (rest.take p.totalLen).length = p.totalLen := by
      rw [List.length_take]
      omega
    have hhead : Prologue.parse ((rest.take p.totalLen).take minHeaderSize)
        = .ok p := by
      rw [List.take_take, Nat.min_eq_left p.minHeaderSize_le]
      exact hp
    obtain ⟨f, hf, -⟩ := exists_frame hhead hlen
    exact hrest f (hf ▸ List.take_prefix ..)
  · rintro hlt f ⟨more, rfl⟩
    have hmin : minHeaderSize ≤ f.bytes.length := by
      rw [← f.totalLen_prologue]
      exact f.prologue.minHeaderSize_le
    rw [List.take_append_of_le_length hmin, f.parse_bytes] at hp
    cases hp
    rw [f.totalLen_prologue, List.length_append] at hlt
    omega

-- ======================================================== the plain reader

theorem readExact_append {n : Nat} {bs : Bytes} (h : bs.length = n)
    (more : Bytes) : readExact n (bs ++ more) = .ok (bs, more) := by
  unfold readExact
  rw [if_neg (by rw [List.length_append]; omega), List.take_left' h,
    List.drop_left' h]

theorem readExact_eq_ok {n : Nat} {s bs more : Bytes}
    (h : readExact n s = .ok (bs, more)) :
    s = bs ++ more ∧ bs.length = n := by
  unfold readExact at h
  split at h
  next => cases h
  next hle =>
    cases h
    refine ⟨(List.take_append_drop n s).symm, ?_⟩
    rw [List.length_take]
    omega

theorem readExact_noPanic (n : Nat) (s : Bytes) :
    (readExact n s).NoPanic := by
  unfold readExact
  split
  next => exact Outcome.noPanic_err _
  next => exact Outcome.noPanic_ok _

theorem readBuf_eq (n : Nat) (s : Bytes) : readBuf n s = readExact n s := by
  unfold readBuf
  split
  next hn =>
    subst hn
    exact (readExact_append rfl s).symm
  next => rfl

/-- `readMessage` behind its first read. -/
theorem readMessage_append (z : Zvariant) {start : Bytes}
    (h : start.length = fixedHeaderSize) (s : Bytes) :
    readMessage z (start ++ s) = (do
      let (rest, s) ← readExact (minHeaderSize - fixedHeaderSize) s
      let p ← Prologue.parse (start ++ rest)
      let (fields, s) ← readExact p.arrayLen s
      let (padding, s) ← readExact p.padding s
      let (body, s) ← readExact p.bodyLen s
      .ok (some ⟨p.intoHeader (parseHeaderFields z fields p.endian),
        start ++ rest ++ fields ++ padding ++ body, []⟩, s)) := by
  unfold readMessage
  simp only [readExact_append h, readBuf_eq]

theorem readMessage_short (z : Zvariant) {s : Bytes}
    (h : s.length < fixedHeaderSize) : readMessage z s = .ok (none, []) := by
  unfold readMessage readExact
  rw [if_pos h]

/-- A frame is read from what begins with it. -/
theorem readMessage_frame (z : Zvariant) (f : Frame) (more : Bytes) :
    readMessage z (f.bytes ++ more) = .ok (some (f.message z []), more) := by
  have hhead : f.fixed ++ f.endian.bytes 4 f.array.length
      = f.bytes.take minHeaderSize := by
    unfold Frame.bytes layout
    rw [← List.append_assoc, List.take_left' (by simp [minHeaderSize])]
  have hsplit : f.bytes ++ more = f.fixed
      ++ (f.endian.bytes 4 f.array.length
        ++ (f.array ++ (f.padding ++ (f.body ++ more)))) := by
    simp only [Frame.bytes, layout, List.append_assoc]
  rw [hsplit, readMessage_append z f.fixed_length,
    readExact_append (show (f.endian.bytes 4 f.array.length).length
      = minHeaderSize - fixedHeaderSize from f.endian.bytes_length ..),
    Outcome.ok_bind]
  simp only
  rw [hhead, f.parse_bytes, Outcome.ok_bind,
    readExact_append (show f.array.length = f.prologue.arrayLen from rfl),
    Outcome.ok_bind]
  simp only
  rw [readExact_append (show f.padding.length = f.prologue.padding from
    f.padding_eq), Outcome.ok_bind]
  simp only
  rw [readExact_append (show f.body.length = f.prologue.bodyLen from rfl),
    Outcome.ok_bind, ← hhead]
  simp only [Frame.message, Frame.bytes, layout, List.append_assoc]
  rfl

theorem readMessage_message {z : Zvariant} {msg : Message}
    (hacc : msg.Accepted z) (hfds : msg.fds = []) (more : Bytes) :
    readMessage z (msg.raw ++ more) = .ok (some msg, more) := by
  obtain ⟨f, hf⟩ := hacc.eq_message
  rw [hfds] at hf
  rw [hf]
  exact readMessage_frame z f more

/-- What begins with no frame is an error, if it is long enough for the
first read. -/
theorem readMessage_rest (z : Zvariant) {rest : Bytes}
    (hrest : ∀ f : Frame, ¬f.bytes <+: rest)
    (hlen : fixedHeaderSize ≤ rest.length) :
    ∃ e, readMessage z rest = .err e := by
  obtain ⟨start, s, rfl, hstart⟩ : ∃ start s, rest = start ++ s
      ∧ start.length = fixedHeaderSize :=
    ⟨_, _, (List.take_append_drop fixedHeaderSize rest).symm, by
      rw [List.length_take, Nat.min_eq_left hlen]⟩
  cases hread : readMessage z (start ++ s) with
  | err e => exact ⟨e, rfl⟩
  | panic p =>
      rw [readMessage_append z hstart] at hread
      refine absurd hread ((readExact_noPanic _ _).bind ?_ p)
      rintro ⟨four, s₁⟩ hfour
      obtain ⟨-, hlen₁⟩ := readExact_eq_ok hfour
      have hhead : (start ++ four).length = 16 := by
        rw [List.length_append, hstart, hlen₁]
        rfl
      refine (Prologue.parse_noPanic hhead).bind fun p _ => ?_
      refine (readExact_noPanic _ _).bind fun _ _ => ?_
      refine (readExact_noPanic _ _).bind fun _ _ => ?_
      refine (readExact_noPanic _ _).bind fun _ _ => ?_
      exact Outcome.noPanic_ok _
  | ok x =>
      -- all five reads succeed, so there is as much as the prologue declares
      exfalso
      rw [readMessage_append z hstart] at hread
      obtain ⟨⟨four, s₁⟩, hfour, hread⟩ := Outcome.bind_eq_ok hread
      obtain ⟨p, hp, hread⟩ := Outcome.bind_eq_ok hread
      obtain ⟨⟨fields, s₂⟩, hfields, hread⟩ := Outcome.bind_eq_ok hread
      obtain ⟨⟨padding, s₃⟩, hpadding, hread⟩ := Outcome.bind_eq_ok hread
      obtain ⟨⟨body, s₄⟩, hbody, -⟩ := Outcome.bind_eq_ok hread
      obtain ⟨rfl, hlen₁⟩ := readExact_eq_ok hfour
      obtain ⟨rfl, hlen₂⟩ := readExact_eq_ok hfields
      obtain ⟨rfl, hlen₃⟩ := readExact_eq_ok hpadding
      obtain ⟨rfl, hlen₄⟩ := readExact_eq_ok hbody
      have hlt := (begins_none_iff (p := p) (by
        rw [← List.append_assoc, List.take_left' (by
          rw [List.length_append, hstart, hlen₁]
          rfl)]
        exact hp)).mp hrest
      simp only [List.length_append, hstart, hlen₁, hlen₂, hlen₃, hlen₄]
        at hlt
      unfold Prologue.totalLen Prologue.headerEnd minHeaderSize
        fixedHeaderSize at hlt
      omega

/-- How reading a plain stream ends that begins with no frame. -/
theorem readMessage_end (z : Zvariant) {rest : Bytes}
    (hrest : ∀ f : Frame, ¬f.bytes <+: rest) :
    ∃ e : Ending, (e.Right rest ↔ rest = [] ∨ fixedHeaderSize ≤ rest.length)
      ∧ ∀ n, readAll (readMessage z) (n + 1) rest = ([], e) := by
  by_cases hlen : fixedHeaderSize ≤ rest.length
  · obtain ⟨e, he⟩ := readMessage_rest z hrest hlen
    refine ⟨.failed e, ⟨fun _ => Or.inr hlen, fun _ => ?_⟩, fun n =>
      readAll_err he n⟩
    rintro rfl
    cases hlen
  · refine ⟨.closed, ⟨Or.inl, fun h => h.resolve_right hlen⟩, fun n => ?_⟩
    exact readAll_none (readMessage_short z (by omega)) n

-- ==================================================== the reader of sockets

/-- `readMessageFrom` as a reader of the connection and what the kernel will
return. -/
def readFrom (z : Zvariant) (x : DbusReader × List Chunk) :
    Result (Option Message × DbusReader × List Chunk) :=
  readMessageFrom z x.1 x.2

/-- A connection on which nothing but `s` is to come, part of it received
already. -/
def Awaits (x : DbusReader × List Chunk) (s : Bytes) : Prop :=
  ∃ (held : List StreamByte) (ps : List (List StreamByte)),
    x.2 = ps.map received ∧ x.1.Has held ∧ held.length ≤ 64 * 1024
      ∧ (∀ p ∈ ps, Receivable p) ∧ held ++ ps.flatten = bareStream s

/-- The queue admits what brings no descriptors. -/
theorem admits_bareStream {n : Nat} {held : List StreamByte}
    {ps : List (List StreamByte)} {s : Bytes}
    (h : held ++ ps.flatten = bareStream s) :
    Admits QueueAdmits n held ps := by
  rw [admits_iff]
  intro u p v hps _
  have hnone : ∀ x ∈ held ++ ps.flatten, x.fds = [] := by
    intro x hx
    rw [h] at hx
    exact bareStream_fds hx
  have hheld : (held ++ u.flatten).flatMap (·.fds) = [] := by
    refine flatMap_fds_eq_nil fun x hx => hnone x ?_
    rw [hps, List.flatten_append, ← List.append_assoc]
    exact List.mem_append_left _ hx
  have hpiece : p.flatMap (·.fds) = [] := by
    refine flatMap_fds_eq_nil fun x hx => hnone x ?_
    rw [hps, List.flatten_append, List.flatten_cons]
    exact List.mem_append_right _ (List.mem_append_right _
      (List.mem_append_left _ hx))
  unfold QueueAdmits
  rw [hheld, hpiece]
  exact Nat.zero_le _

/-- A message without descriptors is read from what begins with it. -/
theorem readFrom_message {z : Zvariant} {msg : Message}
    (hacc : msg.Accepted z) (hfds : msg.fds = [])
    {x : DbusReader × List Chunk} {more : Bytes}
    (hx : Awaits x (msg.raw ++ more)) :
    ∃ x', readFrom z x = .ok (some msg, x') ∧ Awaits x' more := by
  obtain ⟨held, ps, hcs, hr, hheld, hps, hstream⟩ := hx
  have hadm := admits_bareStream (n := (bareStream msg.raw).length) hstream
  unfold bareStream at hstream
  rw [List.map_append] at hstream
  obtain ⟨r', extra, -, hmore, hextra, hread, hr'⟩ :=
    readMessageFrom_next hacc (carries_bareStream hacc hfds) hr hps hheld
      hstream hadm
  refine ⟨(r', _), ?_, extra, _, rfl, hr', hextra, fun p hp => ?_, hmore⟩
  · unfold readFrom
    rw [hcs]
    exact hread
  · exact hps p (mem_of_mem_gather hp)

/-- What begins with no frame is an error, if it is long enough for a
prologue. -/
theorem readFrom_rest (z : Zvariant) {x : DbusReader × List Chunk}
    {rest : Bytes} (hx : Awaits x rest)
    (hrest : ∀ f : Frame, ¬f.bytes <+: rest)
    (hlen : minHeaderSize ≤ rest.length) : ∃ e, readFrom z x = .err e := by
  obtain ⟨held, ps, hcs, hr, hheld, hps, hstream⟩ := hx
  have hne : ∀ p ∈ ps, p ≠ [] := fun p hp => (hps p hp).1
  have hlength : (held ++ ps.flatten).length = rest.length := by
    rw [hstream, bareStream, List.length_map]
  have hsame := gather_stream minHeaderSize held ps
  have hle : minHeaderSize ≤ (gather minHeaderSize held ps).1.length :=
    le_gather (by omega)
  have hmost : (gather minHeaderSize held ps).1.length
      ≤ minHeaderSize + 64 * 1024 :=
    gather_length_le (fun p hp => (hps p hp).2.1) (by omega)
  obtain ⟨r₁, hfill, hhas⟩ := hr.fill hne
    (admits_bareStream (n := minHeaderSize) hstream) (by omega)
  have hleft : ∀ p ∈ (gather minHeaderSize held ps).2, p ≠ [] :=
    fun p hp => hne p (mem_of_mem_gather hp)
  generalize (gather minHeaderSize held ps).1 = got at *
  generalize (gather minHeaderSize held ps).2 = left at *
  rw [hstream] at hsame
  have hbytes : got.map (·.byte) ++ left.flatten.map (·.byte) = rest := by
    rw [← List.map_append, hsame, bareStream_bytes]
  have h16 : minHeaderSize = 16 := rfl
  have hhead : r₁.head minHeaderSize = .ok (rest.take minHeaderSize) := by
    rw [hhas.holds.head (by rw [List.length_map]; exact hle)
      (by rw [List.length_map]; omega), ← hbytes,
      List.take_append_of_le_length (by rw [List.length_map]; exact hle)]
  unfold readFrom
  rw [hcs, readMessageFrom_eq, hfill, Outcome.ok_bind]
  simp only [Bool.not_true, Bool.false_eq_true, if_false]
  rw [hhead, Outcome.ok_bind]
  cases hp : Prologue.parse (rest.take minHeaderSize) with
  | err e => exact ⟨e, rfl⟩
  | panic p =>
      refine absurd hp (Prologue.parse_noPanic ?_ p)
      rw [List.length_take]
      omega
  | ok p =>
      have hlt := (begins_none_iff hp).mp hrest
      obtain ⟨r₂, hshort⟩ := hhas.fill_short hleft
        (admits_bareStream (n := p.totalLen) hsame) (by
          rw [hsame, bareStream, List.length_map]
          exact hlt)
      rw [Outcome.ok_bind, hshort, Outcome.ok_bind]
      exact ⟨_, rfl⟩

/-- How reading from a connection ends whose stream begins with no frame. -/
theorem readFrom_end (z : Zvariant) {x : DbusReader × List Chunk}
    {rest : Bytes} (hx : Awaits x rest)
    (hrest : ∀ f : Frame, ¬f.bytes <+: rest) :
    ∃ e : Ending, (e.Right rest ↔ rest = [] ∨ minHeaderSize ≤ rest.length)
      ∧ ∀ n, readAll (readFrom z) (n + 1) x = ([], e) := by
  by_cases hlen : minHeaderSize ≤ rest.length
  · obtain ⟨e, he⟩ := readFrom_rest z hx hrest hlen
    refine ⟨.failed e, ⟨fun _ => Or.inr hlen, fun _ => ?_⟩, fun n =>
      readAll_err he n⟩
    rintro rfl
    cases hlen
  · obtain ⟨held, ps, hcs, hr, -, hps, hstream⟩ := hx
    obtain ⟨r', hfill⟩ := hr.fill_short (n := minHeaderSize)
      (fun p hp => (hps p hp).1) (admits_bareStream hstream) (by
        rw [hstream, bareStream, List.length_map]
        omega)
    have hread : readFrom z x = .ok (none, r', []) := by
      unfold readFrom
      rw [hcs, readMessageFrom_eq, hfill]
      rfl
    exact ⟨.closed, ⟨Or.inl, fun h => h.resolve_right hlen⟩,
      readAll_none hread⟩

/-- The chunks of a stream without descriptors, before any is received. -/
theorem awaits_new {cs : List Chunk}
    (hchunks : ∀ c ∈ cs,
      1 ≤ c.bytes.length ∧ c.bytes.length ≤ 64 * 1024 ∧ c.fds = []) :
    Awaits (.new, cs) (cs.flatMap (·.bytes)) := by
  refine ⟨[], cs.map fun c => bareStream c.bytes, ?_, DbusReader.Has.new,
    Nat.zero_le _, ?_, ?_⟩
  · exact (received_bareStreams fun c hc => (hchunks c hc).2.2).symm
  · exact receivable_bareStreams fun c hc =>
      ⟨(hchunks c hc).1, (hchunks c hc).2.1⟩
  · rw [List.nil_append, bareStream_flatMap]

-- ================================================================ agreement

/-- On a stream without descriptors, whole messages and a rest that begins
with none, both readers give the messages and the right end. -/
def ReadersAgree : Prop :=
  ∀ (z : Zvariant) (cs : List Chunk) (msgs : List Message) (rest : Bytes),
    (∀ c ∈ cs,
      1 ≤ c.bytes.length ∧ c.bytes.length ≤ 64 * 1024 ∧ c.fds = []) →
    (∀ msg ∈ msgs, msg.Accepted z ∧ msg.fds = []) →
    (∀ f : Frame, ¬f.bytes <+: rest) →
    cs.flatMap (·.bytes) = msgs.flatMap (·.raw) ++ rest →
    ∀ n, msgs.length < n →
      ∃ e e', readAll (readMessage z) n (cs.flatMap (·.bytes)) = (msgs, e)
        ∧ readAll (readFrom z) n (.new, cs) = (msgs, e')
        ∧ e.Right rest ∧ e'.Right rest

/-- The first thirteen bytes of a message. -/
def cutPrologue : Bytes := (fdSignal 1 0).raw.take 13

theorem begins_none_of_short {rest : Bytes}
    (h : rest.length < minHeaderSize) (f : Frame) : ¬f.bytes <+: rest := by
  intro hf
  have hle := hf.length_le
  have hmin := f.prologue.minHeaderSize_le
  rw [f.totalLen_prologue] at hmin
  omega

/-- Cut in its prologue, a message is an error to the one reader and the end
of the stream to the other. -/
theorem cut_prologue : ¬ReadersAgree := by
  intro h
  obtain ⟨e, e', -, hfrom, -, hright⟩ := h .reference [⟨cutPrologue, []⟩] []
    cutPrologue (by decide +kernel) (by decide)
    (begins_none_of_short (by decide +kernel)) (by simp) 1 (by decide)
  have hclosed : readAll (readFrom .reference) 1 (.new, [⟨cutPrologue, []⟩])
      = ([], .closed) := by
    decide +kernel
  rw [hclosed] at hfrom
  cases hfrom
  have hnil : cutPrologue ≠ [] := by decide +kernel
  exact hnil hright

/-- Both readers give the messages. Both give the right end exactly when
nothing is left behind them, or a whole prologue. -/
theorem readers_agree_iff {z : Zvariant} {cs : List Chunk}
    {msgs : List Message} {rest : Bytes}
    (hchunks : ∀ c ∈ cs,
      1 ≤ c.bytes.length ∧ c.bytes.length ≤ 64 * 1024 ∧ c.fds = [])
    (hmsgs : ∀ msg ∈ msgs, msg.Accepted z ∧ msg.fds = [])
    (hrest : ∀ f : Frame, ¬f.bytes <+: rest)
    (hstream : cs.flatMap (·.bytes) = msgs.flatMap (·.raw) ++ rest) {n : Nat}
    (hn : msgs.length < n) :
    ∃ e e', readAll (readMessage z) n (cs.flatMap (·.bytes)) = (msgs, e)
      ∧ readAll (readFrom z) n (.new, cs) = (msgs, e')
      ∧ (e.Right rest ∧ e'.Right rest
        ↔ rest = [] ∨ minHeaderSize ≤ rest.length) := by
  have hnext : ∀ msg ∈ msgs, ∀ s more, s = msg.raw ++ more →
      ∃ s', readMessage z s = .ok (some msg, s') ∧ s' = more := by
    intro msg hmsg s more hs
    rw [hs]
    exact ⟨more,
      readMessage_message (hmsgs msg hmsg).1 (hmsgs msg hmsg).2 more, rfl⟩
  have hnext' : ∀ msg ∈ msgs, ∀ x more, Awaits x (msg.raw ++ more) →
      ∃ x', readFrom z x = .ok (some msg, x') ∧ Awaits x' more :=
    fun msg hmsg x more hx =>
      readFrom_message (hmsgs msg hmsg).1 (hmsgs msg hmsg).2 hx
  have hawaits := awaits_new hchunks
  rw [hstream] at hawaits
  obtain ⟨e, he, hplain⟩ := readAll_messages (fun s t => s = t)
    (fun e => e.Right rest ↔ rest = [] ∨ fixedHeaderSize ≤ rest.length)
    hnext (fun s hs => hs ▸ readMessage_end z hrest) hstream hn
  obtain ⟨e', he', hfrom⟩ := readAll_messages Awaits
    (fun e => e.Right rest ↔ rest = [] ∨ minHeaderSize ≤ rest.length)
    hnext' (fun x hx => readFrom_end z hx hrest) hawaits hn
  refine ⟨e, e', hplain, hfrom, ?_⟩
  rw [he, he']
  constructor
  · exact And.right
  · rintro (hnil | hlen)
    · exact ⟨Or.inl hnil, Or.inl hnil⟩
    · have hfixed : fixedHeaderSize ≤ rest.length :=
        Nat.le_trans (by decide) hlen
      exact ⟨Or.inr hfixed, Or.inr hlen⟩

/-- A signal, and twenty bytes of the next, in chunks of another size. -/
theorem readers_agree_iff_cut :
    ∃ e e', readAll (readMessage .reference) 2
        ((fdSignal 1 0).raw ++ (fdSignal 2 0).raw.take 20)
        = ([fdSignal 1 0], e)
      ∧ readAll (readFrom .reference) 2 (.new,
          [⟨(fdSignal 1 0).raw.take 3, []⟩,
           ⟨(fdSignal 1 0).raw.drop 3 ++ (fdSignal 2 0).raw.take 20, []⟩])
        = ([fdSignal 1 0], e')
      ∧ (e.Right ((fdSignal 2 0).raw.take 20)
          ∧ e'.Right ((fdSignal 2 0).raw.take 20)
        ↔ (fdSignal 2 0).raw.take 20 = []
          ∨ minHeaderSize ≤ ((fdSignal 2 0).raw.take 20).length) :=
  readers_agree_iff
    (show ∀ c ∈ ([⟨(fdSignal 1 0).raw.take 3, []⟩,
        ⟨(fdSignal 1 0).raw.drop 3 ++ (fdSignal 2 0).raw.take 20, []⟩] :
          List Chunk),
      1 ≤ c.bytes.length ∧ c.bytes.length ≤ 64 * 1024 ∧ c.fds = [] by
        decide +kernel)
    (show ∀ msg ∈ [fdSignal 1 0], msg.Accepted .reference ∧ msg.fds = [] by
      decide +kernel)
    ((begins_none_iff (p := ⟨.little, .signal, 0, 2, 0, 56⟩)
      (by decide +kernel)).mpr (by decide +kernel))
    (by decide +kernel) (by decide +kernel)

end DbusRouter.Model
