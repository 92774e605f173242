/-
Descriptors stay with their message.

On the stream the descriptors of a message stand at its first byte,
whatever the kernel accepts of each `sendmsg` (`sent_carries`), so bytes and
descriptors that are received in their order are those of the next messages
in theirs. What can go wrong is the limit on the queue: it is there for one
message, but a receive that brings the end of one message may bring the
descriptors of the next (`queue_overrun`). Every message is read with its
own descriptors exactly when, in all such receives, the two do not exceed
the limit together (`descriptors_stay`).
-/
import DbusRouter.Proofs.Message
import DbusRouter.Proofs.Reader

namespace DbusRouter.Model

open Wire Lib

-- ================================================================ the stream

/-- The bytes of a message on the stream: its descriptors stand at the
first. -/
structure Carries (msg : Message) (s : List StreamByte) : Prop where
  bytes : s.map (·.byte) = msg.raw
  first : ∃ b rest, s = b :: rest ∧ b.fds = msg.fds ∧ ∀ x ∈ rest, x.fds = []

theorem flatMap_fds_eq_nil {s : List StreamByte} (h : ∀ x ∈ s, x.fds = []) :
    s.flatMap (·.fds) = [] := by
  rw [List.flatMap_eq_nil_iff]
  exact h

/-- Any beginning of the message has all its descriptors. -/
theorem Carries.fds_of_isPrefix {msg : Message} {s x : List StreamByte}
    (hs : Carries msg s) (hx : x <+: s) (hne : x ≠ []) :
    x.flatMap (·.fds) = msg.fds := by
  obtain ⟨b, rest, rfl, hb, hrest⟩ := hs.first
  cases x with
  | nil => exact absurd rfl hne
  | cons c x =>
      obtain ⟨rfl, htail⟩ := List.cons_prefix_cons.mp hx
      rw [List.flatMap_cons, hb,
        flatMap_fds_eq_nil fun y hy => hrest y (htail.subset hy),
        List.append_nil]

theorem Carries.ne_nil {msg : Message} {s : List StreamByte}
    (hs : Carries msg s) : s ≠ [] := by
  obtain ⟨b, rest, rfl, -⟩ := hs.first
  exact List.cons_ne_nil _ _

theorem Carries.fds {msg : Message} {s : List StreamByte}
    (hs : Carries msg s) : s.flatMap (·.fds) = msg.fds :=
  hs.fds_of_isPrefix (List.prefix_refl s) hs.ne_nil

theorem Carries.length_eq {msg : Message} {s : List StreamByte}
    (hs : Carries msg s) : s.length = msg.raw.length := by
  rw [← hs.bytes, List.length_map]

-- ========================================================= the next message

section next

variable {z : Zvariant} {msg : Message} {r : DbusReader}
  {held s more : List StreamByte} {ps : List (List StreamByte)}

/-- When as much of the stream is held as the message has, it begins with
the message. -/
theorem gather_message (hstream : held ++ ps.flatten = s ++ more) :
    ∃ extra, (gather s.length held ps).1 = s ++ extra
      ∧ extra ++ (gather s.length held ps).2.flatten = more := by
  have hle : s.length ≤ (gather s.length held ps).1.length := by
    apply le_gather
    rw [hstream, List.length_append]
    omega
  have hsame := gather_stream s.length held ps
  rw [hstream] at hsame
  rcases List.append_eq_append_iff.mp hsame with ⟨x, hx, hy⟩ | ⟨x, hx, hy⟩
  · have hnil : x = [] := by
      have hlen := congrArg List.length hx
      rw [List.length_append] at hlen
      exact List.eq_nil_of_length_eq_zero (by omega)
    subst hnil
    rw [List.append_nil] at hx
    exact ⟨[], by rw [List.append_nil]; exact hx.symm, hy⟩
  · exact ⟨x, hx, hy.symm⟩

/-- Reading gets past the first `fill` if the queue admits what it takes. -/
theorem first_fill (hacc : msg.Accepted z) (hs : Carries msg s)
    (hr : r.Has held) (hps : ∀ p ∈ ps, Receivable p)
    (hheld : held.length ≤ 64 * 1024)
    (hstream : held ++ ps.flatten = s ++ more)
    (hadm : Admits QueueAdmits minHeaderSize held ps) :
    ∃ (p : Prologue) (r₁ : DbusReader),
      msg.header = p.intoHeader (parseHeaderFields z
          ((msg.raw.drop minHeaderSize).take p.arrayLen) p.endian)
      ∧ msg.raw.length = p.totalLen
      ∧ r₁.Has (gather minHeaderSize held ps).1
      ∧ readMessageFrom z r (ps.map received)
        = (r₁.fill p.totalLen
            ((gather minHeaderSize held ps).2.map received)
          >>= readRest z p) := by
  obtain ⟨p, hp, hlen, hheader⟩ := hacc.framed
  have hlong : minHeaderSize ≤ s.length := by
    rw [hs.length_eq, hlen]
    unfold Prologue.totalLen Prologue.headerEnd
    omega
  have hn : minHeaderSize ≤ (held ++ ps.flatten).length := by
    rw [hstream, List.length_append]
    omega
  obtain ⟨r₁, hfill, hhas⟩ := hr.fill (fun p hp => (hps p hp).1) hadm hn
  have hle := le_gather hn
  have hmost : (gather minHeaderSize held ps).1.length
      ≤ minHeaderSize + 64 * 1024 :=
    gather_length_le (fun p hp => (hps p hp).2.1) (by omega)
  have h16 : minHeaderSize = 16 := rfl
  have hbegin : (gather minHeaderSize held ps).1.take minHeaderSize
      = s.take minHeaderSize := by
    have htake := congrArg (List.take minHeaderSize)
      (gather_stream minHeaderSize held ps)
    rw [hstream, List.take_append_of_le_length hle,
      List.take_append_of_le_length hlong] at htake
    exact htake
  refine ⟨p, r₁, hheader, hlen, hhas, ?_⟩
  rw [readMessageFrom_eq, hfill, Outcome.ok_bind]
  simp only [Bool.not_true, Bool.false_eq_true, if_false]
  rw [hhas.holds.head (by rw [List.length_map]; exact hle)
    (by rw [List.length_map]; omega),
    Outcome.ok_bind, ← List.map_take, hbegin, List.map_take, hs.bytes, hp,
    Outcome.ok_bind]

/-- A message is read only if the queue admits all its `fill`s take. -/
theorem admits_of_readMessageFrom (hacc : msg.Accepted z)
    (hs : Carries msg s) (hr : r.Has held) (hps : ∀ p ∈ ps, Receivable p)
    (hheld : held.length ≤ 64 * 1024)
    (hstream : held ++ ps.flatten = s ++ more)
    {x : Option Message × DbusReader × List Chunk}
    (h : readMessageFrom z r (ps.map received) = .ok x) :
    Admits QueueAdmits s.length held ps := by
  have hne : ∀ p ∈ ps, p ≠ [] := fun p hp => (hps p hp).1
  have hfirst : Admits QueueAdmits minHeaderSize held ps := by
    rw [readMessageFrom_eq] at h
    obtain ⟨y, hfill, -⟩ := Outcome.bind_eq_ok h
    exact hr.admits_of_fill hne hfill
  obtain ⟨p, r₁, -, hlen, hhas, heq⟩ :=
    first_fill hacc hs hr hps hheld hstream hfirst
  rw [heq] at h
  obtain ⟨y, hfill, -⟩ := Outcome.bind_eq_ok h
  have hrest := hhas.admits_of_fill
    (fun p hp => hne p (mem_of_mem_gather hp)) hfill
  rw [hs.length_eq, hlen]
  refine (admits_gather ?_ held ps).mpr ⟨hfirst, hrest⟩
  unfold Prologue.totalLen Prologue.headerEnd
  omega

/-- And then it is read, with its descriptors. -/
theorem readMessageFrom_next (hacc : msg.Accepted z) (hs : Carries msg s)
    (hr : r.Has held) (hps : ∀ p ∈ ps, Receivable p)
    (hheld : held.length ≤ 64 * 1024)
    (hstream : held ++ ps.flatten = s ++ more)
    (hadm : Admits QueueAdmits s.length held ps) :
    ∃ r' extra, (gather s.length held ps).1 = s ++ extra
      ∧ extra ++ (gather s.length held ps).2.flatten = more
      ∧ extra.length ≤ 64 * 1024
      ∧ readMessageFrom z r (ps.map received)
        = .ok (some msg, r', (gather s.length held ps).2.map received)
      ∧ r'.Has extra := by
  obtain ⟨f, hf⟩ := hacc.eq_message
  have hsmall : s.length ≤ 2 ^ 27 + 23 := by
    rw [hs.length_eq, hf]
    exact f.bytes_length_le
  have hlong : minHeaderSize ≤ s.length := by
    obtain ⟨p, -, hlen, -⟩ := hacc.framed
    rw [hs.length_eq, hlen]
    unfold Prologue.totalLen Prologue.headerEnd
    omega
  obtain ⟨hfirst, hrest⟩ := (admits_gather hlong held ps).mp hadm
  obtain ⟨p, r₁, hheader, hlen, hhas, heq⟩ :=
    first_fill hacc hs hr hps hheld hstream hfirst
  have htotal : p.totalLen = s.length := by
    rw [hs.length_eq, hlen]
  have hn : s.length ≤ ((gather minHeaderSize held ps).1
      ++ (gather minHeaderSize held ps).2.flatten).length := by
    rw [gather_stream, hstream, List.length_append]
    omega
  obtain ⟨r₂, hfill, hhas₂⟩ := hhas.fill
    (fun p hp => (hps p (mem_of_mem_gather hp)).1) hrest hn
  rw [gather_gather hlong] at hfill hhas₂
  have hmost : (gather s.length held ps).1.length
      ≤ s.length + 64 * 1024 :=
    gather_length_le (fun p hp => (hps p hp).2.1) (by omega)
  obtain ⟨extra, hextra, hmore⟩ := gather_message hstream
  have hbytes : ((gather s.length held ps).1.map (·.byte))
      = msg.raw ++ extra.map (·.byte) := by
    rw [hextra, List.map_append, hs.bytes]
  have hextra_le : extra.length ≤ 64 * 1024 := by
    rw [hextra, List.length_append] at hmost
    omega
  have hholds := hhas₂.holds
  rw [hbytes] at hholds
  have hlt : (msg.raw ++ extra.map (·.byte)).length < 2 ^ 32 := by
    rw [List.length_append, List.length_map, ← hs.length_eq]
    omega
  have hraw : r₂.head p.totalLen = .ok msg.raw := by
    rw [hholds.head (by rw [List.length_append]; omega) hlt, ← hlen,
      List.take_left]
  obtain ⟨r₃, hconsume, hholds₃, hfdq⟩ := hholds.consume
    (n := p.totalLen) (by rw [List.length_append]; omega) hlt
  rw [← hlen, List.drop_left] at hholds₃
  have hqueue : r₃.fdq = msg.fds ++ extra.flatMap (·.fds) := by
    rw [hfdq, hhas₂.fdq_eq, hextra, List.flatMap_append, hs.fds]
  refine ⟨{ r₃ with fdq := extra.flatMap (·.fds) }, extra, hextra, hmore,
    hextra_le, ?_, ⟨⟨hholds₃.start_le, hholds₃.buf_eq⟩, rfl⟩⟩
  have hend : p.headerEnd ≤ msg.raw.length := by
    rw [hlen]
    unfold Prologue.totalLen
    omega
  have hslice : (slice msg.raw minHeaderSize p.headerEnd : Result _)
      = .ok ((msg.raw.drop minHeaderSize).take p.arrayLen) := by
    have hle : minHeaderSize ≤ p.headerEnd := Nat.le_add_right ..
    rw [slice_ok hle hend, Prologue.headerEnd, Nat.add_sub_cancel_left]
  have hfds : msg.fds.length = (parseHeaderFields z
      ((msg.raw.drop minHeaderSize).take p.arrayLen)
      p.endian).unixFds.getD 0 := by
    have h := hacc.fds_eq
    rw [hheader] at h
    exact h
  rw [heq, htotal, hfill, Outcome.ok_bind]
  simp only [readRest, Bool.not_true, Bool.false_eq_true, if_false]
  rw [hraw, Outcome.ok_bind, hconsume, Outcome.ok_bind, hslice,
    Outcome.ok_bind, takeDeclaredFds_ok hqueue hfds hacc.fds_le,
    Outcome.ok_bind, ← hheader]

end next

-- ================================================================== the writer

theorem stream_cons (b : UInt8) (bytes : Bytes) (fds : List Fd)
    (rest : List Segment) :
    ((⟨b :: bytes, fds⟩ : Segment) :: rest).flatMap Segment.stream
      = ⟨b, some fds⟩
        :: (bytes.map (⟨·, none⟩) ++ rest.flatMap Segment.stream) := rfl

/-- What is flushed without descriptors is the data. -/
theorem flush_rest {accepts : List Nat} {data : Bytes}
    {segments : List Segment} (h : flush accepts data [] = .ok segments) :
    (segments.flatMap Segment.stream).map (·.byte) = data
      ∧ ∀ x ∈ segments.flatMap Segment.stream, x.fds = [] := by
  induction accepts generalizing data segments with
  | nil =>
      cases data with
      | nil =>
          cases h
          exact ⟨rfl, by simp⟩
      | cons b data => cases h
  | cons n accepts ih =>
      cases data with
      | nil =>
          cases h
          exact ⟨rfl, by simp⟩
      | cons b data =>
          cases n with
          | zero => cases h
          | succ n =>
              unfold flush at h
              obtain ⟨rest, hrest, h⟩ := Outcome.bind_eq_ok h
              cases h
              obtain ⟨hbytes, hfds⟩ := ih hrest
              rw [List.drop_succ_cons] at hbytes
              rw [List.take_succ_cons, stream_cons]
              constructor
              · simp [hbytes, Function.comp_def]
              · intro x hx
                rw [List.mem_cons, List.mem_append, List.mem_map] at hx
                rcases hx with rfl | ⟨c, -, rfl⟩ | hx
                · rfl
                · rfl
                · exact hfds x hx

/-- A message is put on the stream with its descriptors at its first
byte. -/
theorem send_carries {z : Zvariant} {msg : Message} {accepts : List Nat}
    {segments : List Segment} (hacc : msg.Accepted z)
    (h : DbusWriter.send accepts msg.raw msg.fds = .ok segments) :
    Carries msg (segments.flatMap Segment.stream) := by
  unfold DbusWriter.send at h
  rw [if_neg (Nat.not_lt.mpr hacc.fds_le)] at h
  cases hraw : msg.raw with
  | nil =>
      obtain ⟨p, -, hlen, -⟩ := hacc.framed
      rw [hraw] at hlen
      unfold Prologue.totalLen Prologue.headerEnd minHeaderSize at hlen
      rw [List.length_nil] at hlen
      omega
  | cons b data =>
      rw [hraw] at h
      cases accepts with
      | nil => cases h
      | cons n accepts =>
          cases n with
          | zero => cases h
          | succ n =>
              unfold flush at h
              obtain ⟨rest, hrest, h⟩ := Outcome.bind_eq_ok h
              cases h
              obtain ⟨hbytes, hfds⟩ := flush_rest hrest
              rw [List.drop_succ_cons] at hbytes
              rw [List.take_succ_cons, stream_cons]
              refine ⟨?_, ⟨b, some msg.fds⟩, _, rfl, rfl, ?_⟩
              · rw [hraw]
                simp [hbytes, Function.comp_def]
              · intro x hx
                rw [List.mem_append, List.mem_map] at hx
                rcases hx with ⟨c, -, rfl⟩ | hx
                · rfl
                · exact hfds x hx

/-- What was sent of several messages carries all of them. -/
theorem sent_carries {z : Zvariant} {msgs : List Message}
    {segments : List Segment} (hsent : Sent msgs segments)
    (hacc : ∀ msg ∈ msgs, msg.Accepted z) :
    ∃ ss, List.Forall₂ Carries msgs ss
      ∧ segments.flatMap Segment.stream = ss.flatten := by
  induction hsent with
  | nil => exact ⟨[], .nil, rfl⟩
  | @cons msg msgs accepts part rest hsend _ ih =>
      obtain ⟨ss, hss, hflat⟩ :=
        ih fun m hm => hacc m (List.mem_cons_of_mem _ hm)
      have hmsg := send_carries (hacc msg (List.mem_cons_self ..)) hsend
      refine ⟨_ :: ss, .cons hmsg hss, ?_⟩
      rw [List.flatMap_append, hflat]
      rfl

-- =============================================================== the limit

/-- Behind `k` bytes of the messages' stream: a chunk that arrives when a
message has been received in part brings no more descriptors than the
message leaves room for. -/
def QueueFits (k : Nat) (msgs : List Message) (cs : List Chunk) : Prop :=
  ∀ before c after before' msg after',
    cs = before ++ c :: after → msgs = before' ++ msg :: after' →
    (before'.flatMap (·.raw)).length
      < k + (before.flatMap (·.bytes)).length →
    k + (before.flatMap (·.bytes)).length
      < (before'.flatMap (·.raw)).length + msg.raw.length →
    msg.fds.length + c.fds.length ≤ maxFdsPerMessage

theorem flatMap_received_bytes (ps : List (List StreamByte)) :
    ((ps.map received).flatMap (·.bytes)).length = ps.flatten.length := by
  induction ps with
  | nil => rfl
  | cons p ps ih =>
      rw [List.map_cons, List.flatMap_cons, List.length_append, ih,
        List.flatten_cons, List.length_append]
      simp [received]

/-- The same about the pieces. -/
theorem queueFits_received {k : Nat} {msgs : List Message}
    {ps : List (List StreamByte)} :
    QueueFits k msgs (ps.map received) ↔ ∀ u p v before msg after,
      ps = u ++ p :: v → msgs = before ++ msg :: after →
      (before.flatMap (·.raw)).length < k + u.flatten.length →
      k + u.flatten.length
        < (before.flatMap (·.raw)).length + msg.raw.length →
      msg.fds.length + (p.flatMap (·.fds)).length ≤ maxFdsPerMessage := by
  constructor
  · rintro h u p v before msg after rfl hmsgs hlt hlt'
    rw [← flatMap_received_bytes] at hlt hlt'
    exact h _ (received p) _ before msg after (List.map_append ..) hmsgs hlt
      hlt'
  · intro h before c after before' msg after' hcs hmsgs hlt hlt'
    obtain ⟨u, x, rfl, rfl, hx⟩ := List.map_eq_append_iff.mp hcs
    obtain ⟨p, v, rfl, rfl, rfl⟩ := List.map_eq_cons_iff.mp hx
    rw [flatMap_received_bytes] at hlt hlt'
    exact h u p v before' msg after' rfl hmsgs hlt hlt'

/-- One receive brings the descriptors of one `sendmsg` at most. -/
theorem fds_le_of_receivable {p : List StreamByte}
    (hone : p.Pairwise fun b later => b.fds ≠ [] → later.attached = none)
    (hle : ∀ b ∈ p, b.fds.length ≤ maxFdsPerMessage) :
    (p.flatMap (·.fds)).length ≤ maxFdsPerMessage := by
  induction p with
  | nil => exact Nat.zero_le _
  | cons b p ih =>
      obtain ⟨hfirst, hrest⟩ := List.pairwise_cons.mp hone
      rw [List.flatMap_cons]
      by_cases hb : b.fds = []
      · rw [hb, List.nil_append]
        exact ih hrest fun c hc => hle c (List.mem_cons_of_mem _ hc)
      · have hnone : ∀ x ∈ p, x.fds = [] := by
          intro x hx
          unfold StreamByte.fds
          rw [hfirst x hx hb]
          rfl
        rw [flatMap_fds_eq_nil hnone, List.append_nil]
        exact hle b (List.mem_cons_self ..)

/-- The condition for the first message and the condition for those behind
it. -/
theorem queueFits_cons {msg : Message} {msgs : List Message}
    {held s more extra : List StreamByte} {ps : List (List StreamByte)}
    (hs : Carries msg s)
    (hlimit : ∀ p ∈ ps, (p.flatMap (·.fds)).length ≤ maxFdsPerMessage)
    (hstream : held ++ ps.flatten = s ++ more)
    (hextra : (gather s.length held ps).1 = s ++ extra) :
    QueueFits held.length (msg :: msgs) (ps.map received)
      ↔ Admits QueueAdmits s.length held ps
        ∧ QueueFits extra.length msgs
            ((gather s.length held ps).2.map received) := by
  have hlen := hs.length_eq
  -- what is held in the middle of the first message
  have hpart : ∀ u p v, ps = u ++ p :: v →
      (held ++ u.flatten).length < s.length → held ++ u.flatten ≠ [] →
      ((held ++ u.flatten).flatMap (·.fds)).length = msg.fds.length := by
    rintro u p v rfl hlt hne
    have hprefix : held ++ u.flatten <+: s := by
      refine List.prefix_of_prefix_length_le ?_ (List.prefix_append s more)
        (Nat.le_of_lt hlt)
      rw [← hstream, List.flatten_append, ← List.append_assoc]
      exact List.prefix_append ..
    rw [hs.fds_of_isPrefix hprefix hne]
  rw [queueFits_received, queueFits_received, admits_iff]
  constructor
  · intro h
    refine ⟨fun u p v hps hlt => ?_, ?_⟩
    · unfold QueueAdmits
      by_cases hne : held ++ u.flatten = []
      · rw [hne, List.flatMap_nil, List.length_nil, Nat.zero_add]
        exact hlimit p (by rw [hps]; simp)
      · rw [hpart u p v hps hlt hne]
        have hpos : 0 < (held ++ u.flatten).length :=
          List.length_pos_iff.mpr hne
        rw [List.length_append] at hlt hpos
        exact h u p v [] msg msgs hps rfl hpos (by simpa [← hlen] using hlt)
    · intro w p v before msg' after hps hmsgs hlt hlt'
      obtain ⟨u, hu, hflat⟩ := left_of_gather hps
      have hlens := congrArg List.length hflat
      rw [hextra] at hlens
      simp only [List.length_append] at hlens
      refine h u p v (msg :: before) msg' after hu (by rw [hmsgs]; rfl) ?_ ?_
      · rw [List.flatMap_cons, List.length_append]
        omega
      · rw [List.flatMap_cons, List.length_append]
        omega
  · rintro ⟨hadm, hrest⟩ u p v before msg' after hps hmsgs hlt hlt'
    cases before with
    | nil =>
        cases hmsgs
        simp only [List.flatMap_nil, List.length_nil] at hlt hlt'
        have hbefore : (held ++ u.flatten).length < s.length := by
          rw [List.length_append]
          omega
        have hne : held ++ u.flatten ≠ [] := by
          rw [← List.length_pos_iff, List.length_append]
          exact hlt
        have hfits := hadm u p v hps hbefore
        unfold QueueAdmits at hfits
        rw [hpart u p v hps hbefore hne] at hfits
        exact hfits
    | cons first before =>
        cases hmsgs
        rw [List.flatMap_cons, List.length_append] at hlt hlt'
        have hbehind : s.length ≤ (held ++ u.flatten).length := by
          rw [List.length_append]
          omega
        obtain ⟨w, hw, hflat⟩ := exists_left hps hbehind
        have hlens := congrArg List.length hflat
        rw [hextra] at hlens
        simp only [List.length_append] at hlens
        exact hrest w p v before msg' after hw rfl (by omega) (by omega)

-- ============================================================= all messages

/-- No byte of the stream has more descriptors than a message. -/
theorem fds_le_of_carries {z : Zvariant} {msgs : List Message}
    {ss : List (List StreamByte)} (hss : List.Forall₂ Carries msgs ss)
    (hacc : ∀ msg ∈ msgs, msg.Accepted z) :
    ∀ b ∈ ss.flatten, b.fds.length ≤ maxFdsPerMessage := by
  induction hss with
  | nil => simp
  | @cons msg s msgs ss hs _ ih =>
      intro b hb
      rw [List.flatten_cons, List.mem_append] at hb
      rcases hb with hb | hb
      · obtain ⟨first, rest, rfl, hfirst, hrest⟩ := hs.first
        rcases List.mem_cons.mp hb with rfl | hb
        · rw [hfirst]
          exact (hacc msg (List.mem_cons_self ..)).fds_le
        · rw [hrest b hb]
          exact Nat.zero_le _
      · exact ih (fun m hm => hacc m (List.mem_cons_of_mem _ hm)) b hb

theorem readMessages_succ (z : Zvariant) (n : Nat) (r : DbusReader)
    (cs : List Chunk) : readMessages z (n + 1) r cs = (do
      match ← readMessageFrom z r cs with
      | (none, r, cs) => .ok ([], r, cs)
      | (some msg, r, cs) => do
          let (msgs, r, cs) ← readMessages z n r cs
          .ok (msg :: msgs, r, cs)) := rfl

/-- At the end of the stream nothing is read. -/
theorem readMessages_end {z : Zvariant} {r : DbusReader} (hr : r.Has []) :
    readMessages z 1 r [] = .ok ([], r, []) := by
  have hfill : r.fill minHeaderSize [] = .ok (false, r, []) := by
    rw [fill_nil, hr.holds.avail]
    rfl
  rw [readMessages_succ, readMessageFrom_eq, hfill]
  rfl

/-- A reader that has received part of the stream reads the rest of it
exactly when the queue fits. -/
theorem readMessages_iff {z : Zvariant} {msgs : List Message}
    {ss : List (List StreamByte)} (hss : List.Forall₂ Carries msgs ss)
    (hacc : ∀ msg ∈ msgs, msg.Accepted z) {r : DbusReader}
    {held : List StreamByte} {ps : List (List StreamByte)}
    (hr : r.Has held) (hheld : held.length ≤ 64 * 1024)
    (hps : ∀ p ∈ ps, Receivable p)
    (hlimit : ∀ p ∈ ps, (p.flatMap (·.fds)).length ≤ maxFdsPerMessage)
    (hstream : held ++ ps.flatten = ss.flatten) :
    (∃ r', readMessages z (msgs.length + 1) r (ps.map received)
        = .ok (msgs, r', []))
      ↔ QueueFits held.length msgs (ps.map received) := by
  induction hss generalizing r held ps with
  | nil =>
      obtain ⟨rfl, hflat⟩ := List.append_eq_nil_iff.mp hstream
      have hnil : ps = [] := by
        cases ps with
        | nil => rfl
        | cons p ps =>
            have hp := (List.flatten_eq_nil_iff.mp hflat) p
              (List.mem_cons_self ..)
            exact absurd hp (hps p (List.mem_cons_self ..)).1
      subst hnil
      refine ⟨fun _ => ?_, fun _ => ⟨r, readMessages_end hr⟩⟩
      intro before c after _ _ _ hcs
      simp at hcs
  | @cons msg s msgs ss hs _ ih =>
      have hmsg := hacc msg (List.mem_cons_self ..)
      have hrest : ∀ m ∈ msgs, m.Accepted z :=
        fun m hm => hacc m (List.mem_cons_of_mem _ hm)
      rw [List.flatten_cons] at hstream
      obtain ⟨extra, hextra, -⟩ := gather_message hstream
      rw [queueFits_cons hs hlimit hstream hextra]
      have hnext : Admits QueueAdmits s.length held ps →
          ((∃ r', readMessages z ((msg :: msgs).length + 1) r
              (ps.map received) = .ok (msg :: msgs, r', []))
            ↔ QueueFits extra.length msgs
              ((gather s.length held ps).2.map received)) := by
        intro hadm
        obtain ⟨r₁, extra', hextra', hmore, hsmall, hread, hhas⟩ :=
          readMessageFrom_next hmsg hs hr hps hheld hstream hadm
        have hsame : extra' = extra :=
          List.append_cancel_left (hextra'.symm.trans hextra)
        subst hsame
        rw [← ih hrest hhas hsmall
          (fun p hp => hps p (mem_of_mem_gather hp))
          (fun p hp => hlimit p (mem_of_mem_gather hp)) hmore]
        rw [List.length_cons, readMessages_succ z (msgs.length + 1), hread,
          Outcome.ok_bind]
        constructor
        · rintro ⟨r', h⟩
          obtain ⟨⟨msgs', r₂, cs⟩, hmsgs, h⟩ := Outcome.bind_eq_ok h
          cases h
          exact ⟨r', hmsgs⟩
        · rintro ⟨r', h⟩
          refine ⟨r', ?_⟩
          simp only
          rw [h]
          rfl
      constructor
      · rintro ⟨r', h⟩
        have hadm : Admits QueueAdmits s.length held ps := by
          rw [readMessages_succ] at h
          obtain ⟨x, hx, -⟩ := Outcome.bind_eq_ok h
          exact admits_of_readMessageFrom hmsg hs hr hps hheld hstream hx
        exact ⟨hadm, (hnext hadm).mp ⟨r', h⟩⟩
      · rintro ⟨hadm, hfits⟩
        exact (hnext hadm).mpr hfits

/-- Messages that are sent are read, one after the other, each with its own
descriptors. -/
def DescriptorsStay : Prop :=
  ∀ (z : Zvariant) (msgs : List Message) (segments : List Segment)
    (cs : List Chunk), (∀ msg ∈ msgs, msg.Accepted z) → Sent msgs segments →
    Delivered segments cs →
    ∃ r, readMessages z (msgs.length + 1) .new cs = .ok (msgs, r, [])

/-- A signal with `n` descriptors. -/
def fdSignal (serial n : Nat) : Message :=
  .compose 4 serial
    [(1, .objectPath (utf8 "/")), (2, .str (utf8 "org.a")),
     (3, .str (utf8 "Open")), (9, .fixed .uint32 n)] [] (List.range n)

/-- Two signals, of which the kernel accepts the first in two parts. -/
def signalSegments (n m : Nat) : List Segment :=
  [⟨(fdSignal 1 n).raw.take 16, List.range n⟩,
   ⟨(fdSignal 1 n).raw.drop 16, []⟩, ⟨(fdSignal 2 m).raw, List.range m⟩]

/-- The first part is received alone, and the second with the second
signal. -/
def signalPieces (n m : Nat) : List (List StreamByte) :=
  [((signalSegments n m).take 1).flatMap Segment.stream,
   ((signalSegments n m).drop 1).flatMap Segment.stream]

theorem signals_sent {n m : Nat}
    (hfirst : DbusWriter.send [16, 500] (fdSignal 1 n).raw (fdSignal 1 n).fds
      = .ok ((signalSegments n m).take 2))
    (hsecond : DbusWriter.send [500] (fdSignal 2 m).raw (fdSignal 2 m).fds
      = .ok ((signalSegments n m).drop 2)) :
    Sent [fdSignal 1 n, fdSignal 2 m] (signalSegments n m) :=
  .cons hfirst (.cons hsecond .nil)

theorem signals_delivered {n m : Nat}
    (h : ∀ piece ∈ signalPieces n m, Receivable piece) :
    Delivered (signalSegments n m) ((signalPieces n m).map received) :=
  ⟨signalPieces n m, by simp [signalPieces, signalSegments], h, rfl⟩

/-- Forty descriptors in each are too many. -/
theorem queue_overrun : ¬DescriptorsStay := by
  intro h
  have hsent : Sent [fdSignal 1 40, fdSignal 2 40] (signalSegments 40 40) :=
    signals_sent (by decide +kernel) (by decide +kernel)
  obtain ⟨r, hr⟩ := h .reference [fdSignal 1 40, fdSignal 2 40]
    (signalSegments 40 40) ((signalPieces 40 40).map received)
    (by decide +kernel) hsent (signals_delivered (by decide +kernel))
  have herr : readMessages .reference 3 .new
      ((signalPieces 40 40).map received)
        = .err (.io (utf8 "received more fds than allowed")) := by
    decide +kernel
  have hboth := herr.symm.trans hr
  cases hboth

/-- Descriptors stay with their messages exactly when the queue fits. -/
theorem descriptors_stay {z : Zvariant} {msgs : List Message}
    {segments : List Segment} {cs : List Chunk}
    (hacc : ∀ msg ∈ msgs, msg.Accepted z) (hsent : Sent msgs segments)
    (hdelivered : Delivered segments cs) :
    (∃ r, readMessages z (msgs.length + 1) .new cs = .ok (msgs, r, []))
      ↔ QueueFits 0 msgs cs := by
  obtain ⟨ss, hss, hflat⟩ := sent_carries hsent hacc
  obtain ⟨ps, hps, hreceivable, rfl⟩ := hdelivered
  rw [hflat] at hps
  have hlimit : ∀ p ∈ ps,
      (p.flatMap (·.fds)).length ≤ maxFdsPerMessage := by
    intro p hp
    refine fds_le_of_receivable (hreceivable p hp).2.2 fun b hb => ?_
    apply fds_le_of_carries hss hacc
    rw [← hps]
    exact List.mem_flatten_of_mem hp hb
  exact readMessages_iff hss hacc DbusReader.Has.new (Nat.zero_le _)
    hreceivable hlimit hps

/-- Forty and twenty-four descriptors fit. -/
theorem descriptors_stay_two :
    QueueFits 0 [fdSignal 1 40, fdSignal 2 24]
      ((signalPieces 40 24).map received) :=
  (descriptors_stay (z := .reference) (by decide +kernel)
    (signals_sent (by decide +kernel) (by decide +kernel))
    (signals_delivered (by decide +kernel))).mp ⟨.new, by decide +kernel⟩

end DbusRouter.Model
