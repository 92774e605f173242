/-
Signals that the owner of a name has changed.

The body is three strings, the name and its two owners, and it is decoded,
changed and encoded anew at offset 0 behind a header that stays
(`ownerChange_step`). The two owners get the prefix of their bus. The name
does not, whatever it is, so a signal shows the client what it should
exactly when the name is no unique name (`owner_change_shown`). When a
connection appears or vanishes, the name is the connection's own unique
name, and the client is told of one that it does not know
(`vanished_peer_unknown`).
-/
import DbusRouter.Proofs.Replaced

namespace DbusRouter.Model

open Wire Lib

-- ================================================================= the strings

/-- The body of a message is three strings. -/
def HoldsTriple (e : Endian) (raw : Bytes) (t : Text × Text × Text) : Prop :=
  ∃ start, HasBody e raw start (marshal e start (tripleValue t)) ∧ AreStrs t

/-- A name and its owners as the client is to see them. -/
def shownTriple (b : Bus) (t : Text × Text × Text) : Text × Text × Text :=
  (prefixUnique b t.1, prefixUnique b t.2.1, prefixUnique b t.2.2)

/-- What is written instead. -/
def ownersPrefixed (b : Bus) (t : Text × Text × Text) : Text × Text × Text :=
  (t.1, prefixUnique b t.2.1, prefixUnique b t.2.2)

/-- The code translates all three names but for the first. -/
theorem shownTriple_eq_iff (b : Bus) (t : Text × Text × Text) :
    ownersPrefixed b t = shownTriple b t ↔ isUniqueName t.1 = false := by
  unfold ownersPrefixed shownTriple
  rw [Prod.mk.injEq, and_iff_left rfl]
  cases h : isUniqueName t.1 with
  | true =>
      rw [prefixUnique_of_unique h]
      constructor
      · exact fun heq => absurd heq.symm (toFakeName_ne h b)
      · exact fun hfalse => by cases hfalse
  | false =>
      rw [prefixUnique_of_not_unique h]
      simp

/-- A string takes its own length and five to eight bytes. -/
theorem marshal_str_length (e : Endian) (p : Nat) (s : Text) :
    s.length + 5 ≤ (marshal e p (.str s)).length
      ∧ (marshal e p (.str s)).length ≤ s.length + 8 := by
  have hup := le_alignUp isAlign_four p
  have hlt : alignUp 4 p < p + 4 := by
    unfold alignUp
    omega
  rw [marshal, List.length_append, pad_length, strBytes_length]
  omega

/-- Three strings take little more than their letters. -/
theorem marshal_triple_length (e : Endian) (p : Nat)
    (t : Text × Text × Text) :
    t.1.length + t.2.1.length + t.2.2.length + 15
        ≤ (marshal e p (tripleValue t)).length
      ∧ (marshal e p (tripleValue t)).length
        ≤ t.1.length + t.2.1.length + t.2.2.length + 32 := by
  have hlt : alignUp 8 p < p + 8 := by
    unfold alignUp
    omega
  have ha := marshal_str_length e (alignUp 8 p) t.1
  have hb := marshal_str_length e
    (alignUp 8 p + (marshal e (alignUp 8 p) (.str t.1)).length) t.2.1
  have hc := marshal_str_length e (alignUp 8 p
    + (marshal e (alignUp 8 p) (.str t.1)).length
    + (marshal e (alignUp 8 p + (marshal e (alignUp 8 p) (.str t.1)).length)
      (.str t.2.1)).length) t.2.2
  unfold tripleValue
  rw [marshal]
  simp only [marshalAll, List.length_append, List.length_nil, pad_length]
  omega

/-- A prefix makes no string invalid that has room for it. -/
theorem isStr_prefixUnique {s : Text} (h : IsStr s) (b : Bus)
    (hlen : s.length < 2 ^ 28) : IsStr (prefixUnique b s) := by
  unfold prefixUnique
  split
  · exact isStr_toFakeName h b hlen
  · exact h

/-- A prefix adds two bytes at most. -/
theorem prefixUnique_length (s : Text) (b : Bus) :
    (prefixUnique b s).length ≤ s.length + 2 := by
  unfold prefixUnique
  split
  · exact toFakeName_length s b
  · omega

section holds

variable {z : Zvariant} {msg : Message} {e : Endian} {raw : Bytes}
  {t : Text × Text × Text}

/-- A body holds one triple of names. -/
theorem HoldsTriple.unique {t' : Text × Text × Text}
    (ht : z.TriplesFollowSpec) (h : HoldsTriple e raw t)
    (h' : HoldsTriple e raw t') : t = t' := by
  obtain ⟨start, hbody, hstr⟩ := h
  obtain ⟨start', hbody', hstr'⟩ := h'
  obtain ⟨rfl, hsame⟩ := hbody.unique hbody'
  have hread := ht.triple_eq e start t hstr
  rw [hsame, ht.triple_eq e start t' hstr'] at hread
  exact (Option.some.inj hread).symm

/-- The strings of an accepted message are short. -/
theorem HoldsTriple.length_le (hacc : msg.Accepted z)
    (h : HoldsTriple msg.header.endian msg.raw t) :
    t.1.length + t.2.1.length + t.2.2.length + 15 ≤ 2 ^ 26 := by
  obtain ⟨start, hbody, -⟩ := h
  obtain ⟨start', hbody'⟩ := hacc.hasBody
  have hlen := hacc.body_length
  rw [← (hbody.unique hbody').2] at hlen
  exact (marshal_triple_length _ _ t).1.trans hlen

/-- The prefixed names are strings the format allows. -/
theorem ownersPrefixed_areStrs (hacc : msg.Accepted z)
    (h : HoldsTriple msg.header.endian msg.raw t) (b : Bus) :
    AreStrs (ownersPrefixed b t) := by
  have hlen := h.length_le hacc
  obtain ⟨-, -, hname, hold, hnew⟩ := h
  exact ⟨hname, isStr_prefixUnique hold b (by omega),
    isStr_prefixUnique hnew b (by omega)⟩

/-- The prefixed names fit into a body. -/
theorem ownersPrefixed_length (hacc : msg.Accepted z)
    (h : HoldsTriple msg.header.endian msg.raw t) (b : Bus) (p : Nat) :
    (marshal e p (tripleValue (ownersPrefixed b t))).length < 2 ^ 32 := by
  have hlen := h.length_le hacc
  have hold := prefixUnique_length t.2.1 b
  have hnew := prefixUnique_length t.2.2 b
  have hmarshal := (marshal_triple_length e p (ownersPrefixed b t)).2
  unfold ownersPrefixed at hmarshal ⊢
  simp only at hmarshal ⊢
  omega

/-- The body of a message encoded at 0 is the one encoded where it is. -/
theorem holdsTriple_rebuilt (hacc : msg.Accepted z)
    {t' : Text × Text × Text} (hstr : AreStrs t')
    (h : rebuildMessageWithBody msg.raw msg.header.endian
      (marshal msg.header.endian 0 (tripleValue t')) = .ok raw) :
    HoldsTriple msg.header.endian raw t' := by
  obtain ⟨start, hbody⟩ := hacc.hasBody
  obtain ⟨c, rfl⟩ := hacc.bodyStart_dvd hbody.start_eq
  have hshift := marshal_shift msg.header.endian c (tripleValue t') 0
  rw [Nat.zero_add] at hshift
  rw [rebuildMessageWithBody_eq hbody] at h
  cases h
  refine ⟨8 * c, ?_, hstr⟩
  rw [hshift]
  exact hasBody_rebuilt hacc hbody _

end holds

-- ================================================================== the signal

/-- A bus daemon's signal that the owner of a name has changed. -/
structure Message.OwnerChange (msg : Message) (t : Text × Text × Text) :
    Prop where
  signal : msg.header.msgType = .signal
  sender : msg.header.sender = some busName
  interface : msg.header.interface = some busName
  member : msg.header.member = some (utf8 "NameOwnerChanged")
  replySerial : msg.header.replySerial = none
  body : HoldsTriple msg.header.endian msg.raw t

section signal

variable {L : Libs} {s : Session} {msg : Message} {b : Bus}
  {t : Text × Text × Text}

/-- The rewriter writes the prefixed triple. -/
theorem rewriteNameOwnerChanged_eq {z : Zvariant} {m : Message}
    (ht : z.TriplesFollowSpec) (hacc : m.Accepted z)
    (h : HoldsTriple m.header.endian m.raw t) :
    rewriteNameOwnerChanged z m b
      = rebuildMessageWithBody m.raw m.header.endian
          (marshal m.header.endian 0 (tripleValue (ownersPrefixed b t))) := by
  have hnew := ownersPrefixed_areStrs hacc h b
  obtain ⟨start, hbody, hstr⟩ := h
  have hlen := hbody.length
  have hpos := (marshal_triple_length m.header.endian start t).1
  unfold rewriteNameOwnerChanged Message.bodyStart
  rw [hbody.start_eq, Outcome.ok_bind, if_neg (by omega),
    sliceFrom_ok (by omega), Outcome.ok_bind, hbody.drop,
    ht.triple_eq _ _ t hstr]
  have hencode := ht.encodeTriple_eq m.header.endian 0 _ hnew
  unfold ownersPrefixed at hencode ⊢
  simp only [hencode]
  rfl

/-- The signal is written to the client once, with its owners prefixed. -/
theorem ownerChange_step (ht : L.zvariant.TriplesFollowSpec)
    (hacc : msg.Accepted L.zvariant) (h : msg.OwnerChange t) :
    ∃ raw, s.Step L (.bus b msg) [⟨.client, raw, msg.fds⟩] s
      ∧ rebuildMessageWithBody msg.raw msg.header.endian
          (marshal msg.header.endian 0 (tripleValue (ownersPrefixed b t)))
        = .ok raw := by
  obtain ⟨start, hbody⟩ := hacc.hasBody
  have hrebuild := rebuildMessageWithBody_eq hbody
    (marshal msg.header.endian 0 (tripleValue (ownersPrefixed b t)))
  have hsender : ∀ v, msg.header.sender = some v →
      isUniqueName v = false := by
    intro v hv
    rw [h.sender] at hv
    cases hv
    decide
  have hneeds : signalNeedsRewrite (utf8 "NameOwnerChanged") = true := by
    decide
  have hcall : s.isIncomingServiceCall msg b = false := by
    unfold Session.isIncomingServiceCall
    rw [h.signal]
    rfl
  have hsignal : rewriteBodyForClient L.zvariant msg b s.pendingCalls
      = .ok (rebuilt msg.header.endian msg.raw start
        (marshal msg.header.endian 0
          (tripleValue (ownersPrefixed b t)))) := by
    unfold rewriteBodyForClient rewriteSignalBody
    simp only [h.signal, h.member, hneeds, Bool.not_true,
      Bool.false_eq_true, if_false]
    rw [rewriteNameOwnerChanged_eq ht hacc h.body, hrebuild,
      Outcome.orElse_ok]
  refine ⟨_, ⟨hacc, ?_⟩, hrebuild⟩
  show s.handleUpstreamMessage L msg b = _
  unfold Session.handleUpstreamMessage
  simp only [hcall, Bool.false_eq_true, if_false, processMergeResponse,
    h.replySerial, Outcome.ok_bind, prepareMessageForClient,
    rewriteMessageHeader_toClient_of_not_unique hsender, Outcome.orElse_ok,
    hsignal, send_ok hacc.fds_le]

/-- The client is shown the owners of the name, and the name, as it knows
them: the body decodes to the three strings with each unique name prefixed,
nothing else of the message differs, and both lengths are right. -/
def Session.ShowsOwners (L : Libs) (s : Session) (msg : Message) (b : Bus)
    (t : Text × Text × Text) : Prop :=
  ∃ raw s' start p, s.Step L (.bus b msg) [⟨.client, raw, msg.fds⟩] s'
    ∧ HoldsTriple msg.header.endian raw (shownTriple b t)
    ∧ AroundBody msg.header.endian msg.raw raw (raw.drop start) start
    ∧ Prologue.parse (msg.raw.take minHeaderSize) = .ok p
    ∧ { p with bodyLen := (raw.drop start).length }.totalLen = raw.length

/-- A change of a well-known name is shown as it should be. -/
theorem shows_wellKnown (ht : L.zvariant.TriplesFollowSpec)
    (hacc : msg.Accepted L.zvariant) (h : msg.OwnerChange t)
    (hname : isUniqueName t.1 = false) : s.ShowsOwners L msg b t := by
  obtain ⟨raw, hstep, hraw⟩ := ownerChange_step (s := s) (b := b) ht hacc h
  have hstr := ownersPrefixed_areStrs hacc h.body b
  have hlen := ownersPrefixed_length hacc h.body b 0
    (e := msg.header.endian)
  have hholds := holdsTriple_rebuilt hacc hstr hraw
  rw [(shownTriple_eq_iff b t).mpr hname] at hholds
  obtain ⟨raw', start, p, hraw', haround, hp, htotal, -⟩ :=
    rebuild_keeps_frame hacc hlen
  rw [hraw] at hraw'
  cases hraw'
  refine ⟨raw, s, start, p, hstep, hholds, ?_, hp, ?_⟩
  · rw [haround.body]
    exact haround
  · rw [haround.body]
    exact htotal

/-- A unique name in front is written as it is. -/
theorem not_shows_unique (ht : L.zvariant.TriplesFollowSpec)
    (hacc : msg.Accepted L.zvariant) (h : msg.OwnerChange t)
    (hname : isUniqueName t.1 = true) : ¬s.ShowsOwners L msg b t := by
  rintro ⟨raw', s', -, -, hstep', hholds', -⟩
  obtain ⟨raw, hstep, hraw⟩ := ownerChange_step (s := s) (b := b) ht hacc h
  have hsame := hstep'.2
  rw [hstep.2] at hsame
  cases hsame
  have hstr := ownersPrefixed_areStrs hacc h.body b
  have heq := (holdsTriple_rebuilt hacc hstr hraw).unique ht hholds'
  rw [shownTriple_eq_iff, hname] at heq
  cases heq

/-- A signal that the owner of a name has changed is shown to the client
consistently exactly when the name is no unique name. -/
theorem owner_change_shown (ht : L.zvariant.TriplesFollowSpec)
    (hacc : msg.Accepted L.zvariant) (h : msg.OwnerChange t) :
    s.ShowsOwners L msg b t ↔ isUniqueName t.1 = false := by
  constructor
  · intro hshows
    by_contra hname
    exact not_shows_unique ht hacc h (by simpa using hname) hshows
  · exact shows_wellKnown ht hacc h

end signal

-- ================================================================ one of each

/-- A bus daemon's signal with given strings. -/
def ownerSignal (t : Text × Text × Text) : Message :=
  .compose 4 9
    [(1, .objectPath (utf8 "/org/freedesktop/DBus")), (2, .str busName),
     (3, .str (utf8 "NameOwnerChanged")), (7, .str busName),
     (8, .signature [.str, .str, .str])]
    (marshal .little 0 (tripleValue t)) []

/-- The name `org.a` passes from one connection to another. -/
def passedOn : Text × Text × Text :=
  (utf8 "org.a", utf8 ":1.5", utf8 ":1.6")

/-- The connection `:1.5` vanishes. -/
def vanished : Text × Text × Text := (utf8 ":1.5", utf8 ":1.5", [])

/-- The name passes from one peer to another. -/
theorem ownerChange_passedOn : (ownerSignal passedOn).OwnerChange passedOn :=
  ⟨rfl, rfl, rfl, rfl, rfl, 160,
    ⟨by decide +kernel, by decide +kernel, by decide +kernel⟩,
    by decide +kernel⟩

/-- A peer leaves the bus with its unique name. -/
theorem ownerChange_vanished : (ownerSignal vanished).OwnerChange vanished :=
  ⟨rfl, rfl, rfl, rfl, rfl, 160,
    ⟨by decide +kernel, by decide +kernel, by decide +kernel⟩,
    by decide +kernel⟩

/-- The first is shown to the client with both names prefixed. -/
theorem owner_change_shown_passedOn :
    (Session.new sandboxOnly none).ShowsOwners referenceLibs
      (ownerSignal passedOn) .host passedOn :=
  (owner_change_shown Zvariant.reference_triplesFollowSpec
    (by decide +kernel) ownerChange_passedOn).mpr (by decide)

/-- A client that knows the connection as `:h.1.5` is told that `:1.5` has
vanished. -/
theorem vanished_peer_unknown :
    (ownerSignal vanished).Accepted .reference
    ∧ (ownerSignal vanished).OwnerChange vanished
    ∧ ¬(Session.new sandboxOnly none).ShowsOwners referenceLibs
      (ownerSignal vanished) .host vanished := by
  have hacc : (ownerSignal vanished).Accepted .reference := by
    decide +kernel
  exact ⟨hacc, ownerChange_vanished,
    not_shows_unique (L := referenceLibs)
      Zvariant.reference_triplesFollowSpec hacc ownerChange_vanished
      (by decide)⟩

end DbusRouter.Model
