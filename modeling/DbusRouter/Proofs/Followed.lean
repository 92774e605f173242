/-
A client that follows the owner of a name.

Each bus has a directory of its names, and the client is shown the two as one
(`shownDirectory`). It knows what it reads: the answer to its `GetNameOwner`,
and the notices of the bus daemons that an owner has changed. Both come from a
bus with that bus's names in them, and are delivered with the names the client
is shown (`news_delivered`). So from the answer on it knows the owner that the
directory it is shown has for the name, through all changes and whatever else
passes (`owner_followed`), as long as the bus that is not the name's home has
no news of the name.
-/
import DbusRouter.Lib.Directory
import DbusRouter.Proofs.Answers
import DbusRouter.Proofs.Letter
import DbusRouter.Proofs.Owner
import DbusRouter.Proofs.OwnerChanged

namespace DbusRouter.Model

open Wire Lib

-- ============================================================ the directories

/-- A bus's directory. -/
abbrev BusDirectory := Directory fun name => isUniqueName name = true

/-- Asking for a shown name asks for the real one. -/
theorem askedName_shown {u : Text} (b : Bus) (hu : isUniqueName u = true) :
    askedName (toFakeName u b) = u := by
  unfold askedName
  rw [fromFakeName_toFakeName hu b]
  rfl

/-- A well-known name is asked for as it is. -/
theorem askedName_wellKnown {name : Text} (h : isUniqueName name = false) :
    askedName name = name := by
  unfold askedName fromFakeName
  rw [not_fake_of_wellKnown h]
  rfl

/-- How a client is shown the names of both buses. -/
def showing (config : Config) :
    Showing (fun name => isUniqueName name = true) Bus where
  home := homeBus config
  real := askedName
  shown b u := toFakeName u b
  conn_shown b _ hu := isUniqueName_toFakeName hu b
  home_shown b _ hu := homeBus_of_fake (getBusFromFakeName_toFakeName hu b)
  real_shown b _ hu := askedName_shown b hu

/-- The directories of both buses, as a client is shown them. -/
def shownDirectory (config : Config) (buses : Bus → BusDirectory) :
    BusDirectory :=
  (showing config).directory buses

/-- The owner of a well-known name is looked up at its home and shown under
that bus. -/
theorem shownDirectory_wellKnown {config : Config}
    {buses : Bus → BusDirectory} {name : Text}
    (h : isUniqueName name = false) :
    (shownDirectory config buses).owner name
      = ((buses (homeBus config name)).owner name).map
          (toFakeName · (homeBus config name)) := by
  show ((buses (homeBus config name)).owner (askedName name)).map _ = _
  rw [askedName_wellKnown h]
  rfl

-- ==================================================================== reading

/-- A bus daemon's notice that an owner has changed. -/
def MessageHeader.isNotice (h : MessageHeader) : Bool :=
  h.msgType == .signal && h.sender == some busName
    && h.interface == some busName
    && h.member == some (utf8 "NameOwnerChanged") && h.replySerial == none

/-- The three strings of a body. -/
def tripleIn (z : Zvariant) (e : Endian) (raw : Bytes) :
    Option (Text × Text × Text) :=
  match bodyStartOf e raw with
  | .ok start => z.triple e start (raw.drop start)
  | _ => none

/-- An owner as notices have it: nobody is the empty string. -/
def noticedOwner (name : Text) : Option Text :=
  if name = [] then none else some name

/-- What a client that has asked for the owner of a name under the serial `n`
learns about it from the bytes of a message: the owner in the answer, or in a
notice about the name. -/
def newsIn (z : Zvariant) (n : Nat) (name : Text) (raw : Bytes) :
    Option (Option Text) :=
  match headerOf z raw with
  | .ok h =>
      if h.isReply = true ∧ h.replySerial = some n then
        some (if h.msgType = .methodReturn then
          stringIn h.endian (bodyOf h.endian raw) else none)
      else if h.isNotice = true then
        match tripleIn z h.endian raw with
        | some (x, _, new) =>
            if x = name then some (noticedOwner new) else none
        | none => none
      else none
  | _ => none

section reading

variable {z : Zvariant} {n : Nat} {name : Text} {raw : Bytes}
  {h : MessageHeader}

/-- The answer to the question tells the name in it. -/
theorem newsIn_answer (hh : headerOf z raw = .ok h)
    (hty : h.msgType = .methodReturn) (hn : h.replySerial = some n) :
    newsIn z n name raw = some (stringIn h.endian (bodyOf h.endian raw)) := by
  have hreply : h.isReply = true := by
    unfold MessageHeader.isReply
    rw [hty]
    rfl
  unfold newsIn
  simp only [hh]
  rw [if_pos ⟨hreply, hn⟩, if_pos hty]

/-- A refusal tells that nobody owns the name. -/
theorem newsIn_refusal (hh : headerOf z raw = .ok h)
    (hty : h.msgType = .error) (hn : h.replySerial = some n) :
    newsIn z n name raw = some none := by
  have hreply : h.isReply = true := by
    unfold MessageHeader.isReply
    rw [hty]
    rfl
  have hne : h.msgType ≠ .methodReturn := by
    rw [hty]
    decide
  unfold newsIn
  simp only [hh]
  rw [if_pos ⟨hreply, hn⟩, if_neg hne]

/-- A signal answers nothing. -/
theorem not_isReply_of_notice (hnotice : h.isNotice = true) :
    ¬(h.isReply = true ∧ h.replySerial = some n) := by
  intro hreply
  unfold MessageHeader.isNotice at hnotice
  rw [hreply.2] at hnotice
  simp at hnotice

/-- A signal about the name tells the new owner. -/
theorem newsIn_notice {t : Text × Text × Text}
    (ht : z.TriplesFollowSpec) (hh : headerOf z raw = .ok h)
    (hnotice : h.isNotice = true) (hholds : HoldsTriple h.endian raw t) :
    newsIn z n name raw
      = if t.1 = name then some (noticedOwner t.2.2) else none := by
  obtain ⟨start, hbody, hstr⟩ := hholds
  have htriple : tripleIn z h.endian raw = some t := by
    unfold tripleIn
    simp only [hbody.start_eq]
    rw [hbody.drop, ht.triple_eq _ _ t hstr]
  unfold newsIn
  simp only [hh]
  rw [if_neg (not_isReply_of_notice hnotice), if_pos hnotice, htriple]

/-- No other message is news of the name. -/
theorem newsIn_other
    (hh : ∀ h, headerOf z raw = .ok h →
      ¬(h.isReply = true ∧ h.replySerial = some n) ∧ h.isNotice = false) :
    newsIn z n name raw = none := by
  unfold newsIn
  split
  next h hraw =>
    obtain ⟨hreply, hnotice⟩ := hh h hraw
    rw [if_neg hreply, hnotice]
    rfl
  next => rfl

end reading

-- ================================================================== delivering

/-- Two headers that differ in nothing that is read of news. -/
structure MessageHeader.Alike (h h' : MessageHeader) : Prop where
  endian : h.endian = h'.endian
  msgType : h.msgType = h'.msgType
  replySerial : h.replySerial = h'.replySerial
  sender : h.sender = h'.sender
  interface : h.interface = h'.interface
  member : h.member = h'.member

/-- A header is like itself. -/
theorem MessageHeader.Alike.refl (h : MessageHeader) : h.Alike h :=
  ⟨rfl, rfl, rfl, rfl, rfl, rfl⟩

/-- Like headers are both notices or neither. -/
theorem MessageHeader.Alike.isNotice {h h' : MessageHeader}
    (ha : h.Alike h') : h.isNotice = h'.isNotice := by
  unfold MessageHeader.isNotice
  rw [ha.msgType, ha.sender, ha.interface, ha.member, ha.replySerial]

/-- Like headers are both answers or neither. -/
theorem MessageHeader.Alike.isReply {h h' : MessageHeader}
    (ha : h.Alike h') : h.isReply = h'.isReply := by
  unfold MessageHeader.isReply
  rw [ha.msgType]

section delivering

variable {z : Zvariant} {msg m : Message} {b : Bus} {n : Nat} {name : Text}
  {raw new : Bytes}

/-- Who reads a message with a new body reads the header of the message. -/
theorem headerOf_rebuilt {h : MessageHeader} (hacc : m.Accepted z)
    (hraw : rebuildMessageWithBody m.raw m.header.endian new = .ok raw)
    (hh : headerOf z raw = .ok h) : h.Alike m.header := by
  obtain ⟨f, hm⟩ := hacc.eq_message
  generalize m.fds = fds at hm
  subst hm
  have hrebuilt : rebuildMessageWithBody f.bytes f.endian new = .ok raw :=
    hraw
  rw [f.rebuild_layout] at hrebuilt
  cases hrebuilt
  have ha := f.array_le
  have harr := (layout_at_array f.endian f.array f.padding new
    (fixedHeader_length f.endian f.ty f.flags (new.length % 2 ^ 32)
      f.serial)).take_drop
  unfold headerOf at hh
  obtain ⟨p, hp, hh⟩ := Outcome.bind_eq_ok hh
  obtain ⟨he, hty, hlen, -⟩ := parse_layout_eq_ok (by omega) hp
  unfold minHeaderSize at hh
  rw [hlen, he, harr] at hh
  cases hh
  exact ⟨he, hty, rfl, rfl, rfl, rfl⟩

/-- A message with a new body of no great length is read. -/
theorem headerOf_rebuilt_short (hacc : m.Accepted z)
    (hraw : rebuildMessageWithBody m.raw m.header.endian new = .ok raw)
    (hnew : new.length ≤ 2 ^ 26) :
    ∃ h, headerOf z raw = .ok h ∧ h.Alike m.header := by
  obtain ⟨f, hm⟩ := hacc.eq_message
  have hrebuilt := hraw
  rw [hm] at hrebuilt
  have hrebuilt : rebuildMessageWithBody f.bytes f.endian new = .ok raw :=
    hrebuilt
  rw [f.rebuild_bytes hnew] at hrebuilt
  have hh := (f.withBody new hnew).headerOf_bytes z
  rw [Outcome.ok.inj hrebuilt] at hh
  exact ⟨_, hh, headerOf_rebuilt hacc hraw hh⟩

/-- A message is passed on under its own sender, or under the name a unique
one is shown under. -/
theorem toClient_shown (b : Bus) (hz : z.FollowsSpec)
    (hacc : msg.Accepted z) (hshow : msg.SenderShowable) :
    ∃ m x, rewriteMessageHeader msg .toClient b = .ok m ∧ m.Accepted z
      ∧ m.header = { msg.header with sender := x }
      ∧ (x = some busName → msg.header.sender = some busName) := by
  by_cases hu : ∀ u, msg.header.sender = some u → isUniqueName u = false
  · exact ⟨msg, msg.header.sender,
      rewriteMessageHeader_toClient_of_not_unique hu, hacc, rfl, id⟩
  · push Not at hu
    obtain ⟨u, hs, hu⟩ := hu
    have hu : isUniqueName u = true := by simpa using hu
    obtain ⟨hread, hroom⟩ := hshow u hs hu
    obtain ⟨m, hm, hrewritten, hheader⟩ :=
      toClient_rewritten b hz hacc hread hroom hs hu
    refine ⟨m, _, hm, hrewritten.accepted, hheader, ?_⟩
    intro hx
    exact absurd (Option.some.inj hx)
      (ne_busName (isUniqueName_toFakeName hu b))

/-- A notice that is delivered was one. -/
theorem isNotice_of_shown {x : Option Text} {h : MessageHeader}
    (hm : m.header = { msg.header with sender := x })
    (hx : x = some busName → msg.header.sender = some busName)
    (ha : h.Alike m.header) (hnotice : h.isNotice = true) :
    msg.header.isNotice = true := by
  rw [ha.isNotice, hm] at hnotice
  unfold MessageHeader.isNotice at hnotice ⊢
  simp only [Bool.and_eq_true, beq_iff_eq] at hnotice ⊢
  obtain ⟨⟨⟨⟨hty, hs⟩, hi⟩, hmember⟩, hn⟩ := hnotice
  exact ⟨⟨⟨⟨hty, hx hs⟩, hi⟩, hmember⟩, hn⟩

/-- What is put together from the two halves of a list answers the call for
the list. -/
theorem merged_replySerial {s : Session} {pending : PendingMerge}
    {names : List Text} {k : Nat} {h : MessageHeader} (hz : z.FollowsSpec)
    (hacc : msg.Accepted z) (hkept : s.MergesKept z)
    (hk : msg.header.replySerial = some k)
    (hp : s.pendingMerges k = some pending)
    (hbuild : (buildListNamesResponse z pending.originalRequest
      names).orElse msg.raw = .ok raw) (hh : headerOf z raw = .ok h) :
    h.replySerial = some k := by
  obtain ⟨hreq, hserial⟩ := hkept k pending hp
  rcases Outcome.orElse_eq_ok hbuild with hb | ⟨-, rfl⟩
  · obtain ⟨body, rfl⟩ := buildListNamesResponse_eq_ok hz hreq.serial_lt hb
    rw [headerOf_replyBytes hz hreq.serial_lt hh, hserial]
  · rw [hacc.headerOf_raw] at hh
    cases hh
    exact hk

/-- What is no news is delivered as none. -/
theorem no_news_delivered {L : Libs} {s s' : Session} {ws : List Write}
    {w : Write} (hz : L.zvariant.FollowsSpec)
    (hstep : s.Step L (.bus b msg) ws s')
    (hmerges : s.MergesKept L.zvariant) (hshow : msg.SenderShowable)
    (hfree : s.pendingMerges n = none)
    (hreply : ¬(msg.header.isReply = true
      ∧ msg.header.replySerial = some n))
    (hnotice : msg.header.isNotice = false) (hw : w ∈ ws) :
    newsIn L.zvariant n name w.raw = none := by
  have hacc : msg.Accepted L.zvariant := hstep.1
  obtain ⟨m, x, hm, hmacc, hheader, hx⟩ := toClient_shown b hz hacc hshow
  have hpassed : ∀ h : MessageHeader, h.Alike m.header →
      ¬(h.isReply = true ∧ h.replySerial = some n) ∧ h.isNotice = false := by
    intro h ha
    refine ⟨?_, ?_⟩
    · rw [ha.isReply, ha.replySerial, hheader]
      exact hreply
    · rw [Bool.eq_false_iff]
      intro htrue
      rw [isNotice_of_shown hheader hx ha htrue] at hnotice
      cases hnotice
  have hkept : ¬(msg.header.isReply = true
        ∧ msg.header.replySerial = some n)
      ∧ msg.header.isNotice = false := ⟨hreply, hnotice⟩
  apply newsIn_other
  intro h hh
  cases upstream_of_ok hstep.2 with
  | @serviceCall m' hcall hm' =>
      rw [List.mem_singleton.mp hw] at hh
      unfold serviceCallMessage at hm'
      split at hm'
      next =>
        rw [hm, Outcome.orElse_ok] at hm'
        cases hm'
        rw [hmacc.headerOf_raw] at hh
        cases hh
        exact hpassed _ (.refl _)
      next =>
        cases hm'
        rw [hacc.headerOf_raw] at hh
        cases hh
        exact hkept
  | firstHalf => cases hw
  | @secondHalf k pending names response _ hk hp _ hbuild =>
      rw [List.mem_singleton.mp hw] at hh
      have hserial := merged_replySerial hz hacc hmerges hk hp hbuild hh
      have hne : k ≠ n := by
        intro heq
        rw [heq, hfree] at hp
        cases hp
      refine ⟨?_, ?_⟩
      · intro hr
        rw [hserial] at hr
        exact hne (Option.some.inj hr.2)
      · unfold MessageHeader.isNotice
        rw [hserial]
        simp
  | @forwarded raw _ _ hraw =>
      rw [List.mem_singleton.mp hw] at hh
      obtain ⟨-, m', hm', hrewrite⟩ := prepare_eq_ok hraw
      rw [hm, Outcome.orElse_ok] at hm'
      cases hm'
      rcases rewriteBodyForClient_cases hrewrite with rfl | ⟨new, hnew⟩
      · rw [hmacc.headerOf_raw] at hh
        cases hh
        exact hpassed _ (.refl _)
      · exact hpassed h (headerOf_rebuilt hmacc hnew hh)

end delivering

-- ================================================================== the buses

/-- A message of a bus whose directory is `D`, and `D'` behind it. The call
`n` for the owner of `name` is answered as the directory has it, and each
change is announced. -/
inductive Tells (n : Nat) (name : Text) (D D' : BusDirectory)
    (msg : Message) : Prop
  /-- the owner -/
  | answers {u : Text} (hanswer : msg.OwnerAnswer n u)
      (hshort : msg.body.length ≤ 2 ^ 25) (howner : D.owner name = some u)
      (hsame : D' = D)
  /-- nobody owns the name -/
  | refuses (hty : msg.header.msgType = .error)
      (hn : msg.header.replySerial = some n)
      (hsender : ∀ v, msg.header.sender = some v → isUniqueName v = false)
      (howner : D.owner name = none) (hsame : D' = D)
  /-- a notice -/
  | announces {t : Text × Text × Text} (hchange : msg.OwnerChange t)
      (hshort : msg.body.length ≤ 2 ^ 25)
      (hnew : D'.owner t.1 = noticedOwner t.2.2)
      (hrest : ∀ x, x ≠ t.1 → D'.owner x = D.owner x)
  /-- anything else -/
  | other (hreply : ¬(msg.header.isReply = true
        ∧ msg.header.replySerial = some n))
      (hnotice : msg.header.isNotice = false) (hsame : D' = D)

section telling

variable {z : Zvariant} {n : Nat} {name : Text} {D D' : BusDirectory}
  {msg : Message}

/-- A message about an owner is a notice. -/
theorem Message.OwnerChange.isNotice {t : Text × Text × Text}
    (h : msg.OwnerChange t) : msg.header.isNotice = true := by
  unfold MessageHeader.isNotice
  rw [h.signal, h.sender, h.interface, h.member, h.replySerial]
  rfl

/-- The body of an answer names the owner. -/
theorem Message.OwnerAnswer.stringIn {u : Text} (hacc : msg.Accepted z)
    (h : msg.OwnerAnswer n u) :
    stringIn msg.header.endian msg.body = some u := by
  have hlen := hacc.body_length
  rw [h.body, strBytes_length] at hlen
  rw [h.body]
  exact stringIn_strBytes _ (by omega)

/-- The news of a message is what the directory has for the name behind it,
and without news that is what it had. -/
theorem Tells.news (ht : z.TriplesFollowSpec) (hacc : msg.Accepted z)
    (h : Tells n name D D' msg) :
    (∀ a, newsIn z n name msg.raw = some a → D'.owner name = a)
      ∧ (newsIn z n name msg.raw = none → D'.owner name = D.owner name) := by
  cases h with
  | answers hanswer _ howner hsame =>
      rw [newsIn_answer hacc.headerOf_raw hanswer.answer hanswer.replySerial]
      have hstring := hanswer.stringIn hacc
      constructor
      · intro a ha
        rw [hsame, howner, ← hstring]
        exact Option.some.inj ha
      · intro hnone
        cases hnone
  | refuses hty hn _ howner hsame =>
      rw [newsIn_refusal hacc.headerOf_raw hty hn]
      constructor
      · intro a ha
        rw [hsame, howner]
        exact Option.some.inj ha
      · intro hnone
        cases hnone
  | @announces t hchange _ hnew hrest =>
      rw [newsIn_notice ht hacc.headerOf_raw hchange.isNotice hchange.body]
      by_cases hname : t.1 = name
      · rw [if_pos hname]
        constructor
        · intro a ha
          rw [← hname, hnew]
          exact Option.some.inj ha
        · intro hnone
          cases hnone
      · rw [if_neg hname]
        constructor
        · intro a ha
          cases ha
        · intro _
          exact hrest name fun heq => hname heq.symm
  | other hreply hnotice hsame =>
      have hnone : newsIn z n name msg.raw = none := by
        apply newsIn_other
        intro h hh
        rw [hacc.headerOf_raw] at hh
        cases hh
        exact ⟨hreply, hnotice⟩
      rw [hnone, hsame]
      constructor
      · intro a ha
        cases ha
      · intro _
        rfl

end telling

-- ================================================================= the client

/-- What the client learns from what is written to it. -/
def heard (z : Zvariant) (n : Nat) (name : Text) (ws : List Write) :
    Option (Option Text) :=
  ws.foldl (fun known w =>
    if w.peer = .client then (newsIn z n name w.raw).or known else known) none

/-- One write tells what its message does. -/
theorem heard_one (z : Zvariant) (n : Nat) (name : Text) (raw : Bytes)
    (fds : List Fd) :
    heard z n name [⟨.client, raw, fds⟩] = newsIn z n name raw := by
  show (if Peer.client = .client then (newsIn z n name raw).or none
    else none) = newsIn z n name raw
  rw [if_pos rfl, Option.or_none]

/-- Writes that tell nothing one by one tell nothing. -/
theorem heard_none {z : Zvariant} {n : Nat} {name : Text} {ws : List Write}
    (h : ∀ w ∈ ws, w.peer = .client → newsIn z n name w.raw = none) :
    heard z n name ws = none := by
  induction ws with
  | nil => rfl
  | cons w ws ih =>
      have hfirst : (if w.peer = .client then
          (newsIn z n name w.raw).or none else none)
          = (none : Option (Option Text)) := by
        by_cases hw : w.peer = .client
        · rw [if_pos hw, h w (List.mem_cons_self ..) hw]
          rfl
        · rw [if_neg hw]
      unfold heard
      rw [List.foldl_cons, hfirst]
      exact ih fun v hv => h v (List.mem_cons_of_mem _ hv)

/-- A new owner is shown like any unique name, and a name without an owner like
one. -/
theorem noticedOwner_prefixUnique (b : Bus) (x : Text) :
    noticedOwner (prefixUnique b x)
      = (noticedOwner x).map (toFakeName · b) := by
  unfold noticedOwner
  cases hx : isUniqueName x with
  | true =>
      have hne : ∀ y, isUniqueName y = true → y ≠ [] := by
        intro y hy hnil
        rw [hnil] at hy
        cases hy
      rw [prefixUnique_of_unique hx, if_neg (hne x hx), Option.map_some,
        if_neg (hne _ (isUniqueName_toFakeName hx b))]
  | false =>
      rw [prefixUnique_of_not_unique hx]
      by_cases hnil : x = []
      · rw [if_pos hnil]
        rfl
      · rw [if_neg hnil, Option.map_some, toFakeName_of_not_unique hx]

section hearing

variable {L : Libs} {s s' : Session} {msg : Message} {ws : List Write}
  {n : Nat} {name : Text} {b home : Bus} {D D' : BusDirectory}

/-- A step has one outcome. -/
theorem step_writes {ev : Event} {ws' : List Write} {s'' : Session}
    (h : s.Step L ev ws s') (h' : s.Step L ev ws' s'') : ws' = ws := by
  have hsame := h'.2.symm.trans h.2
  cases hsame
  rfl

/-- The client is told the owner under its shown name. -/
theorem answer_heard (hz : L.zvariant.FollowsSpec)
    (hstep : s.Step L (.bus b msg) ws s')
    (hmerges : s.MergesKept L.zvariant) (hs : s.Expects n b) {u : Text}
    (hanswer : msg.OwnerAnswer n u) (hshort : msg.body.length ≤ 2 ^ 25) :
    heard L.zvariant n name ws = some (some (toFakeName u b)) := by
  have hacc : msg.Accepted L.zvariant := hstep.1
  obtain ⟨raw, s'', hstep', start, hold, hbody, hraw⟩ :=
    answer_step hz hmerges hs hacc hanswer
  have hlen := toFakeName_length u b
  rw [hanswer.body, strBytes_length] at hshort
  have hrebuild := rebuildMessageWithBody_eq hold
    (strBytes msg.header.endian (toFakeName u b))
  rw [← hraw] at hrebuild
  obtain ⟨h, hh, ha⟩ := headerOf_rebuilt_short hacc hrebuild
    (by rw [strBytes_length]; omega)
  rw [← step_writes hstep hstep', heard_one,
    newsIn_answer hh (ha.msgType.trans hanswer.answer)
      (ha.replySerial.trans hanswer.replySerial), ha.endian, hbody.bodyOf,
    stringIn_strBytes _ (by omega)]

/-- A refusal is delivered as it is. -/
theorem refusal_heard (hstep : s.Step L (.bus b msg) ws s')
    (hfree : s.pendingMerges n = none) (hty : msg.header.msgType = .error)
    (hn : msg.header.replySerial = some n)
    (hsender : ∀ v, msg.header.sender = some v → isUniqueName v = false) :
    heard L.zvariant n name ws = some none := by
  have hacc : msg.Accepted L.zvariant := hstep.1
  have hno : ∀ {k pending}, msg.header.replySerial = some k →
      s.pendingMerges k = some pending → False := by
    intro k pending hk hp
    rw [hn] at hk
    cases hk
    rw [hfree] at hp
    cases hp
  cases upstream_of_ok hstep.2 with
  | serviceCall hcall =>
      have hcalls := msgType_of_serviceCall hcall
      rw [hty] at hcalls
      cases hcalls
  | firstHalf _ hk hp => exact (hno hk hp).elim
  | secondHalf _ hk hp => exact (hno hk hp).elim
  | @forwarded raw _ _ hraw =>
      obtain ⟨-, m, hm, hrewrite⟩ := prepare_eq_ok hraw
      rw [rewriteMessageHeader_toClient_of_not_unique hsender,
        Outcome.orElse_ok] at hm
      cases hm
      unfold rewriteBodyForClient at hrewrite
      simp only [hty] at hrewrite
      cases hrewrite
      rw [heard_one, newsIn_refusal hacc.headerOf_raw hty hn]

/-- A notice is delivered with the owner as the client is shown it. -/
theorem notice_heard (ht : L.zvariant.TriplesFollowSpec)
    (hstep : s.Step L (.bus b msg) ws s') {t : Text × Text × Text}
    (hchange : msg.OwnerChange t) (hshort : msg.body.length ≤ 2 ^ 25) :
    heard L.zvariant n name ws = if t.1 = name then
      some ((noticedOwner t.2.2).map (toFakeName · b)) else none := by
  have hacc : msg.Accepted L.zvariant := hstep.1
  obtain ⟨raw, hstep', hraw⟩ :=
    ownerChange_step (s := s) (b := b) ht hacc hchange
  have hlen : (marshal msg.header.endian 0
      (tripleValue (ownersPrefixed b t))).length ≤ 2 ^ 26 := by
    obtain ⟨start, hbody, -⟩ := hchange.body
    obtain ⟨start', hbody'⟩ := hacc.hasBody
    rw [← (hbody.unique hbody').2] at hshort
    have hbefore := (marshal_triple_length msg.header.endian start t).1
    have hafter := (marshal_triple_length msg.header.endian 0
      (ownersPrefixed b t)).2
    have hold := prefixUnique_length t.2.1 b
    have hnew := prefixUnique_length t.2.2 b
    unfold ownersPrefixed at hafter ⊢
    simp only at hafter
    omega
  obtain ⟨h, hh, ha⟩ := headerOf_rebuilt_short hacc hraw hlen
  have hholds := holdsTriple_rebuilt hacc
    (ownersPrefixed_areStrs hacc hchange.body b) hraw
  rw [← ha.endian] at hholds
  rw [← step_writes hstep hstep', heard_one, newsIn_notice ht hh
    (ha.isNotice.trans hchange.isNotice) hholds, ← noticedOwner_prefixUnique]
  rfl

/-- What a bus tells is delivered with the names the client is shown. -/
theorem news_delivered (hz : L.zvariant.FollowsSpec)
    (ht : L.zvariant.TriplesFollowSpec)
    (hstep : s.Step L (.bus b msg) ws s')
    (hmerges : s.MergesKept L.zvariant) (hshow : msg.SenderShowable)
    (hs : s.Expects n home)
    (hhome : newsIn L.zvariant n name msg.raw ≠ none → b = home)
    (h : Tells n name D D' msg) :
    heard L.zvariant n name ws = (newsIn L.zvariant n name msg.raw).map
      (Option.map (toFakeName · b)) := by
  have hacc : msg.Accepted L.zvariant := hstep.1
  cases h with
  | answers hanswer hshort =>
      have hnews : newsIn L.zvariant n name msg.raw
          = some (stringIn msg.header.endian msg.body) :=
        newsIn_answer hacc.headerOf_raw hanswer.answer hanswer.replySerial
      rw [hnews] at hhome
      have hb := hhome (Option.some_ne_none _)
      rw [hnews, hanswer.stringIn hacc]
      exact answer_heard hz hstep hmerges (hb ▸ hs) hanswer hshort
  | refuses hty hn hsender =>
      rw [newsIn_refusal hacc.headerOf_raw hty hn]
      exact refusal_heard hstep hs.noMerge hty hn hsender
  | @announces t hchange hshort =>
      rw [newsIn_notice ht hacc.headerOf_raw hchange.isNotice hchange.body,
        notice_heard ht hstep hchange hshort]
      split <;> rfl
  | other hreply hnotice =>
      have hnone : newsIn L.zvariant n name msg.raw = none := by
        apply newsIn_other
        intro h hh
        rw [hacc.headerOf_raw] at hh
        cases hh
        exact ⟨hreply, hnotice⟩
      rw [hnone]
      apply heard_none
      intro w hw _
      exact no_news_delivered hz hstep hmerges hshow hs.noMerge hreply
        hnotice hw

end hearing

-- =================================================================== following

/-- A session, the directories of its buses, and what its client knows of the
owner of a name: nothing yet, or what it has learned last. -/
structure Watch where
  session : Session
  buses : Bus → BusDirectory
  known : Option (Option Text)

/-- The directories change as the bus tells that the event is from. -/
def Told (n : Nat) (name : Text) (D D' : Bus → BusDirectory) :
    Event → Prop
  | .client _ => D' = D
  | .bus b msg =>
      Tells n name (D b) (D' b) msg ∧ ∀ c, c ≠ b → D' c = D c

/-- The session handles an event, and the client reads what it is written. -/
structure Watch.Step (L : Libs) (n : Nat) (name : Text) (w : Watch)
    (ev : Event) (ws : List Write) (w' : Watch) : Prop where
  handled : w.session.Step L ev ws w'.session
  told : Told n name w.buses w'.buses ev
  known_eq : w'.known = (heard L.zvariant n name ws).or w.known

/-- The news of an event. -/
def Event.news (z : Zvariant) (n : Nat) (name : Text) :
    Event → Option (Option Text)
  | .client _ => none
  | .bus _ msg => newsIn z n name msg.raw

/-- The client does not use the serial of its call again, a sender can be
shown, and news is from the home of the name. -/
def Undisturbed (z : Zvariant) (n : Nat) (name : Text) (home : Bus)
    (_ : Watch) : Event → Prop
  | .client msg => msg.header.serial ≠ n
  | .bus b msg => msg.SenderShowable
      ∧ (newsIn z n name msg.raw ≠ none → b = home)

section following

variable {L : Libs} {n : Nat} {name : Text} {w w' : Watch} {ev : Event}
  {ws : List Write} {config : Config}

/-- What is watched is a run of the session. -/
theorem watch_run {t : List (Event × List Write)}
    (h : Steps (Watch.Step L n name) w t w') :
    Run L w.session t w'.session := by
  induction h with
  | nil => exact .nil
  | snoc _ hs ih => exact .snoc ih hs.handled

/-- What the client knows, and what there is to know, behind a step. -/
theorem watch_step (hz : L.zvariant.FollowsSpec)
    (ht : L.zvariant.TriplesFollowSpec) (hname : isUniqueName name = false)
    (hmerges : w.session.MergesKept L.zvariant)
    (hs : w.session.Expects n (homeBus config name))
    (hquiet : Undisturbed L.zvariant n name (homeBus config name) w ev)
    (hstep : w.Step L n name ev ws w') :
    (ev.news L.zvariant n name = none → w'.known = w.known
        ∧ (shownDirectory config w'.buses).owner name
          = (shownDirectory config w.buses).owner name)
      ∧ (ev.news L.zvariant n name ≠ none →
        w'.known = some ((shownDirectory config w'.buses).owner name)) := by
  obtain ⟨hhandled, htold, hknown⟩ := hstep
  cases ev with
  | client msg =>
      have hdown := downstream_of_ok hhandled.2
      have hnone : heard L.zvariant n name ws = none := by
        apply heard_none
        intro v hv hclient
        obtain ⟨b, hb⟩ := downstream_writes hdown hv
        rw [hclient] at hb
        cases hb
      have hsame : w'.buses = w.buses := htold
      constructor
      · intro _
        rw [hknown, hnone, hsame]
        exact ⟨rfl, rfl⟩
      · intro hnews
        exact absurd rfl hnews
  | bus b msg =>
      obtain ⟨htells, hrest⟩ := htold
      obtain ⟨hshow, hhome⟩ := hquiet
      have hdelivered := news_delivered hz ht hhandled hmerges hshow hs hhome
        htells
      obtain ⟨hnews, hnone⟩ := htells.news ht hhandled.1
      have hev : (Event.bus b msg).news L.zvariant n name
          = newsIn L.zvariant n name msg.raw := rfl
      constructor
      · intro hno
        rw [hev] at hno
        refine ⟨?_, ?_⟩
        · rw [hknown, hdelivered, hno]
          rfl
        · apply Showing.owner_of_home
          show (w'.buses (homeBus config name)).owner (askedName name)
            = (w.buses (homeBus config name)).owner (askedName name)
          rw [askedName_wellKnown hname]
          by_cases hb : homeBus config name = b
          · rw [hb]
            exact hnone hno
          · rw [hrest _ hb]
      · intro hsome
        rw [hev] at hsome
        have hb := hhome hsome
        obtain ⟨a, ha⟩ := Option.ne_none_iff_exists'.mp hsome
        rw [hknown, hdelivered, ha, shownDirectory_wellKnown hname, ← hb,
          hnews a ha]
        rfl

/-- In a run that begins where the answer is expected, the client knows the
owner from the first news on. -/
theorem watch_informed {exe : Option Bytes}
    {t u : List (Event × List Write)} (hz : L.zvariant.FollowsSpec)
    (ht : L.zvariant.TriplesFollowSpec) (hname : isUniqueName name = false)
    (hbefore : Run L (Session.new config exe) t w.session)
    (hs : w.session.Expects n (homeBus config name))
    (hrun : Steps (Meeting (Watch.Step L n name)
      (Undisturbed L.zvariant n name (homeBus config name))) w u w')
    (htold : ∃ x ∈ u, x.1.news L.zvariant n name ≠ none) :
    w'.known = some ((shownDirectory config w'.buses).owner name) := by
  have hready : Steps (Meeting (Meeting (Watch.Step L n name)
        (Undisturbed L.zvariant n name (homeBus config name)))
      fun m _ => m.session.MergesKept L.zvariant
        ∧ m.session.Expects n (homeBus config name)) w u w' := by
    apply hrun.meeting
    intro u₁ i o v m m' _ hu _ _
    have hsession := watch_run hu.of_meeting
    refine ⟨mergesKept_run (hbefore.append hsession), ?_⟩
    apply expects_run hsession _ hs
    intro msg ws' hmem
    obtain ⟨_, _, _, _, hquiet, _⟩ := hu.meeting_mem hmem
    exact hquiet
  refine hready.informed
    (f := fun m : Watch => (shownDirectory config m.buses).owner name)
    (P := fun i => i.news L.zvariant n name ≠ none) ?_ ?_ (Or.inr htold)
  · intro m i o m' hmeet hno
    obtain ⟨⟨hmerges, hexpects⟩, hquiet, hstep⟩ := hmeet
    exact (watch_step hz ht hname hmerges hexpects hquiet hstep).1
      (not_not.mp hno)
  · intro m i o m' hmeet hnews
    obtain ⟨⟨hmerges, hexpects⟩, hquiet, hstep⟩ := hmeet
    exact (watch_step hz ht hname hmerges hexpects hquiet hstep).2 hnews

/-- A client that asks for the owner of a well-known name asks the home of the
name. If that bus answers as its directory has it, and announces each change,
then from the answer on the client knows the owner that the directory of both
buses as it is shown has for the name, whatever else passes. -/
theorem owner_followed {exe : Option Bytes} {t : List (Event × List Write)}
    {s : Session} {msg : Message} (hz : L.zvariant.FollowsSpec)
    (ht : L.zvariant.TriplesFollowSpec)
    (hpass : isHostpass L.glob config exe = false)
    (hrun : Run L (Session.new config exe) t s)
    (hanswered : MergesAnswered L config exe msg.header.serial t)
    (hacc : msg.Accepted L.zvariant) (hquery : msg.OwnerQuery name)
    (hname : isUniqueName name = false) :
    ∃ s', s.Step L (.client msg)
        [⟨.bus (homeBus config name), msg.raw, msg.fds⟩] s'
      ∧ ∀ buses known u w',
        Steps (Meeting (Watch.Step L msg.header.serial name)
          (Undisturbed L.zvariant msg.header.serial name
            (homeBus config name))) ⟨s', buses, known⟩ u w' →
        (∃ x ∈ u, x.1.news L.zvariant msg.header.serial name ≠ none) →
        w'.known = some ((shownDirectory config w'.buses).owner name) := by
  obtain ⟨hconfig, hexe⟩ := run_config hrun
  have hpass' : isHostpass L.glob s.config s.clientExePath = false := by
    rw [hconfig, hexe]
    exact hpass
  obtain ⟨raw, s', hstep, ⟨start, hold, -, hraw⟩, hexpects⟩ :=
    query_step hz hpass' hacc hquery (noMerge_of_answered hrun hanswered)
  rw [askedName_wellKnown hname, ← hquery.body, rebuilt_self hacc hold]
    at hraw
  rw [hconfig, hraw] at hstep
  rw [hconfig] at hexpects
  refine ⟨s', hstep, ?_⟩
  intro buses known u w' hwatch htold
  exact watch_informed hz ht hname (hrun.append (Steps.single hstep))
    hexpects hwatch htold

end following

-- =================================================================== a name

/-- A bus on which every connection there can be is there, and one of them
owns `org.a`. -/
def heldBy (u : Text) (hu : isUniqueName u = true) : BusDirectory where
  owner x := if isUniqueName x = true then some x
    else if x = utf8 "org.a" then some u else none
  conn_owner h := by
    split at h
    next hx =>
      cases h
      exact hx
    next =>
      split at h
      · cases h
        exact hu
      · cases h
  owner_self h := by
    split at h
    next hx =>
      cases h
      rw [if_pos hx]
    next =>
      split at h
      · cases h
        rw [if_pos hu]
      · cases h

def ownerOfA : Message := .daemonCall 3 "GetNameOwner" "org.a"

/-- The host answers, the name passes from one of its connections to another,
and the host announces it. -/
def passingOn : List Event :=
  [.bus .host ownerAnswer, .bus .host (ownerSignal passedOn)]

/-- The daemon's own name fits into any header. -/
theorem senderShowable_of_daemon {msg : Message}
    (h : msg.header.sender = some busName) : msg.SenderShowable := by
  intro u hs hu
  rw [h] at hs
  cases hs
  cases hu

/-- Other names keep their owner. -/
theorem heldBy_passedOn (x : Text) (hx : x ≠ utf8 "org.a") :
    (heldBy (utf8 ":1.6") rfl).owner x
      = (heldBy (utf8 ":1.5") rfl).owner x := by
  show (if isUniqueName x = true then some x
      else if x = utf8 "org.a" then _ else none)
    = if isUniqueName x = true then some x
      else if x = utf8 "org.a" then _ else none
  rw [if_neg hx, if_neg hx]

/-- The directories behind that. -/
def passed (b : Bus) : BusDirectory :=
  if b = .host then heldBy (utf8 ":1.6") rfl else heldBy (utf8 ":1.5") rfl

/-- After the change the client is shown the new owner. -/
theorem shown_passed :
    (shownDirectory twoNames passed).owner (utf8 "org.a")
      = some (utf8 ":h.1.6") := by
  rw [shownDirectory_wellKnown rfl]
  decide +kernel

/-- The host answers with the owner of that moment. -/
theorem told_answer : Told 3 (utf8 "org.a")
    (fun _ => heldBy (utf8 ":1.5") rfl) (fun _ => heldBy (utf8 ":1.5") rfl)
    (.bus .host ownerAnswer) := by
  have hanswer : ownerAnswer.OwnerAnswer 3 (utf8 ":1.5") := by
    refine ⟨rfl, rfl, ?_, by decide +kernel, by decide +kernel, rfl⟩
    intro v hv
    cases hv
    rfl
  have howner : (heldBy (utf8 ":1.5") rfl).owner (utf8 "org.a")
      = some (utf8 ":1.5") := by
    decide +kernel
  exact ⟨.answers hanswer (by decide +kernel) howner rfl, fun _ _ => rfl⟩

/-- The signal tells of the change. -/
theorem told_notice : Told 3 (utf8 "org.a")
    (fun _ => heldBy (utf8 ":1.5") rfl) passed
    (.bus .host (ownerSignal passedOn)) := by
  have hnew : (heldBy (utf8 ":1.6") rfl).owner passedOn.1
      = noticedOwner passedOn.2.2 := by
    decide +kernel
  exact ⟨.announces ownerChange_passedOn (by decide +kernel) hnew
    heldBy_passedOn, fun _ hc => if_neg hc⟩

/-- Nothing else is said about the name. -/
theorem undisturbed_passingOn (w : Watch) {ev : Event}
    (h : ev ∈ passingOn) :
    Undisturbed .reference 3 (utf8 "org.a") .host w ev := by
  obtain rfl | h := List.mem_cons.mp h
  · exact ⟨senderShowable_of_daemon rfl, fun _ => rfl⟩
  · rw [List.mem_singleton.mp h]
    exact ⟨senderShowable_of_daemon rfl, fun _ => rfl⟩

/-- Behind it the client knows the new owner as `:h.1.6`. -/
theorem owner_followed_passedOn : ∃ s' t w',
    (Session.new twoNames none).Step referenceLibs (.client ownerOfA)
        [⟨.bus .host, ownerOfA.raw, []⟩] s'
      ∧ t.map Prod.fst = passingOn
      ∧ Steps (Watch.Step referenceLibs 3 (utf8 "org.a"))
        ⟨s', fun _ => heldBy (utf8 ":1.5") rfl, none⟩ t w'
      ∧ w'.known = some (some (utf8 ":h.1.6")) := by
  have hacc : ownerOfA.Accepted .reference := by decide +kernel
  have hquery : ownerOfA.OwnerQuery (utf8 "org.a") :=
    ⟨rfl, rfl, rfl, rfl, by decide +kernel, by decide +kernel⟩
  have hanswered : MergesAnswered referenceLibs twoNames none 3 [] := by
    intro u msg ws v h
    simp at h
  obtain ⟨s', hstep, hfollow⟩ := owner_followed (L := referenceLibs)
    Zvariant.reference_followsSpec Zvariant.reference_triplesFollowSpec rfl
    .nil hanswered hacc hquery rfl
  have hs' : s' = ((Session.new twoNames none).react referenceLibs
      (.client ownerOfA)).1 := by
    unfold Session.react
    rw [hstep.2]
  obtain ⟨ws₁, s₁, ws₂, s₂, hfirst, hsecond⟩ : ∃ ws₁ s₁ ws₂ s₂,
      s'.Step referenceLibs (.bus .host ownerAnswer) ws₁ s₁
        ∧ s₁.Step referenceLibs (.bus .host (ownerSignal passedOn)) ws₂ s₂ :=
    ⟨_, _, _, _,
      step_react (by rw [hs']; decide +kernel) (by decide +kernel),
      step_react (by rw [hs']; decide +kernel) (by decide +kernel)⟩
  have hasked : Watch.Step referenceLibs 3 (utf8 "org.a") ⟨s', _, none⟩ _
      ws₁ ⟨s₁, _, _⟩ :=
    ⟨hfirst, told_answer, rfl⟩
  have hpassed : Watch.Step referenceLibs 3 (utf8 "org.a")
      ⟨s₁, _, (heard .reference 3 (utf8 "org.a") ws₁).or none⟩ _ ws₂
      ⟨s₂, _, _⟩ :=
    ⟨hsecond, told_notice, rfl⟩
  have hmeet : ∀ {w ev ws w'}, ev ∈ passingOn →
      Watch.Step referenceLibs 3 (utf8 "org.a") w ev ws w' →
      Meeting (Watch.Step referenceLibs 3 (utf8 "org.a"))
        (Undisturbed .reference 3 (utf8 "org.a") .host) w ev ws w' :=
    fun hev hs => ⟨undisturbed_passingOn _ hev, hs⟩
  have hrun := (Steps.single (hmeet (List.mem_cons_self ..) hasked)).snoc
    (hmeet (List.mem_cons_of_mem _ (List.mem_cons_self ..)) hpassed)
  have hnews : newsIn .reference 3 (utf8 "org.a") ownerAnswer.raw ≠ none := by
    decide +kernel
  refine ⟨s', _, _, hstep, ?_, hrun.of_meeting, ?_⟩
  · rfl
  · have hknown := hfollow _ _ _ _ hrun ⟨_, List.mem_cons_self .., hnews⟩
    exact hknown.trans (congrArg some shown_passed)

end DbusRouter.Model
