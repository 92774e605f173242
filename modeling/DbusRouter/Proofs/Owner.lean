/-
Asking for the owner of a name, and being told.

A `GetNameOwner` call is sent to the home of the name it asks about, with
the prefix taken out of the question; the answer comes from that bus and
has the prefix of that bus put in (`owner_lookup`). What ties the two
together is the entry the call leaves in `pendingCalls`: it stands until
the client uses the serial again, and no merge waits for the serial
meanwhile (`Session.Expects`, `expects_run`).
-/
import DbusRouter.Proofs.Naming
import DbusRouter.Proofs.Serials

namespace DbusRouter.Model

open Wire Lib

-- ================================================================== messages

/-- `raw` is `old` around another body. -/
def Rebodied (e : Endian) (old raw body : Bytes) : Prop :=
  ∃ start, HasBody e old start (bodyOf e old) ∧ HasBody e raw start body
    ∧ raw = rebuilt e old start body

/-- A `GetNameOwner` call about `name`. -/
structure Message.OwnerQuery (msg : Message) (name : Text) : Prop where
  call : msg.header.msgType = .methodCall
  destination : msg.header.destination = some busName
  interface : msg.header.interface = some busName
  member : msg.header.member = some (utf8 "GetNameOwner")
  body : msg.body = strBytes msg.header.endian name
  text : utf8Valid name = true

/-- A bus daemon, whose own name is no unique name, answers the call `n`
with the unique name `u`. -/
structure Message.OwnerAnswer (msg : Message) (n : Nat) (u : Text) : Prop
    where
  answer : msg.header.msgType = .methodReturn
  replySerial : msg.header.replySerial = some n
  sender : ∀ v, msg.header.sender = some v → isUniqueName v = false
  body : msg.body = strBytes msg.header.endian u
  text : utf8Valid u = true
  unique : isUniqueName u = true

/-- A string is read back, whatever follows it. -/
theorem stringIn_strBytes_append (e : Endian) {s : Text}
    (h : s.length < 2 ^ 32) (rest : Bytes) :
    stringIn e (strBytes e s ++ rest) = some s := by
  have htake : (strBytes e s ++ rest).take 4 = e.bytes 4 s.length := by
    rw [strBytes, List.append_assoc,
      List.take_left' (e.bytes_length 4 s.length)]
  have hdrop : (strBytes e s ++ rest).drop 4 = s ++ ([0] ++ rest) := by
    rw [strBytes, List.append_assoc,
      List.drop_left' (e.bytes_length 4 s.length), List.append_assoc]
  have hnat : e.nat ((strBytes e s ++ rest).take 4) = s.length := by
    rw [htake, e.nat_bytes (by norm_num; omega)]
  unfold stringIn
  rw [hnat, if_pos (by rw [List.length_append, strBytes_length]; omega),
    hdrop, List.take_left]

/-- A string is read from its own bytes. -/
theorem stringIn_strBytes (e : Endian) {s : Text} (h : s.length < 2 ^ 32) :
    stringIn e (strBytes e s) = some s := by
  have happend := stringIn_strBytes_append e h []
  rw [List.append_nil] at happend
  exact happend

/-- The body that is written is the string as the format has it. -/
theorem stringBody_eq (e : Endian) {s : Text} (h : s.length < 2 ^ 32) :
    stringBody e s = strBytes e s := by
  unfold stringBody strBytes
  rw [Nat.mod_eq_of_lt h, List.append_assoc]

/-- The text of a message is short. -/
theorem Message.Accepted.body_length {z : Zvariant} {msg : Message}
    (h : msg.Accepted z) : msg.body.length ≤ 2 ^ 26 := by
  obtain ⟨f, hmsg⟩ := h.eq_message
  rw [hmsg]
  show (bodyOf f.endian f.bytes).length ≤ 2 ^ 26
  rw [f.bodyOf_bytes]
  exact f.body_le

/-- A frame that is built anew has the new body. -/
theorem hasBody_rebuilt {z : Zvariant} {msg : Message} {start : Nat}
    (hacc : msg.Accepted z)
    (h : HasBody msg.header.endian msg.raw start msg.body) (new : Bytes) :
    HasBody msg.header.endian
      (rebuilt msg.header.endian msg.raw start new) start new := by
  obtain ⟨f, hmsg⟩ := hacc.eq_message
  rw [hmsg] at h ⊢
  have h : HasBody f.endian f.bytes start (bodyOf f.endian f.bytes) := h
  show HasBody f.endian (rebuilt f.endian f.bytes start new) start new
  have hrebuild := rebuildMessageWithBody_eq h new
  rw [f.rebuild_layout] at hrebuild
  rw [← Outcome.ok.inj hrebuild]
  have ha := f.array_le
  have hstart : start = 16 + f.array.length + padTo8 (16 + f.array.length) :=
    (h.unique f.hasBody).1
  have hfixed := fixedHeader_length f.endian f.ty f.flags
    (new.length % 2 ^ 32) f.serial
  subst hstart
  refine ⟨bodyStartOf_layout f.endian hfixed (by omega), ?_, ?_⟩
  · rw [layout_length f.endian _ _ _ hfixed, f.padding_eq]
  · rw [← f.padding_eq]
    exact layout_drop_body f.endian f.array f.padding new hfixed

/-- It differs from the old one in nothing else. -/
theorem rebodied {z : Zvariant} {msg : Message} {start : Nat}
    (hacc : msg.Accepted z)
    (h : HasBody msg.header.endian msg.raw start msg.body) (new : Bytes) :
    Rebodied msg.header.endian msg.raw
      (rebuilt msg.header.endian msg.raw start new) new :=
  ⟨start, h, hasBody_rebuilt hacc h new, rfl⟩

-- ================================================================= expecting

/-- An answer to the call `n` is expected from bus `b` as that of a
`GetNameOwner` call. -/
structure Session.Expects (s : Session) (n : Nat) (b : Bus) : Prop where
  call : s.pendingCalls n = some ⟨b, some (utf8 "GetNameOwner")⟩
  noMerge : s.pendingMerges n = none

/-- What is expected stays expected until the client uses the serial
again. -/
theorem expects_step {L : Libs} {s s' : Session} {ev : Event}
    {ws : List Write} {n : Nat} {b : Bus} (h : s.Step L ev ws s')
    (hserial : ∀ msg, ev = .client msg → msg.header.serial ≠ n)
    (hs : s.Expects n b) : s'.Expects n b := by
  rcases step_cases h with ⟨msg, rfl, hd⟩ | ⟨b', msg, rfl, hu⟩
  · have hne := hserial msg rfl
    refine ⟨?_, ?_⟩
    · rcases downstream_calls hd with ⟨-, b', hcalls⟩ | ⟨-, hcalls⟩
      · rw [hcalls, PMap.insert_of_ne _ _ (Ne.symm hne)]
        exact hs.call
      · rw [hcalls]
        exact hs.call
    · rcases downstream_mergeLevel hd n with ⟨-, hn, -⟩ | ⟨-, hp⟩
      · exact absurd hn hne
      · rw [hp]
        exact hs.noMerge
  · refine ⟨?_, ?_⟩
    · rw [upstream_calls hu]
      exact hs.call
    · have hlevel := (upstream_mergeLevel hu n).1
      rw [mergeLevel_of_none hs.noMerge] at hlevel
      exact mergeLevel_eq_zero (by omega)

/-- What a bus owes is owed until its serial is used again. -/
theorem expects_run {L : Libs} {s s' : Session}
    {t : List (Event × List Write)} {n : Nat} {b : Bus} (h : Run L s t s')
    (hserial : ∀ msg ws, (.client msg, ws) ∈ t → msg.header.serial ≠ n)
    (hs : s.Expects n b) : s'.Expects n b := by
  induction h with
  | nil => exact hs
  | @snoc t m ev ws s' _ hstep ih =>
      refine expects_step hstep ?_ (ih fun msg ws' hmem => ?_)
      · rintro msg rfl
        exact hserial msg ws (by simp)
      · exact hserial msg ws' (List.mem_append_left _ hmem)

-- =================================================================== asking

section asking

variable {L : Libs} {s : Session} {msg : Message} {name : Text}

/-- A question for an owner is a call of the daemon about the name. -/
theorem Message.OwnerQuery.daemonCall {z : Zvariant}
    (hacc : msg.Accepted z) (h : msg.OwnerQuery name) :
    msg.DaemonCall name := by
  have hlen := hacc.body_length
  rw [h.body, strBytes_length] at hlen
  refine ⟨h.call, h.destination, h.interface, ?_, h.text⟩
  rw [h.body]
  exact stringIn_strBytes _ (by omega)

/-- The name a bus is asked about. -/
def askedName (name : Text) : Text :=
  ((fromFakeName name).map Prod.fst).getD name

/-- Such a call goes to the name's home. -/
theorem routeName_home (config : Config) (name : Text) :
    routeName config true true (some name) = homeBus config name := by
  unfold routeName homeBus
  simp only [if_true, Bool.true_and]
  cases getBusFromFakeName name with
  | none => rfl
  | some b => rfl

/-- A question for the owner goes to the name's home. -/
theorem Message.OwnerQuery.route (hacc : msg.Accepted L.zvariant)
    (hpass : isHostpass L.glob s.config s.clientExePath = false)
    (h : msg.OwnerQuery name) :
    routeRequest L.glob s.config msg s.clientExePath
      = .ok (.single (homeBus s.config name)) := by
  have hcall := h.daemonCall hacc
  have hspec : findMethodSpec (utf8 "GetNameOwner")
      = some ⟨utf8 "GetNameOwner", .byName true true⟩ := by
    decide
  rw [hcall.route hpass, route_byName hacc hcall h.member hspec,
    routeName_home]

/-- The body of the question after the prefix has been taken out. -/
theorem Message.OwnerQuery.stripped (hacc : msg.Accepted L.zvariant)
    (h : msg.OwnerQuery name) :
    strippedString msg msg.body = fromFakeName name := by
  have hneeds : (some (utf8 "GetNameOwner")).any needsRequestRewrite
      = true := by
    decide
  unfold strippedString
  rw [(h.daemonCall hacc).string, Option.map_some,
    fromUtf8Lossy_of_valid h.text, Option.bind_some, h.member]
  unfold stripFor
  rw [if_pos hneeds]
  rfl

/-- A message is itself around its own body. -/
theorem rebuilt_self {z : Zvariant} {start : Nat} (hacc : msg.Accepted z)
    (h : HasBody msg.header.endian msg.raw start msg.body) :
    rebuilt msg.header.endian msg.raw start msg.body = msg.raw := by
  have hrebuild := rebuildMessageWithBody_eq h msg.body
  obtain ⟨f, hmsg⟩ := hacc.eq_message
  have hbody : msg.body = f.body := by
    rw [hmsg]
    exact f.bodyOf_bytes
  have hraw : msg.raw = f.bytes := congrArg Message.raw hmsg
  have hendian : msg.header.endian = f.endian := by
    rw [hmsg]
    rfl
  rw [hbody, hraw, hendian, f.rebuild_bytes f.body_le] at hrebuild
  rw [hbody, hraw, hendian]
  exact (Outcome.ok.inj hrebuild).symm

/-- The question is written to the home of the name, which is then expected
to answer. -/
theorem query_step (hz : L.zvariant.FollowsSpec)
    (hpass : isHostpass L.glob s.config s.clientExePath = false)
    (hacc : msg.Accepted L.zvariant) (h : msg.OwnerQuery name)
    (hfree : s.pendingMerges msg.header.serial = none) :
    ∃ raw s', s.Step L (.client msg)
        [⟨.bus (homeBus s.config name), raw, msg.fds⟩] s'
      ∧ Rebodied msg.header.endian msg.raw raw
        (strBytes msg.header.endian (askedName name))
      ∧ s'.Expects msg.header.serial (homeBus s.config name) := by
  have hcall := h.daemonCall hacc
  have hroute := h.route hacc hpass
  obtain ⟨start, hbody⟩ := hacc.hasBody
  have hlen := hacc.body_length
  rw [h.body, strBytes_length] at hlen
  obtain ⟨ws, s', hstep⟩ := hcall.handled (s := s) hz hacc
  cases downstream_of_ok hstep.2 with
  | reply hty hn hin =>
      exact absurd (answersCall_of_incoming hty hn hin)
        (not_answers_of_call hcall.call s)
  | toBoth _ hr =>
      rw [hroute] at hr
      cases hr
  | merge _ hr =>
      rw [hroute] at hr
      cases hr
  | @toBus target s₁ m raw _ hr htrack hm hraw =>
      rw [hroute] at hr
      cases hr
      obtain rfl := toUpstream_busName h.destination hm
      rw [rewriteRequestBody_eq hbody
        (Or.inr (by rw [h.body, strBytes_length]; omega)) h.destination,
        h.stripped hacc] at hraw
      cases hraw
      refine ⟨_, _, hstep, ?_, ?_⟩
      · unfold askedName
        cases hreal : fromFakeName name with
        | none =>
            refine ⟨start, hbody, ?_, ?_⟩
            · rw [Option.map_none, Option.getD_none, ← h.body]
              exact hbody
            · rw [Option.map_none, Option.getD_none, ← h.body,
                rebuilt_self hacc hbody]
              rfl
        | some x =>
            obtain ⟨real, b⟩ := x
            have hreal_len := fromFakeName_length hreal
            rw [Option.map_some, Option.getD_some,
              ← stringBody_eq _ (show real.length < 2 ^ 32 by omega)]
            exact rebodied hacc hbody _
      · obtain ⟨exported, sandbox, rfl⟩ := track_eq htrack
        refine ⟨?_, hfree⟩
        show s.pendingCalls.insert m.header.serial
          ⟨homeBus s.config name, m.header.member⟩ m.header.serial = _
        rw [PMap.insert_self, h.member]

end asking

-- ================================================================ answering

/-- The name in the expected answer gets the prefix of its bus. -/
theorem answer_body {z : Zvariant} {s : Session} {r : Message} {n : Nat}
    {b : Bus} {u : Text} (hs : s.Expects n b) (hacc : r.Accepted z)
    (h : r.OwnerAnswer n u) {start : Nat}
    (hbody : HasBody r.header.endian r.raw start r.body) :
    rewriteBodyForClient z r b s.pendingCalls
      = .ok (rebuilt r.header.endian r.raw start
          (strBytes r.header.endian (toFakeName u b))) := by
  have hlen := hacc.body_length
  rw [h.body, strBytes_length] at hlen
  have h4 : 4 ≤ r.body.length := by
    rw [h.body, strBytes_length]
    omega
  have hneeds : needsResponseRewrite (utf8 "GetNameOwner") = true := by
    decide
  have hsingle : utf8 "GetNameOwner" ≠ utf8 "ListQueuedOwners" := by
    decide
  have hname : (toFakeName u b).length < 2 ^ 32 := by
    have hle := toFakeName_length u b
    omega
  unfold rewriteBodyForClient rewriteMethodReturnBody
  simp only [h.answer, h.replySerial, Option.bind_some, hs.call, ne_eq,
    not_true_eq_false, if_false, hneeds, Bool.not_true,
    Bool.false_eq_true, hsingle]
  unfold rewriteSingleNameResponse
  rw [firstBodyString_eq hbody (Or.inr h4), h.body,
    stringIn_strBytes _ (by omega), Outcome.ok_bind, Option.map_some,
    fromUtf8Lossy_of_valid h.text]
  simp only [h.unique, if_true]
  rw [rebuildMessageWithString_eq hbody, Outcome.orElse_ok,
    stringBody_eq _ hname]

/-- The expected answer is delivered with the prefix of its bus. -/
theorem answer_step {L : Libs} {s : Session} {r : Message} {n : Nat}
    {b : Bus} {u : Text} (hz : L.zvariant.FollowsSpec)
    (hmerges : s.MergesKept L.zvariant) (hs : s.Expects n b)
    (hacc : r.Accepted L.zvariant) (h : r.OwnerAnswer n u) :
    ∃ raw s', s.Step L (.bus b r) [⟨.client, raw, r.fds⟩] s'
      ∧ Rebodied r.header.endian r.raw raw
        (strBytes r.header.endian (toFakeName u b)) := by
  obtain ⟨start, hbody⟩ := hacc.hasBody
  have h4 : 4 ≤ r.body.length := by
    rw [h.body, strBytes_length]
    omega
  have hplain : r.SenderPlain := by
    intro v fs hv hu
    rw [h.sender v hv] at hu
    cases hu
  have hsafe : s.Safe (.bus b r) :=
    ⟨fun _ => hplain, fun _ _ => Or.inr h4⟩
  obtain ⟨ws, s', hstep⟩ := bus_handled hz hmerges hacc hsafe
  have hno : ∀ {k pending}, r.header.replySerial = some k →
      s.pendingMerges k = some pending → False := by
    intro k pending hk hp
    rw [h.replySerial] at hk
    cases hk
    rw [hs.noMerge] at hp
    cases hp
  cases upstream_of_ok hstep.2 with
  | serviceCall hcall =>
      have hty := msgType_of_serviceCall hcall
      rw [h.answer] at hty
      cases hty
  | firstHalf _ hk hp => exact absurd hp (hno hk)
  | secondHalf _ hk hp => exact absurd hp (hno hk)
  | @forwarded raw _ _ hraw =>
      refine ⟨raw, _, hstep, ?_⟩
      obtain ⟨-, m, hm, hrewrite⟩ := prepare_eq_ok hraw
      rw [rewriteMessageHeader_toClient_of_not_unique h.sender,
        Outcome.orElse_ok] at hm
      cases hm
      rw [answer_body hs hacc h hbody] at hrewrite
      rw [← Outcome.ok.inj hrewrite]
      exact rebodied hacc hbody _

-- =================================================================== in a run

/-- No merge under a serial is unanswered when the serial is used again: two
messages with the serial have come in behind every message that asked for
one. -/
def MergesAnswered (L : Libs) (config : Config) (exe : Option Bytes)
    (n : Nat) (t : List (Event × List Write)) : Prop :=
  ∀ u msg ws v, t = u ++ (.client msg, ws) :: v → msg.header.serial = n →
    routeRequest L.glob config msg exe = .ok .merge →
    2 ≤ uses (Event.carries n) v

/-- Where both halves of every merge came in, none is open. -/
theorem noMerge_of_answered {L : Libs} {config : Config}
    {exe : Option Bytes} {t : List (Event × List Write)} {s : Session}
    {n : Nat} (hrun : Run L (Session.new config exe) t s)
    (h : MergesAnswered L config exe n t) : s.pendingMerges n = none := by
  apply mergeLevel_eq_zero
  refine (merges_countdown L n).empty hrun (mergeLevel_of_none rfl) ?_
  rintro u ev ws v m m' ht hu - ⟨msg, rfl, hasks, hn⟩
  obtain ⟨hconfig, hexe⟩ := run_config hu
  have hroute := hasks.2
  rw [hconfig, hexe] at hroute
  exact h u msg ws v ht hn hroute

/-- The question is written to bus `b` alone, about `asked`; and the unique
name that bus answers with, before the client uses the serial again,
reaches the client with the prefix of that bus. -/
def Session.LooksUp (L : Libs) (s : Session) (msg : Message) (b : Bus)
    (asked : Text) : Prop :=
  ∃ raw s₁, s.Step L (.client msg) [⟨.bus b, raw, msg.fds⟩] s₁
    ∧ Rebodied msg.header.endian msg.raw raw
      (strBytes msg.header.endian asked)
    ∧ ∀ t s₂ r u, Run L s₁ t s₂ →
      (∀ m ws, (.client m, ws) ∈ t → m.header.serial ≠ msg.header.serial) →
      r.Accepted L.zvariant → r.OwnerAnswer msg.header.serial u →
      ∃ raw' s₃, s₂.Step L (.bus b r) [⟨.client, raw', r.fds⟩] s₃
        ∧ Rebodied r.header.endian r.raw raw'
          (strBytes r.header.endian (toFakeName u b))

/-- The question reaches the home of the name and its answer comes back
translated. -/
theorem looksUp {L : Libs} {config : Config} {exe : Option Bytes}
    {t : List (Event × List Write)} {s : Session} {msg : Message}
    {name : Text} (hz : L.zvariant.FollowsSpec)
    (hpass : isHostpass L.glob config exe = false)
    (hrun : Run L (Session.new config exe) t s)
    (hanswered : MergesAnswered L config exe msg.header.serial t)
    (hacc : msg.Accepted L.zvariant) (hquery : msg.OwnerQuery name) :
    s.LooksUp L msg (homeBus config name) (askedName name) := by
  obtain ⟨hconfig, hexe⟩ := run_config hrun
  have hpass' : isHostpass L.glob s.config s.clientExePath = false := by
    rw [hconfig, hexe]
    exact hpass
  obtain ⟨raw, s₁, hstep, hbody, hexpects⟩ := query_step hz hpass' hacc
    hquery (noMerge_of_answered hrun hanswered)
  rw [hconfig] at hstep hexpects
  refine ⟨raw, s₁, hstep, hbody, ?_⟩
  intro t₂ s₂ r u hrun₂ hserial hr hanswer
  have hall := hrun.append ((Steps.single hstep).append hrun₂)
  exact answer_step hz (mergesKept_run hall)
    (expects_run hrun₂ hserial hexpects) hr hanswer

/-- A question about a shown name goes to the bus of its prefix and comes
back with that prefix; one about a well-known name comes back with the
prefix of the bus it went to. -/
theorem owner_lookup {L : Libs} {config : Config} {exe : Option Bytes}
    {t : List (Event × List Write)} {s : Session} {msg : Message}
    (hz : L.zvariant.FollowsSpec)
    (hpass : isHostpass L.glob config exe = false)
    (hrun : Run L (Session.new config exe) t s)
    (hanswered : MergesAnswered L config exe msg.header.serial t)
    (hacc : msg.Accepted L.zvariant) :
    (∀ u b, isUniqueName u = true → msg.OwnerQuery (toFakeName u b) →
        s.LooksUp L msg b u)
      ∧ ∀ name c, isUniqueName name = false → msg.OwnerQuery name →
        routeRequest L.glob config msg exe = .ok (.single c) →
        s.LooksUp L msg c name := by
  refine ⟨fun u b hu hquery => ?_, fun name c hname hquery hroute => ?_⟩
  · have h := looksUp hz hpass hrun hanswered hacc hquery
    rw [homeBus_of_fake (getBusFromFakeName_toFakeName hu b), askedName,
      fromFakeName_toFakeName hu b] at h
    exact h
  · have h := looksUp hz hpass hrun hanswered hacc hquery
    have hreal : fromFakeName name = none := by
      unfold fromFakeName
      rw [not_fake_of_wellKnown hname]
      rfl
    have hhome : routeRequest L.glob config msg exe
        = .ok (.single (homeBus config name)) :=
      hquery.route (s := .new config exe) hacc hpass
    rw [hroute] at hhome
    cases hhome
    rw [askedName, hreal] at h
    exact h

/-- Who owns the host's `:1.5`? -/
def ownerOfShown : Message := .daemonCall 7 "GetNameOwner" ":h.1.5"

/-- A name of a host peer is asked for at the host, under its real name. -/
theorem owner_lookup_shown : (Session.new twoNames none).LooksUp referenceLibs
    ownerOfShown .host (utf8 ":1.5") := by
  refine (owner_lookup (L := referenceLibs) (t := [])
    Zvariant.reference_followsSpec rfl .nil ?_ (by decide +kernel)).1
    (utf8 ":1.5") .host rfl ⟨rfl, rfl, rfl, rfl, ?_, ?_⟩
  · intro u msg ws v h
    simp at h
  · decide +kernel
  · decide +kernel

end DbusRouter.Model
