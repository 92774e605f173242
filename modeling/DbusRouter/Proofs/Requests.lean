/-
Calls that are routed by the prefix of a name.

Which calls of the bus daemon follow the prefix of their first argument is
in one table, and which have the prefix taken out is in another. The first
has one method more, `StartServiceByName`, and what takes the prefix out
writes a body of one string, so that nothing of the other arguments is left.
The bus is asked about the real name, with the other arguments as they came,
exactly when the method is in both tables and the name is its only argument
(`names_delivered`).
-/
import DbusRouter.Proofs.Owner

namespace DbusRouter.Model

open Wire Lib

-- ================================================================== arguments

/-- Arguments follow their first string. -/
theorem marshalAll_str (e : Endian) (s : Text) (args : List Value) :
    marshalAll e 0 (.str s :: args)
      = strBytes e s ++ marshalAll e (s.length + 5) args := by
  have hpad : pad 4 0 = [] := rfl
  simp only [marshalAll, marshal, hpad, List.nil_append, Nat.zero_add,
    strBytes_length]

/-- Valid arguments take room, wherever they stand. -/
theorem marshalAll_eq_nil {e : Endian} {n : Nest} {p : Nat}
    {args : List Value} (hv : ValidAll e n p args) (q : Nat) :
    marshalAll e q args = [] ↔ args = [] := by
  cases args with
  | nil => simp [marshalAll]
  | cons v args =>
      rw [ValidAll] at hv
      have hpos := marshal_length_pos e v n p q hv.1
      simp only [marshalAll, List.append_eq_nil_iff, reduceCtorEq, iff_false,
        not_and]
      intro hnil
      rw [hnil, List.length_nil] at hpos
      omega

/-- A call of the bus daemon about the connection `u` of bus `b`, under the
name it is shown by, with further arguments. -/
structure Message.AsksAbout (msg : Message) (u : Text) (b : Bus)
    (args : List Value) : Prop where
  call : msg.header.msgType = .methodCall
  destination : msg.header.destination = some busName
  interface : msg.header.interface = some busName
  unique : isUniqueName u = true
  body : msg.body
    = marshalAll msg.header.endian 0 (.str (toFakeName u b) :: args)
  valid : ValidAll msg.header.endian ⟨0, 0, 0⟩ 0
    (.str (toFakeName u b) :: args)

/-- The call is routed by the prefix of its first argument. -/
def Message.FollowsPrefix (msg : Message) : Prop :=
  ∃ member check, msg.header.member = some member
    ∧ findMethodSpec member = some ⟨member, .byName check true⟩

/-- No call that is routed by a name has a match rule. -/
theorem Message.FollowsPrefix.not_matchRule {msg : Message}
    (h : msg.FollowsPrefix) :
    msg.header.member.any isMatchRuleMember = false := by
  obtain ⟨member, check, hm, hspec⟩ := h
  rw [hm, Option.any_some]
  by_contra hrule
  obtain ⟨spec, hspec', hby⟩ := spec_of_matchRule (by simpa using hrule)
  rw [hspec] at hspec'
  cases hspec'
  cases hby

-- ================================================================== the call

section asks

variable {L : Libs} {s : Session} {msg : Message} {u : Text} {b : Bus}
  {args : List Value}

/-- The name that is asked about is a string the format allows. -/
theorem Message.AsksAbout.isStr (h : msg.AsksAbout u b args) :
    IsStr (toFakeName u b) := by
  have hvalid := h.valid
  rw [ValidAll, Valid] at hvalid
  exact hvalid.1

/-- The call is one of the daemon about that name. -/
theorem Message.AsksAbout.daemonCall (h : msg.AsksAbout u b args) :
    msg.DaemonCall (toFakeName u b) := by
  refine ⟨h.call, h.destination, h.interface, ?_, h.isStr.1⟩
  rw [h.body, marshalAll_str]
  exact stringIn_strBytes_append _ h.isStr.2.2 _

/-- The string that the rewriter of the body finds. -/
theorem Message.AsksAbout.stripped (h : msg.AsksAbout u b args)
    (hfollows : msg.FollowsPrefix) :
    strippedString msg msg.body
      = if msg.header.member.any needsRequestRewrite then some (u, b)
        else none := by
  unfold strippedString stripFor
  rw [h.daemonCall.string, Option.map_some, fromUtf8Lossy_of_valid h.isStr.1,
    Option.bind_some, hfollows.not_matchRule]
  split
  · exact fromFakeName_toFakeName h.unique b
  · rfl

/-- The body that the bus is sent. -/
def sentBody (msg : Message) (u : Text) : Bytes :=
  if msg.header.member.any needsRequestRewrite
  then strBytes msg.header.endian u
  else msg.body

/-- The call is written to the bus of the prefix, with the prefix and the
other arguments taken out or all of them left in. -/
theorem asks_step (hz : L.zvariant.FollowsSpec)
    (hpass : isHostpass L.glob s.config s.clientExePath = false)
    (hacc : msg.Accepted L.zvariant) (h : msg.AsksAbout u b args)
    (hfollows : msg.FollowsPrefix) :
    ∃ raw s', s.Step L (.client msg) [⟨.bus b, raw, msg.fds⟩] s'
      ∧ ∃ start, HasBody msg.header.endian raw start (sentBody msg u) := by
  obtain ⟨member, check, hm, hspec⟩ := id hfollows
  have hcall := h.daemonCall
  have hhome : routeName s.config check true (some (toFakeName u b)) = b := by
    unfold routeName
    simp only [if_true, getBusFromFakeName_toFakeName h.unique]
  have hroute : routeRequest L.glob s.config msg s.clientExePath
      = .ok (.single b) := by
    rw [hcall.route hpass, route_byName hacc hcall hm hspec, hhome]
  obtain ⟨start, hbody⟩ := hacc.hasBody
  have hreadable : 4 ≤ msg.body.length := by
    rw [h.body, marshalAll_str, List.length_append, strBytes_length]
    omega
  obtain ⟨ws, s', hstep⟩ := hcall.handled (s := s) hz hacc
  cases downstream_of_ok hstep.2 with
  | reply hty hn hin =>
      exact absurd (answersCall_of_incoming hty hn hin)
        (not_answers_of_call hcall.call s)
  | toBoth _ hr =>
      rw [hroute] at hr
      cases hr
  | merge _ hr =>
      rw [hroute] at hr
      cases hr
  | @toBus target s₁ m raw _ hr htrack hto hraw =>
      rw [hroute] at hr
      cases hr
      obtain rfl := toUpstream_busName h.destination hto
      rw [rewriteRequestBody_eq hbody (.inr hreadable) h.destination,
        h.stripped hfollows] at hraw
      cases hraw
      refine ⟨_, _, hstep, start, ?_⟩
      unfold sentBody
      split
      · have hu : u.length < 2 ^ 32 := by
          have hlen := h.isStr.2.2
          rw [← fromFakeName_length (fromFakeName_toFakeName h.unique b)]
            at hlen
          omega
        rw [← stringBody_eq _ hu]
        exact hasBody_rebuilt hacc hbody _
      · exact hbody

/-- The bus is asked about the connection by its real name, with the other
arguments as they came. -/
def Session.AsksReal (L : Libs) (s : Session) (msg : Message) (u : Text)
    (b : Bus) (args : List Value) : Prop :=
  ∃ raw s', s.Step L (.client msg) [⟨.bus b, raw, msg.fds⟩] s'
    ∧ ∃ start, HasBody msg.header.endian raw start
      (marshalAll msg.header.endian 0 (.str u :: args))

/-- What is sent asks for the real name only if the method's name is rewritten
and there are no other arguments. -/
theorem sentBody_eq_iff (h : msg.AsksAbout u b args) :
    sentBody msg u = marshalAll msg.header.endian 0 (.str u :: args)
      ↔ msg.header.member.any needsRequestRewrite = true ∧ args = [] := by
  have hshorter := fromFakeName_length (fromFakeName_toFakeName h.unique b)
  have hlen := h.isStr.2.2
  have hvalid := h.valid
  rw [ValidAll] at hvalid
  have hnil := marshalAll_eq_nil hvalid.2
  unfold sentBody
  split
  next hneeds =>
    rw [marshalAll_str, List.self_eq_append_right, hnil]
    exact ⟨fun hargs => ⟨hneeds, hargs⟩, fun hboth => hboth.2⟩
  next hneeds =>
    constructor
    · intro hsame
      rw [h.body, marshalAll_str, marshalAll_str] at hsame
      have hstring := congrArg (stringIn msg.header.endian) hsame
      rw [stringIn_strBytes_append _ hlen,
        stringIn_strBytes_append _ (by omega)] at hstring
      exact absurd (Option.some.inj hstring) (toFakeName_ne h.unique b)
    · exact fun hboth => absurd hboth.1 hneeds

/-- A call that is routed by the prefix of a name reaches its bus about the
real name exactly when its method is one whose requests are rewritten and
the name is its only argument. -/
theorem names_delivered (hz : L.zvariant.FollowsSpec)
    (hpass : isHostpass L.glob s.config s.clientExePath = false)
    (hacc : msg.Accepted L.zvariant) (h : msg.AsksAbout u b args)
    (hfollows : msg.FollowsPrefix) :
    s.AsksReal L msg u b args
      ↔ msg.header.member.any needsRequestRewrite = true ∧ args = [] := by
  obtain ⟨raw, s', hstep, start, hsent⟩ :=
    asks_step (s := s) hz hpass hacc h hfollows
  rw [← sentBody_eq_iff h]
  constructor
  · rintro ⟨raw', s'', hstep', start', hbody'⟩
    have hsame := hstep'.2
    rw [hstep.2] at hsame
    cases hsame
    exact (hsent.unique hbody').2
  · intro hsame
    rw [hsame] at hsent
    exact ⟨raw, s', hstep, start, hsent⟩

end asks

-- ================================================================== one of each

/-- Who is the host's `:1.5`? -/
def credentialsOfShown : Message :=
  .daemonCall 7 "GetConnectionCredentials" ":h.1.5"

/-- The host is asked for the credentials of its own peer. -/
theorem credentials_delivered :
    (Session.new sandboxOnly none).AsksReal referenceLibs credentialsOfShown
      (utf8 ":1.5") .host [] :=
  (names_delivered (L := referenceLibs) Zvariant.reference_followsSpec rfl
    (by decide +kernel)
    ⟨rfl, rfl, rfl, by decide, by decide +kernel, by decide +kernel⟩
    ⟨_, false, rfl, by decide⟩).mpr ⟨by decide, rfl⟩

/-- The arguments of `StartServiceByName` behind the name. -/
def startFlags : List Value := [.fixed .uint32 0]

/-- Start the host's `:1.5`. -/
def startShown : Message :=
  .compose 1 7
    [(1, .objectPath (utf8 "/org/freedesktop/DBus")), (2, .str busName),
     (3, .str (utf8 "StartServiceByName")), (6, .str busName),
     (8, .signature [.str, .fixed .uint32])]
    (marshalAll .little 0 (.str (utf8 ":h.1.5") :: startFlags)) []

theorem startShown_asks :
    startShown.AsksAbout (utf8 ":1.5") .host startFlags :=
  ⟨rfl, rfl, rfl, by decide, by decide +kernel, by decide +kernel⟩

/-- The host is asked to start `:h.1.5`, a name that no bus has. -/
theorem start_not_delivered :
    startShown.Accepted .reference
    ∧ startShown.AsksAbout (utf8 ":1.5") .host startFlags
    ∧ startShown.FollowsPrefix
    ∧ ¬(Session.new sandboxOnly none).AsksReal referenceLibs startShown
      (utf8 ":1.5") .host startFlags := by
  have hacc : startShown.Accepted .reference := by decide +kernel
  have hfollows : startShown.FollowsPrefix := ⟨_, true, rfl, by decide⟩
  refine ⟨hacc, startShown_asks, hfollows, ?_⟩
  rintro ⟨raw, s', hstep, start, hbody⟩
  obtain ⟨raw', s'', hstep', start', hsent⟩ :=
    asks_step (L := referenceLibs) (s := Session.new sandboxOnly none)
      Zvariant.reference_followsSpec rfl hacc startShown_asks hfollows
  have hsame := hstep'.2
  rw [hstep.2] at hsame
  cases hsame
  have hbodies := (hsent.unique hbody).2
  rw [sentBody_eq_iff startShown_asks] at hbodies
  exact absurd hbodies.1 (by decide)

end DbusRouter.Model
