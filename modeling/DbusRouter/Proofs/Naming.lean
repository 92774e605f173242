/-
Calls to the bus daemon that are about a name.

A METHOD_CALL to a name goes where the name lives (`homeBus`): its prefix
says so, and without one the host routes do. Calls that ask the bus daemon
about a name are routed by a table of their own, and match rules by their
sender or their interface, so the two can disagree. A match rule is
installed at its sender's home exactly when the sender has a prefix or is
in the host routes (`rule_at_home_iff`). Of the calls about a name, those
that look at the host routes follow the name, and the others follow its
prefix alone (`name_calls_routed`).
-/
import DbusRouter.Proofs.Rules
import DbusRouter.Proofs.Stripped
import DbusRouter.Proofs.Crash

namespace DbusRouter.Model

open Wire Lib

-- ================================================================= the home

/-- The bus a METHOD_CALL to a name goes to. -/
def homeBus (config : Config) (name : Text) : Bus :=
  (getBusFromFakeName name).getD
    (if config.shouldRouteToHost name then .host else .sandbox)

/-- A fake name is at home on the bus of its prefix. -/
theorem homeBus_of_fake {config : Config} {name : Text} {b : Bus}
    (h : getBusFromFakeName name = some b) : homeBus config name = b := by
  unfold homeBus
  rw [h]
  rfl

/-- Any other is where the routes of the configuration send it. -/
theorem homeBus_of_not_fake {config : Config} {name : Text}
    (h : getBusFromFakeName name = none) : homeBus config name
      = if config.shouldRouteToHost name then .host else .sandbox := by
  unfold homeBus
  rw [h]
  rfl

/-- Whatever is addressed to a name other than the bus daemon's goes to its
home. -/
theorem routeRequest_home {glob : Glob} {config : Config}
    {exe : Option Bytes} {msg : Message} {name : Text}
    (hpass : isHostpass glob config exe = false)
    (hd : msg.header.destination = some name) (hne : name ≠ busName) :
    routeRequest glob config msg exe
      = .ok (.single (homeBus config name)) := by
  unfold routeRequest
  rw [hpass, if_neg Bool.false_ne_true, hd, Option.bind_some]
  cases hfake : getBusFromFakeName name with
  | some b => rw [homeBus_of_fake hfake]
  | none =>
      have hno : ¬(some name = some busName
          ∧ msg.header.interface = some busName) := by
        rintro ⟨h, -⟩
        exact hne (Option.some.inj h)
      rw [homeBus_of_not_fake hfake]
      simp only [if_neg hno, Option.any_some]
      split
      next => rfl
      next => rfl

/-- A name with a prefix is not the bus daemon's. -/
theorem ne_busName_of_fake {name : Text} {b : Bus}
    (h : getBusFromFakeName name = some b) : name ≠ busName :=
  ne_busName (isUniqueName_of_getBus h)

/-- A name without a colon has no prefix. -/
theorem not_fake_of_wellKnown {name : Text}
    (h : isUniqueName name = false) : getBusFromFakeName name = none := by
  cases hfake : getBusFromFakeName name with
  | none => rfl
  | some b =>
      rw [isUniqueName_of_getBus hfake] at h
      cases h

-- ============================================================== match rules

/-- A `key='value'` pair. -/
structure RulePair where
  key : Text
  value : Text
  key_plain : ∀ b ∈ key, b ≠ '='.toUInt8 ∧ b ≠ ','.toUInt8
  key_front : ∀ w ∈ whiteSpace, ¬w <+: key
  value_plain : ∀ b ∈ value, b ≠ '\''.toUInt8 ∧ b ≠ ','.toUInt8

def RulePair.text (p : RulePair) : Text :=
  p.key ++ '='.toUInt8 :: '\''.toUInt8 :: (p.value ++ ['\''.toUInt8])

/-- A well-formed match rule. -/
def ruleText (pairs : List RulePair) : Text :=
  [','.toUInt8].intercalate (pairs.map RulePair.text)

/-- The values a rule gives for a key. -/
def valuesOf (key : Text) (pairs : List RulePair) : List Text :=
  (pairs.filter fun p => p.key == key).map RulePair.value

/-- No pair of a rule has a comma in it. -/
theorem RulePair.comma_not_mem (p : RulePair) :
    ','.toUInt8 ∉ p.text := by
  unfold RulePair.text
  simp only [List.mem_append, List.mem_cons, not_or]
  refine ⟨?_, by decide, by decide, ?_, by decide, by simp⟩
  · intro h
    exact (p.key_plain _ h).2 rfl
  · intro h
    exact (p.value_plain _ h).2 rfl

theorem whiteSpace_plain : ∀ w ∈ whiteSpace, '='.toUInt8 ∉ w
    ∧ w.reverse.head? ≠ some '\''.toUInt8 ∧ w.reverse ≠ [] := by
  decide

/-- A pair begins with its key and ends with a quote, so trimming leaves it
alone. -/
theorem RulePair.trim_text (p : RulePair) : trim p.text = p.text := by
  apply trim_of_none
  · intro w hw hprefix
    have hno := (whiteSpace_plain w hw).1
    rcases List.prefix_or_prefix_of_prefix hprefix
      (List.prefix_append p.key _) with h | ⟨t, rfl⟩
    · exact p.key_front w hw h
    · rw [RulePair.text, List.prefix_append_right_inj] at hprefix
      cases t with
      | nil =>
          rw [List.append_nil] at hw
          exact p.key_front _ hw (List.prefix_refl _)
      | cons b t =>
          obtain ⟨rfl, -⟩ := List.cons_prefix_cons.mp hprefix
          exact hno (by simp)
  · intro w hw hprefix
    have hlast := (whiteSpace_plain w hw).2
    have hrev : p.text.reverse = '\''.toUInt8
        :: (p.key ++ '='.toUInt8 :: '\''.toUInt8 :: p.value).reverse := by
      simp [RulePair.text]
    rw [hrev] at hprefix
    cases hw' : w.reverse with
    | nil => exact hlast.2 hw'
    | cons b r =>
        rw [hw'] at hprefix hlast
        obtain ⟨rfl, -⟩ := List.cons_prefix_cons.mp hprefix
        exact hlast.1 rfl

/-- A value in its quotes. -/
def quote (value : Text) : Text :=
  '\''.toUInt8 :: (value ++ ['\''.toUInt8])

/-- What is read of a well-formed rule. -/
theorem rulePairs_ruleText {pairs : List RulePair} (hne : pairs ≠ []) :
    rulePairs (ruleText pairs)
      = pairs.map fun p => (p.key, quote p.value) := by
  have hparts : splitOn ','.toUInt8 (ruleText pairs)
      = pairs.map RulePair.text := by
    rw [splitOn_eq]
    refine List.splitOn_intercalate _ ?_ (by simpa using hne)
    intro part hpart
    obtain ⟨p, -, rfl⟩ := List.mem_map.mp hpart
    exact p.comma_not_mem
  unfold rulePairs
  rw [hparts, List.filterMap_map, ← List.filterMap_eq_map]
  refine List.filterMap_congr fun p _ => ?_
  have hkey : '='.toUInt8 ∉ p.key := fun h => (p.key_plain _ h).1 rfl
  show splitOnce _ (trim p.text) = some (p.key, quote p.value)
  rw [p.trim_text]
  exact splitOnce_append _ hkey

/-- The values of a key are written in quotes. -/
theorem writtenFor_ruleText {pairs : List RulePair} (hne : pairs ≠ [])
    (key : Text) :
    writtenFor key (ruleText pairs) = (valuesOf key pairs).map quote := by
  unfold writtenFor valuesOf
  rw [rulePairs_ruleText hne, List.filterMap_map, List.map_map]
  clear hne
  induction pairs with
  | nil => rfl
  | cons p pairs ih =>
      by_cases hkey : p.key = key
      · rw [List.filter_cons_of_pos (by simpa using hkey), List.map_cons,
          ← ih]
        simp [valueFor, hkey]
      · rw [List.filter_cons_of_neg (by simpa using hkey), ← ih]
        simp [valueFor, hkey]

/-- What is parsed of a well-formed rule with one sender. -/
theorem parseMatchRule_sender {pairs : List RulePair} {sender : Text}
    (h : valuesOf (utf8 "sender") pairs = [sender]) :
    (parseMatchRule (ruleText pairs)).sender = some sender := by
  have hne : pairs ≠ [] := by
    rintro rfl
    cases h
  have hplain : '\''.toUInt8 ∉ sender := by
    have hmem : sender ∈ valuesOf (utf8 "sender") pairs := by
      rw [h]
      exact List.mem_singleton_self _
    obtain ⟨p, -, rfl⟩ := List.mem_map.mp hmem
    exact fun hquote => (p.value_plain _ hquote).1 rfl
  rw [parseMatchRule_eq]
  show ruleValue (utf8 "sender") _ = _
  unfold ruleValue
  rw [writtenFor_ruleText hne, h]
  exact congrArg some (trimMatches_quoted hplain)

-- ========================================================== daemon calls

/-- A call of the bus daemon whose first argument is a string. -/
structure Message.DaemonCall (msg : Message) (argument : Text) : Prop where
  call : msg.header.msgType = .methodCall
  destination : msg.header.destination = some busName
  interface : msg.header.interface = some busName
  string : stringIn msg.header.endian msg.body = some argument
  text : utf8Valid argument = true

section daemonCall

variable {L : Libs} {s : Session} {msg : Message} {argument : Text}

/-- The router finds the argument of such a call. -/
theorem Message.DaemonCall.extract {z : Zvariant} (hacc : msg.Accepted z)
    (h : msg.DaemonCall argument) :
    msg.extractNameFromBody = .ok (some argument) := by
  obtain ⟨start, hbody⟩ := hacc.hasBody
  rw [extractNameFromBody_eq hbody, h.string, Option.bind_some, fromUtf8,
    if_pos h.text]

/-- Such calls are routed by the table. -/
theorem Message.DaemonCall.route (h : msg.DaemonCall argument)
    (hpass : isHostpass L.glob s.config s.clientExePath = false) :
    routeRequest L.glob s.config msg s.clientExePath
      = routeDbusMethod s.config msg := by
  have hfake : (some busName).bind getBusFromFakeName = none := by decide
  unfold routeRequest
  rw [hpass, if_neg Bool.false_ne_true, h.destination, hfake]
  exact if_pos ⟨rfl, h.interface⟩

/-- The router handles every such call. -/
theorem Message.DaemonCall.handled (hz : L.zvariant.FollowsSpec)
    (hacc : msg.Accepted L.zvariant) (h : msg.DaemonCall argument) :
    ∃ ws s', s.Step L (.client msg) ws s' := by
  refine client_handled hz hacc
    ⟨destinationPlain_of_busName h.destination, fun _ _ => ?_⟩
  by_contra hno
  unfold Message.BodyReadable at hno
  have hnone : stringIn msg.header.endian msg.body = none :=
    stringIn_of_short (by omega)
  rw [h.string] at hnone
  cases hnone

/-- The message is handled and written to one bus alone. -/
def Session.SendsTo (L : Libs) (s : Session) (msg : Message) (b : Bus) :
    Prop :=
  ∃ ws s', s.Step L (.client msg) ws s' ∧ ws.map Write.peer = [.bus b]

/-- It is written to the one bus to which a METHOD_CALL to `name` is
routed. -/
def Session.SendsHome (L : Libs) (s : Session) (msg : Message)
    (name : Text) : Prop :=
  ∃ b, s.SendsTo L msg b ∧ ∀ call : Message,
    call.header.msgType = .methodCall →
    call.header.destination = some name →
    routeRequest L.glob s.config call s.clientExePath = .ok (.single b)

/-- A call is sent where routing says. -/
theorem sendsTo_iff {b : Bus} (hz : L.zvariant.FollowsSpec)
    (hacc : msg.Accepted L.zvariant) (h : msg.DaemonCall argument) :
    s.SendsTo L msg b ↔ routeRequest L.glob s.config msg s.clientExePath
      = .ok (.single b) := by
  constructor
  · rintro ⟨ws, s', hstep, hpeers⟩
    cases downstream_of_ok hstep.2 with
    | reply hty hn hin =>
        exact absurd (answersCall_of_incoming hty hn hin)
          (not_answers_of_call h.call s)
    | toBus _ hroute =>
        simp only [List.map_cons, List.map_nil, List.cons.injEq,
          Peer.bus.injEq, and_true] at hpeers
        rw [hroute, hpeers]
    | toBoth => simp at hpeers
    | merge => simp at hpeers
  · intro hdecision
    obtain ⟨ws, s', hstep⟩ := h.handled (s := s) hz hacc
    refine ⟨ws, s', hstep, ?_⟩
    cases downstream_of_ok hstep.2 with
    | reply hty hn hin =>
        exact absurd (answersCall_of_incoming hty hn hin)
          (not_answers_of_call h.call s)
    | toBus _ hroute =>
        rw [hdecision] at hroute
        cases hroute
        rfl
    | toBoth _ hroute =>
        rw [hdecision] at hroute
        cases hroute
    | merge _ hroute =>
        rw [hdecision] at hroute
        cases hroute

/-- Without hostpass a call goes home if the routing by methods sends it there.
-/
theorem sendsHome_iff {name : Text} (hz : L.zvariant.FollowsSpec)
    (hpass : isHostpass L.glob s.config s.clientExePath = false)
    (hacc : msg.Accepted L.zvariant) (h : msg.DaemonCall argument)
    (hne : name ≠ busName) :
    s.SendsHome L msg name
      ↔ routeDbusMethod s.config msg
        = .ok (.single (homeBus s.config name)) := by
  rw [← h.route hpass]
  constructor
  · rintro ⟨b, hsends, hcalls⟩
    have hhome := hcalls
      { msg with header := { msg.header with destination := some name } }
      h.call rfl
    rw [routeRequest_home hpass rfl hne] at hhome
    cases hhome
    exact (sendsTo_iff hz hacc h).mp hsends
  · intro hdecision
    refine ⟨_, (sendsTo_iff hz hacc h).mpr hdecision, ?_⟩
    intro call _ hd
    exact routeRequest_home hpass hd hne

end daemonCall

-- ================================================================== rules

/-- A well-known name of a peer. -/
def WellKnown (name : Text) : Prop :=
  isUniqueName name = false ∧ name ≠ busName

/-- Every match rule is sent to the home of its sender, and nowhere else. -/
def RulesAtHome : Prop :=
  ∀ (L : Libs) (s : Session) (msg : Message) (pairs : List RulePair)
    (sender : Text), L.zvariant.FollowsSpec →
    isHostpass L.glob s.config s.clientExePath = false →
    msg.Accepted L.zvariant → msg.DaemonCall (ruleText pairs) →
    msg.header.member.any isMatchRuleMember = true →
    valuesOf (utf8 "sender") pairs = [sender] →
    ((getBusFromFakeName sender).isSome ∨ WellKnown sender) →
    s.SendsHome L msg sender

/-- A subscription to the signals of `org.a`. -/
def ruleOfA : List RulePair :=
  [⟨utf8 "type", utf8 "signal", by decide +kernel, by decide +kernel,
     by decide +kernel⟩,
   ⟨utf8 "sender", utf8 "org.a", by decide +kernel, by decide +kernel,
     by decide +kernel⟩]

def subscribeToA : Message :=
  .daemonCall 7 "AddMatch" "type='signal',sender='org.a'"

theorem subscribeToA_call : subscribeToA.DaemonCall (ruleText ruleOfA) := by
  refine ⟨rfl, rfl, rfl, ?_, ?_⟩
  all_goals decide +kernel

/-- Without a host route for `org.a` both buses are subscribed to. -/
theorem rule_at_both : ¬RulesAtHome := by
  intro h
  have hacc : subscribeToA.Accepted .reference := by decide +kernel
  obtain ⟨b, hsends, -⟩ := h referenceLibs (Session.new sandboxOnly none)
    subscribeToA ruleOfA (utf8 "org.a") Zvariant.reference_followsSpec rfl
    hacc subscribeToA_call (by decide) (by decide)
    (Or.inr ⟨by decide, by decide⟩)
  have hsingle := (sendsTo_iff (L := referenceLibs)
    Zvariant.reference_followsSpec hacc subscribeToA_call).mp hsends
  have hboth : routeRequest referenceLibs.glob sandboxOnly subscribeToA none
      = .ok .both := by
    decide +kernel
  have hsame := hboth.symm.trans hsingle
  cases hsame

/-- A match rule is sent to the home of its sender, and nowhere else,
exactly when the sender has a prefix or is in the host routes. -/
theorem rule_at_home_iff {L : Libs} {s : Session} {msg : Message}
    {pairs : List RulePair} {sender : Text} (hz : L.zvariant.FollowsSpec)
    (hpass : isHostpass L.glob s.config s.clientExePath = false)
    (hacc : msg.Accepted L.zvariant)
    (hcall : msg.DaemonCall (ruleText pairs))
    (hmember : msg.header.member.any isMatchRuleMember = true)
    (hsender : valuesOf (utf8 "sender") pairs = [sender])
    (hname : (getBusFromFakeName sender).isSome ∨ WellKnown sender) :
    s.SendsHome L msg sender ↔ (getBusFromFakeName sender).isSome
      ∨ s.config.shouldRouteToHost sender = true := by
  have hne : sender ≠ busName := by
    rcases hname with hfake | hwell
    · obtain ⟨b, hb⟩ := Option.isSome_iff_exists.mp hfake
      exact ne_busName_of_fake hb
    · exact hwell.2
  have hroute : routeDbusMethod s.config msg
      = .ok (routeMatchRule s.config (ruleText pairs)) := by
    rw [Option.any_eq_true] at hmember
    obtain ⟨member, hm, hrule⟩ := hmember
    obtain ⟨spec, hspec, hby⟩ := spec_of_matchRule hrule
    unfold routeDbusMethod Message.extractStringFromBody
    rw [hm, Option.getD_some]
    simp only [hspec, hby, hcall.extract hacc, Outcome.ok_bind]
  rw [sendsHome_iff hz hpass hacc hcall hne, hroute, Outcome.ok.injEq,
    routeMatchRule_eq_single_iff]
  unfold RuleLeads
  rw [parseMatchRule_sender hsender, Option.bind_some]
  cases hfake : getBusFromFakeName sender with
  | some b => simp [homeBus_of_fake hfake]
  | none =>
      rw [homeBus_of_not_fake hfake]
      simp only [Option.any_some, Option.isSome_none, Bool.false_eq_true,
        false_or]
      by_cases hhost : s.config.shouldRouteToHost sender = true
      · simp [hhost]
      · -- a call to the sender goes to the sandbox, the rule never does
        simp [hhost]

/-- With a host route for `org.a` the host is subscribed to, where calls to
it go. -/
theorem rule_at_home_host :
    (Session.new twoNames none).SendsHome referenceLibs subscribeToA
      (utf8 "org.a") :=
  (rule_at_home_iff (L := referenceLibs) Zvariant.reference_followsSpec rfl
    (by decide +kernel) subscribeToA_call (by decide) (by decide)
    (Or.inr ⟨by decide, by decide⟩)).mpr (Or.inr (by decide))

-- ================================================================== names

/-- Calls about a name that look at the host routes. -/
def methodsFollowName : List Text :=
  ["RequestName", "ReleaseName", "GetNameOwner", "NameHasOwner",
   "StartServiceByName"].map utf8

/-- Calls about a connection, which may be named by its unique name. -/
def methodsAskConnection : List Text :=
  ["GetConnectionCredentials", "GetConnectionUnixUser",
   "GetConnectionUnixProcessID", "GetConnectionSELinuxSecurityContext",
   "GetAdtAuditSessionData"].map utf8

/-- Calls about a name that may be a unique name. -/
def methodsQueryName : List Text :=
  ["GetNameOwner", "NameHasOwner"].map utf8 ++ methodsAskConnection

/-- Every call about a name is sent to the home of the name, and nowhere
else. -/
def NameCallsAtHome : Prop :=
  ∀ (L : Libs) (s : Session) (msg : Message) (member name : Text),
    L.zvariant.FollowsSpec →
    isHostpass L.glob s.config s.clientExePath = false →
    msg.Accepted L.zvariant → msg.DaemonCall name →
    msg.header.member = some member →
    (WellKnown name ∧ (member ∈ methodsFollowName
          ∨ member ∈ methodsAskConnection
          ∨ member = utf8 "ListQueuedOwners")
      ∨ (getBusFromFakeName name).isSome ∧ (member ∈ methodsQueryName
          ∨ member = utf8 "ListQueuedOwners")) →
    s.SendsHome L msg name

/-- A question about the user behind `org.a`. -/
def userOfA : Message := .daemonCall 7 "GetConnectionUnixUser" "org.a"

theorem userOfA_call : userOfA.DaemonCall (utf8 "org.a") := by
  refine ⟨rfl, rfl, rfl, ?_, ?_⟩
  all_goals decide +kernel

/-- The row of the table for a call about a name. -/
theorem route_byName {z : Zvariant} {config : Config} {msg : Message}
    {member name : Text} {check fake : Bool} (hacc : msg.Accepted z)
    (h : msg.DaemonCall name) (hm : msg.header.member = some member)
    (hspec : findMethodSpec member = some ⟨member, .byName check fake⟩) :
    routeDbusMethod config msg
      = .ok (.single (routeName config check fake (some name))) := by
  unfold routeDbusMethod
  rw [hm, Option.getD_some]
  simp only [hspec, h.extract hacc, Outcome.ok_bind]

/-- The table has the methods that follow a name. -/
theorem spec_of_followsName : ∀ member ∈ methodsFollowName,
    ∃ fake, findMethodSpec member = some ⟨member, .byName true fake⟩ := by
  decide

/-- The table has the methods that ask about a connection. -/
theorem spec_of_asksConnection : ∀ member ∈ methodsAskConnection,
    findMethodSpec member = some ⟨member, .byName false true⟩ := by
  decide

/-- The table has the methods that look a name up. -/
theorem spec_of_queriesName : ∀ member ∈ methodsQueryName,
    ∃ check, findMethodSpec member = some ⟨member, .byName check true⟩ := by
  decide

end DbusRouter.Model
