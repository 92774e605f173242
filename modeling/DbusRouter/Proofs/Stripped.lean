/-
Prefixes stripped from the bodies of requests.

Routing and body rewriting both read the first string of a request to the
bus daemon, and neither asks the other. They read it with different eyes:
routing looks at the table only when the INTERFACE is the bus daemon's,
takes no string that is not UTF-8, and believes the last sender of a match
rule; rewriting looks at the member alone, repairs the string, and
believes the first sender. `stripped_goes_home_iff` says when the two
still agree on a bus.
-/
import DbusRouter.Proofs.Framing

namespace DbusRouter.Model

open Wire Lib

-- ============================================================ what is stripped

/-- Forwarding the message takes the prefix of bus `b` out of the first
string of its body. -/
def Session.Strips (s : Session) (msg : Message) (b : Bus) : Prop :=
  ¬s.AnswersCall msg ∧ msg.header.destination = some busName
    ∧ ∃ old new, (stringIn msg.header.endian msg.body).map fromUtf8Lossy
        = some old
      ∧ stripFor msg.header.member old = some (new, b) ∧ new ≠ old

/-- What is written for a message to the bus daemon: the message itself, or
the message with its first string replaced. -/
theorem restringed_writes {L : Libs} {s s' : Session} {msg : Message}
    {ws : List Write} (hstep : s.Step L (.client msg) ws s')
    (hno : ¬s.AnswersCall msg) (hdest : msg.header.destination = some busName)
    {start : Nat} (hbody : HasBody msg.header.endian msg.raw start msg.body)
    (hreadable : msg.body.length = 0 ∨ 4 ≤ msg.body.length) :
    ws ≠ [] ∧ ∀ w ∈ ws,
      w.raw = restringed msg start (strippedString msg msg.body) := by
  cases downstream_of_ok hstep.2 with
  | reply hty hn hin =>
      exact absurd (answersCall_of_incoming hty hn hin) hno
  | @toBus target s₁ m raw _ _ _ hm hraw =>
      obtain rfl := toUpstream_busName hdest hm
      rw [rewriteRequestBody_eq hbody hreadable hdest] at hraw
      cases hraw
      refine ⟨List.cons_ne_nil _ _, ?_⟩
      intro w hw
      rw [List.mem_singleton] at hw
      rw [hw]
  | @toBoth s₁ raw _ hroute _ hraw =>
      obtain ⟨-, -, -, hmethod⟩ := routeRequest_of_not_single hroute (by simp)
      have hmember := member_of_both hmethod
      unfold bytesForBoth at hraw
      rw [if_pos hmember, matchRuleBodyOrOriginal_eq hbody hreadable] at hraw
      cases hraw
      refine ⟨List.cons_ne_nil _ _, ?_⟩
      intro w hw
      unfold strippedString
      rw [stripFor_of_matchRule hmember]
      rw [List.mem_cons, List.mem_singleton] at hw
      rcases hw with rfl | rfl <;> rfl
  | merge _ hroute =>
      obtain ⟨-, -, -, hmethod⟩ := routeRequest_of_not_single hroute (by simp)
      have hnone : strippedString msg msg.body = none := by
        unfold strippedString
        rw [Option.bind_eq_none_iff]
        exact fun text _ => stripFor_of_merge hmethod text
      refine ⟨List.cons_ne_nil _ _, ?_⟩
      intro w hw
      rw [hnone]
      rw [List.mem_cons, List.mem_singleton] at hw
      rcases hw with rfl | rfl <;> rfl

/-- The bytes are those of the message with the prefix of bus `b` taken out of
the first string of its body. -/
def Message.StrippedOf (msg : Message) (b : Bus) (raw : Bytes) : Prop :=
  ∃ old new start, (stringIn msg.header.endian msg.body).map fromUtf8Lossy
      = some old
    ∧ stripFor msg.header.member old = some (new, b) ∧ new ≠ old
    ∧ HasBody msg.header.endian msg.raw start msg.body
    ∧ raw = rebuilt msg.header.endian msg.raw start
        (stringBody msg.header.endian new)

/-- The prefix is taken out of all that is written. -/
theorem stripped_write {L : Libs} {s s' : Session} {msg : Message} {b : Bus}
    {ws : List Write} (hstep : s.Step L (.client msg) ws s')
    (h : s.Strips msg b) :
    ws ≠ [] ∧ ∀ w ∈ ws, msg.StrippedOf b w.raw := by
  have hacc : msg.Accepted L.zvariant := hstep.1
  obtain ⟨hno, hdest, old, new, hold, hstrip, hne⟩ := h
  obtain ⟨start, hbody⟩ := hacc.hasBody
  have hlong : 4 ≤ msg.body.length := by
    by_contra hshort
    rw [stringIn_of_short (by omega)] at hold
    cases hold
  obtain ⟨hwritten, hraw⟩ :=
    restringed_writes hstep hno hdest hbody (Or.inr hlong)
  have hstripped : strippedString msg msg.body = some (new, b) := by
    unfold strippedString
    rw [hold]
    exact hstrip
  refine ⟨hwritten, fun w hw => ?_⟩
  refine ⟨old, new, start, hold, hstrip, hne, hbody, ?_⟩
  rw [hraw w hw, hstripped]
  rfl

-- ============================================================= where it is sent

/-- The sender or the interface of a match rule leads to bus `b`: the
prefix of the sender, and without one a host route for the sender or for
the service of the interface. -/
def RuleLeads (config : Config) (info : MatchRuleInfo) (b : Bus) : Prop :=
  match info.sender.bind getBusFromFakeName with
  | some b' => b' = b
  | none => b = .host ∧ (info.sender.any config.shouldRouteToHost = true
      ∨ (info.interface.bind extractServiceFromInterface).any
          config.shouldRouteToHost = true)

theorem routeBySender_eq (config : Config) (sender : Option Text) :
    routeBySender config sender
      = match sender.bind getBusFromFakeName with
        | some b => some b
        | none => if sender.any config.shouldRouteToHost then some .host
            else none := by
  cases sender <;> rfl

theorem routeByInterface_eq (config : Config) (interface : Option Text) :
    routeByInterface config interface
      = if (interface.bind extractServiceFromInterface).any
          config.shouldRouteToHost then some .host else none := by
  unfold routeByInterface
  cases interface.bind extractServiceFromInterface <;> rfl

theorem routeMatchRule_eq_single_iff {config : Config} {rule : Text}
    {b : Bus} : routeMatchRule config rule = .single b
      ↔ RuleLeads config (parseMatchRule rule) b := by
  unfold routeMatchRule RuleLeads
  dsimp only
  rw [routeBySender_eq, routeByInterface_eq]
  cases (parseMatchRule rule).sender.bind getBusFromFakeName with
  | some b' => simp
  | none =>
      cases (parseMatchRule rule).sender.any config.shouldRouteToHost with
      | true =>
          simp only [if_true, RouteDecision.single.injEq, true_or, and_true]
          exact eq_comm
      | false =>
          cases ((parseMatchRule rule).interface.bind
              extractServiceFromInterface).any config.shouldRouteToHost with
          | true =>
              simp only [if_true, Bool.false_eq_true, if_false,
                RouteDecision.single.injEq, false_or, and_true]
              exact eq_comm
          | false => simp

/-- What sends a stripped request to the bus of its prefix. -/
def Message.StripsHome (config : Config) (msg : Message) (b : Bus) : Prop :=
  if msg.header.interface = some busName then
    match (stringIn msg.header.endian msg.body).bind fromUtf8 with
    | none => b = .sandbox
    | some text => msg.header.member.any needsRequestRewrite = true
        ∨ RuleLeads config (parseMatchRule text) b
  else
    b = if config.shouldRouteToHost busName then .host else .sandbox

section calls

variable {config : Config} {msg : Message} {b : Bus} {d : RouteDecision}
  {start : Nat} {member old new text : Text}

/-- A string that routing can read is not repaired by rewriting. -/
theorem old_of_read
    (hn : (stringIn msg.header.endian msg.body).bind fromUtf8 = some text)
    (hold : (stringIn msg.header.endian msg.body).map fromUtf8Lossy
      = some old) : old = text := by
  obtain ⟨bs, hs, hread⟩ := Option.bind_eq_some_iff.mp hn
  rw [hs] at hold
  cases hold
  unfold fromUtf8 at hread
  split at hread
  next hv =>
    cases hread
    exact fromUtf8Lossy_of_valid hv
  next => cases hread

/-- What is rewritten is a call about a name or a match rule. -/
theorem stripFor_member (hmember : msg.header.member = some member)
    (hstrip : stripFor msg.header.member old = some (new, b)) :
    (needsRequestRewrite member = true ∧ fromFakeName old = some (new, b))
      ∨ (needsRequestRewrite member = false
        ∧ isMatchRuleMember member = true) := by
  rw [hmember] at hstrip
  unfold stripFor at hstrip
  simp only [Option.any_some] at hstrip
  split at hstrip
  next hreq => exact Or.inl ⟨hreq, hstrip⟩
  next hreq =>
    split at hstrip
    next hrule => exact Or.inr ⟨by simpa using hreq, hrule⟩
    next => cases hstrip

/-- A call whose string cannot be read stays in the sandbox. -/
theorem unreadable_call
    (hbody : HasBody msg.header.endian msg.raw start msg.body)
    (hmember : msg.header.member = some member)
    (hkind : needsRequestRewrite member = true
      ∨ isMatchRuleMember member = true)
    (hn : (stringIn msg.header.endian msg.body).bind fromUtf8 = none)
    (hroute : routeDbusMethod config msg = .ok d) : d = .single .sandbox := by
  unfold routeDbusMethod Message.extractStringFromBody at hroute
  rw [hmember, Option.getD_some] at hroute
  rcases hkind with hreq | hrule
  · obtain ⟨check, hspec⟩ := allowFake_of_requestRewrite hreq
    simp only [hspec, extractNameFromBody_eq hbody, Outcome.ok_bind, hn]
      at hroute
    cases hroute
    rfl
  · obtain ⟨spec, hspec, hby⟩ := spec_of_matchRule hrule
    simp only [hspec, hby, extractNameFromBody_eq hbody, Outcome.ok_bind, hn]
      at hroute
    cases hroute
    rfl

/-- A call about a prefixed name goes to the bus of the prefix. -/
theorem nameCall_home
    (hbody : HasBody msg.header.endian msg.raw start msg.body)
    (hmember : msg.header.member = some member)
    (hreq : needsRequestRewrite member = true)
    (hn : (stringIn msg.header.endian msg.body).bind fromUtf8 = some text)
    (hfrom : fromFakeName text = some (new, b))
    (hroute : routeDbusMethod config msg = .ok d) : d = .single b := by
  obtain ⟨check, hspec⟩ := allowFake_of_requestRewrite hreq
  unfold routeDbusMethod at hroute
  rw [hmember, Option.getD_some] at hroute
  simp only [hspec, extractNameFromBody_eq hbody, Outcome.ok_bind, hn,
    routeName, if_true, getBusFromFakeName_of_fromFakeName hfrom] at hroute
  cases hroute
  rfl

/-- A rule goes to bus `b` alone when it leads there. -/
theorem ruleCall_single_iff
    (hbody : HasBody msg.header.endian msg.raw start msg.body)
    (hmember : msg.header.member = some member)
    (hrule : isMatchRuleMember member = true)
    (hn : (stringIn msg.header.endian msg.body).bind fromUtf8 = some text)
    (hroute : routeDbusMethod config msg = .ok d) :
    d = .single b ↔ RuleLeads config (parseMatchRule text) b := by
  obtain ⟨spec, hspec, hby⟩ := spec_of_matchRule hrule
  unfold routeDbusMethod Message.extractStringFromBody at hroute
  rw [hmember, Option.getD_some] at hroute
  simp only [hspec, hby, extractNameFromBody_eq hbody, Outcome.ok_bind, hn]
    at hroute
  cases hroute
  exact routeMatchRule_eq_single_iff

/-- Routing sends a stripped request to the bus of its prefix exactly when
`StripsHome` has it. -/
theorem routeRequest_stripped_iff {glob : Glob} {exe : Option Bytes}
    (hbody : HasBody msg.header.endian msg.raw start msg.body)
    (hpass : isHostpass glob config exe = false)
    (hdest : msg.header.destination = some busName)
    (hold : (stringIn msg.header.endian msg.body).map fromUtf8Lossy
      = some old)
    (hstrip : stripFor msg.header.member old = some (new, b))
    (hroute : routeRequest glob config msg exe = .ok d) :
    d = .single b ↔ msg.StripsHome config b := by
  have hfake : (some busName).bind getBusFromFakeName = none := by decide
  unfold routeRequest at hroute
  rw [hpass, if_neg Bool.false_ne_true, hdest, hfake] at hroute
  simp only [true_and, Option.any_some] at hroute
  unfold Message.StripsHome
  by_cases hif : msg.header.interface = some busName
  · rw [if_pos hif] at hroute ⊢
    cases hmember : msg.header.member with
    | none =>
        rw [hmember] at hstrip
        cases hstrip
    | some member =>
        have hkind := stripFor_member hmember hstrip
        cases hn : (stringIn msg.header.endian msg.body).bind fromUtf8 with
        | none =>
            rw [unreadable_call hbody hmember
              (hkind.imp And.left And.right) hn hroute]
            simp only [RouteDecision.single.injEq]
            exact eq_comm
        | some text =>
            obtain rfl := old_of_read hn hold
            rcases hkind with ⟨hreq, hfrom⟩ | ⟨hreq, hrule⟩
            · rw [nameCall_home hbody hmember hreq hn hfrom hroute]
              simp [hreq]
            · simp only [Option.any_some, hreq, Bool.false_eq_true, false_or]
              exact ruleCall_single_iff hbody hmember hrule hn hroute
  · rw [if_neg hif] at hroute ⊢
    split at hroute
    next hhost =>
      cases hroute
      rw [if_pos hhost, RouteDecision.single.injEq]
      exact eq_comm
    next hhost =>
      cases hroute
      rw [if_neg hhost, RouteDecision.single.injEq]
      exact eq_comm

end calls

-- ================================================================ the request

/-- Every request with a stripped prefix is written to the bus of the
prefix alone. -/
def StrippedGoesHome : Prop :=
  ∀ (L : Libs) (s s' : Session) (msg : Message) (b : Bus)
    (ws : List Write),
    isHostpass L.glob s.config s.clientExePath = false →
    s.Step L (.client msg) ws s' → s.Strips msg b →
    ws.map Write.peer = [.bus b]

/-- A request with a prefix to strip is written without it, and to the bus of
the prefix alone exactly when routing finds that bus in what it reads. -/
theorem stripped_goes_home_iff {L : Libs} {s s' : Session} {msg : Message}
    {b : Bus} {ws : List Write}
    (hpass : isHostpass L.glob s.config s.clientExePath = false)
    (hstep : s.Step L (.client msg) ws s') (hstrips : s.Strips msg b) :
    (ws ≠ [] ∧ ∀ w ∈ ws, msg.StrippedOf b w.raw)
      ∧ (ws.map Write.peer = [.bus b] ↔ msg.StripsHome s.config b) := by
  refine ⟨stripped_write hstep hstrips, ?_⟩
  obtain ⟨hacc, hok⟩ := hstep
  have hacc : msg.Accepted L.zvariant := hacc
  obtain ⟨hno, hdest, old, new, hold, hstrip, -⟩ := hstrips
  obtain ⟨start, hbody⟩ := hacc.hasBody
  have hiff : ∀ {d}, routeRequest L.glob s.config msg s.clientExePath = .ok d →
      (d = .single b ↔ msg.StripsHome s.config b) :=
    routeRequest_stripped_iff hbody hpass hdest hold hstrip
  cases downstream_of_ok hok with
  | reply hty hn hin => exact absurd (answersCall_of_incoming hty hn hin) hno
  | toBus _ hroute =>
      rw [← hiff hroute]
      simp
  | toBoth _ hroute =>
      rw [← hiff hroute]
      simp
  | merge _ hroute =>
      rw [← hiff hroute]
      simp

-- ========================================================== with and without

/-- `NameHasOwner` without an INTERFACE, which a call may leave out. -/
def bareQuery : Message :=
  .compose 1 7
    [(1, .objectPath (utf8 "/org/freedesktop/DBus")),
     (3, .str (utf8 "NameHasOwner")), (6, .str busName),
     (8, .signature [.str])]
    (strBytes .little (utf8 ":h.1.5")) []

theorem strips_query {s : Session} {msg : Message}
    (hty : msg.header.msgType = .methodCall)
    (hdest : msg.header.destination = some busName)
    (hmember : msg.header.member = some (utf8 "NameHasOwner"))
    (hstring : stringIn msg.header.endian msg.body = some (utf8 ":h.1.5")) :
    s.Strips msg .host := by
  refine ⟨?_, hdest, utf8 ":h.1.5", utf8 ":1.5", ?_, ?_, by decide⟩
  · rintro ⟨hr | he, -⟩
    · rw [hty] at hr
      cases hr
    · rw [hty] at he
      cases he
  · rw [hstring]
    rfl
  · rw [hmember]
    decide

/-- The sandbox is asked about its own `:1.5` in place of the host's. -/
theorem stripped_goes_astray : ¬StrippedGoesHome := by
  intro h
  have hws := h referenceLibs (Session.new sandboxOnly none) _ bareQuery .host
    _ rfl (step_react (by decide +kernel) (by decide +kernel))
    (strips_query rfl rfl rfl (by decide +kernel))
  revert hws
  decide +kernel

/-- The same query with its INTERFACE. -/
def fullQuery : Message := .daemonCall 7 "NameHasOwner" ":h.1.5"

/-- With the INTERFACE the host is asked. -/
theorem stripped_goes_home_query :
    ((Session.new sandboxOnly none).react referenceLibs
      (.client fullQuery)).2.map Write.peer = [.bus .host] := by
  refine (stripped_goes_home_iff (L := referenceLibs) rfl
    (step_react (by decide +kernel) (by decide +kernel))
    (strips_query rfl rfl rfl (by decide +kernel))).2.mpr ?_
  have hname : (stringIn fullQuery.header.endian fullQuery.body).bind fromUtf8
      = some (utf8 ":h.1.5") := by
    decide +kernel
  have hinterface : fullQuery.header.interface = some busName := by
    decide +kernel
  unfold Message.StripsHome
  rw [if_pos hinterface, hname]
  exact Or.inl (by decide)

end DbusRouter.Model
