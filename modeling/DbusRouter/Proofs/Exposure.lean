/-
What a sandboxed client can reach on the host.

`ForHost` is the policy, read off the configuration and the message alone:
what is addressed to a name on the host, what asks the bus daemon about such
a name, match rules unless their sender is a connection of the sandbox, and
the lists of names. Without a reply to a call, a message is routed to the
host exactly when the policy has it (`forHost_iff`, the table of the daemon's
methods gone through once). A reply goes there when the call it answers came
from there, and such calls only come to names the client has requested under
the policy (`host_exposure`).

Messages from a bus are written to the client alone, so nothing travels from
one bus to the other but by the client.
-/
import DbusRouter.Proofs.Naming
import DbusRouter.Proofs.Presented
import DbusRouter.Proofs.Services

namespace DbusRouter.Model

open Wire Lib

-- ================================================================== the policy

/-- A message the router looks into: to the bus daemon, with the
interface. -/
def Message.ToDaemon (msg : Message) : Prop :=
  msg.header.destination = some busName
    ∧ msg.header.interface = some busName

instance (msg : Message) : Decidable msg.ToDaemon :=
  inferInstanceAs (Decidable (_ ∧ _))

/-- Calls that own a name or give it back. -/
def methodsOwnName : List Text := ["RequestName", "ReleaseName"].map utf8

/-- Calls that look a name up. -/
def methodsLookUpName : List Text :=
  ["GetNameOwner", "NameHasOwner", "StartServiceByName"].map utf8

/-- Calls that list names. -/
def methodsListNames : List Text :=
  ["ListNames", "ListActivatableNames"].map utf8

/-- Calls that take a match rule. -/
def methodsMatchRule : List Text := ["AddMatch", "RemoveMatch"].map utf8

/-- What the configuration lets a client that is no hostpass client send to
the host. -/
inductive Message.ForHost (config : Config) (msg : Message) : Prop
  /-- addressed to a name whose home is the host -/
  | addressed {name : Text} (hd : msg.header.destination = some name)
      (hnot : ¬msg.ToDaemon) (hhome : homeBus config name = .host)
  /-- owns a name of a host route -/
  | owns {member name : Text} (hd : msg.ToDaemon)
      (hm : msg.header.member = some member) (hin : member ∈ methodsOwnName)
      (hname : msg.firstString = some name)
      (hroute : config.shouldRouteToHost name = true)
  /-- looks up a name whose home is the host -/
  | looksUp {member name : Text} (hd : msg.ToDaemon)
      (hm : msg.header.member = some member)
      (hin : member ∈ methodsLookUpName)
      (hname : msg.firstString = some name)
      (hhome : homeBus config name = .host)
  /-- asks about a connection of the host -/
  | asks {member name : Text} (hd : msg.ToDaemon)
      (hm : msg.header.member = some member)
      (hin : member ∈ methodsAskConnection)
      (hname : msg.firstString = some name)
      (hfake : getBusFromFakeName name = some .host)
  /-- subscribes, unless to a connection of the sandbox -/
  | subscribes {member rule : Text} (hd : msg.ToDaemon)
      (hm : msg.header.member = some member)
      (hin : member ∈ methodsMatchRule)
      (hrule : msg.firstString = some rule)
      (hsender : (parseMatchRule rule).sender.bind getBusFromFakeName
        ≠ some .sandbox)
  /-- lists names -/
  | lists {member : Text} (hd : msg.ToDaemon)
      (hm : msg.header.member = some member)
      (hin : member ∈ methodsListNames)

/-- A decision that has the host in it. -/
def RouteDecision.reachesHost : RouteDecision → Bool
  | .single b => b == .host
  | .both => true
  | .merge => true

-- =================================================================== the table

theorem routeName_own (config : Config) (name : Text) :
    routeName config true false (some name) = .host
      ↔ config.shouldRouteToHost name = true := by
  simp only [routeName, Bool.false_eq_true, if_false, Bool.true_and]
  split
  next h => simp [h]
  next h => simp [h]

theorem routeName_lookUp (config : Config) (name : Text) :
    routeName config true true (some name) = .host
      ↔ homeBus config name = .host := by
  simp only [routeName, if_true, Bool.true_and]
  cases hfake : getBusFromFakeName name with
  | some b => rw [homeBus_of_fake hfake]
  | none => rw [homeBus_of_not_fake hfake]

theorem routeName_ask (config : Config) (name : Text) :
    routeName config false true (some name) = .host
      ↔ getBusFromFakeName name = some .host := by
  simp only [routeName, if_true, Bool.false_and, Bool.false_eq_true,
    if_false]
  cases getBusFromFakeName name with
  | some b => simp
  | none => simp

/-- A match rule reaches the host unless its sender is a connection of the
sandbox: if nothing in it decides, it goes to both. -/
theorem routeMatchRule_reachesHost (config : Config) (rule : Text) :
    (routeMatchRule config rule).reachesHost = true
      ↔ (parseMatchRule rule).sender.bind getBusFromFakeName
        ≠ some .sandbox := by
  have hinterface : ∀ b, routeByInterface config
      (parseMatchRule rule).interface = some b → b = .host := by
    intro b h
    unfold routeByInterface at h
    obtain ⟨service, -, h⟩ := Option.bind_eq_some_iff.mp h
    split at h
    next => exact (Option.some.inj h).symm
    next => cases h
  unfold routeMatchRule
  simp only
  cases hsender : (parseMatchRule rule).sender with
  | none =>
      simp only [routeBySender, Option.bind_none]
      cases hi : routeByInterface config (parseMatchRule rule).interface with
      | none => simp [RouteDecision.reachesHost]
      | some b => simp [RouteDecision.reachesHost, hinterface b hi]
  | some sender =>
      simp only [routeBySender, Option.bind_some]
      cases hfake : getBusFromFakeName sender with
      | some b => cases b <;> simp [RouteDecision.reachesHost]
      | none =>
          by_cases hroute : config.shouldRouteToHost sender = true
          · simp [hroute, RouteDecision.reachesHost]
          · simp only [hroute, Bool.false_eq_true, if_false]
            cases hi : routeByInterface config
              (parseMatchRule rule).interface with
            | none => simp [RouteDecision.reachesHost]
            | some b => simp [RouteDecision.reachesHost, hinterface b hi]

/-- The rows of the table. -/
theorem findMethodSpec_rows :
    (∀ m ∈ methodsOwnName,
      findMethodSpec m = some ⟨m, .byName true false⟩)
    ∧ (∀ m ∈ methodsLookUpName,
      findMethodSpec m = some ⟨m, .byName true true⟩)
    ∧ (∀ m ∈ methodsAskConnection,
      findMethodSpec m = some ⟨m, .byName false true⟩)
    ∧ (∀ m ∈ methodsMatchRule, findMethodSpec m = some ⟨m, .byMatchRule⟩)
    ∧ ∀ m ∈ methodsListNames, findMethodSpec m = some ⟨m, .mergeBoth⟩ := by
  decide

/-- There are no others. -/
theorem rows_of_spec : ∀ spec ∈ dbusMethodSpecs,
    (spec.route = .byName true false ∧ spec.member ∈ methodsOwnName)
    ∨ (spec.route = .byName true true ∧ spec.member ∈ methodsLookUpName)
    ∨ (spec.route = .byName false true
      ∧ spec.member ∈ methodsAskConnection)
    ∨ (spec.route = .byMatchRule ∧ spec.member ∈ methodsMatchRule)
    ∨ (spec.route = .mergeBoth ∧ spec.member ∈ methodsListNames) := by
  decide

/-- What a row of the table lets through to the host, by the first
argument. -/
def DbusRouteKind.LetsThrough (config : Config) (argument : Option Text) :
    DbusRouteKind → Prop
  | .mergeBoth => True
  | .byMatchRule => ∃ rule, argument = some rule
      ∧ (parseMatchRule rule).sender.bind getBusFromFakeName ≠ some .sandbox
  | .byName check fake => ∃ name, argument = some name
      ∧ routeName config check fake (some name) = .host

/-- The policy for a method of the table is what its row lets through. -/
theorem forHost_iff_row {config : Config} {msg : Message} {member : Text}
    {route : DbusRouteKind} (hd : msg.ToDaemon)
    (hm : msg.header.member = some member)
    (hspec : findMethodSpec member = some ⟨member, route⟩) :
    msg.ForHost config ↔ route.LetsThrough config msg.firstString := by
  obtain ⟨hown, hlookUp, hask, hrule, hlist⟩ := findMethodSpec_rows
  -- a method has one row
  have hrow : ∀ {m : Text} {r : DbusRouteKind},
      msg.header.member = some m → findMethodSpec m = some ⟨m, r⟩ →
        r = route := by
    intro m r hm' hspec'
    rw [hm, Option.some.injEq] at hm'
    subst hm'
    rw [hspec, Option.some.injEq, DbusMethodSpec.mk.injEq] at hspec'
    exact hspec'.2.symm
  constructor
  · intro h
    cases h with
    | addressed _ hnot => exact absurd hd hnot
    | owns _ hm' hin hname hroute =>
        rw [← hrow hm' (hown _ hin)]
        exact ⟨_, hname, (routeName_own config _).mpr hroute⟩
    | looksUp _ hm' hin hname hhome =>
        rw [← hrow hm' (hlookUp _ hin)]
        exact ⟨_, hname, (routeName_lookUp config _).mpr hhome⟩
    | asks _ hm' hin hname hfake =>
        rw [← hrow hm' (hask _ hin)]
        exact ⟨_, hname, (routeName_ask config _).mpr hfake⟩
    | subscribes _ hm' hin hname hsender =>
        rw [← hrow hm' (hrule _ hin)]
        exact ⟨_, hname, hsender⟩
    | lists _ hm' hin =>
        rw [← hrow hm' (hlist _ hin)]
        trivial
  · intro h
    rcases rows_of_spec _ (List.mem_of_find?_eq_some hspec) with
      ⟨rfl, hin⟩ | ⟨rfl, hin⟩ | ⟨rfl, hin⟩ | ⟨rfl, hin⟩ | ⟨rfl, hin⟩
    · obtain ⟨name, hname, hhost⟩ := h
      exact .owns hd hm hin hname ((routeName_own config name).mp hhost)
    · obtain ⟨name, hname, hhost⟩ := h
      exact .looksUp hd hm hin hname
        ((routeName_lookUp config name).mp hhost)
    · obtain ⟨name, hname, hhost⟩ := h
      exact .asks hd hm hin hname ((routeName_ask config name).mp hhost)
    · obtain ⟨rule, hname, hsender⟩ := h
      exact .subscribes hd hm hin hname hsender
    · exact .lists hd hm hin

/-- A method that is in no row stays in the sandbox. -/
theorem not_forHost_of_no_row {config : Config} {msg : Message}
    (hd : msg.ToDaemon)
    (hspec : ∀ member, msg.header.member = some member →
      findMethodSpec member = none) : ¬msg.ForHost config := by
  obtain ⟨hown, hlookUp, hask, hrule, hlist⟩ := findMethodSpec_rows
  have hno : ∀ {m : Text} {spec : DbusMethodSpec},
      msg.header.member = some m → findMethodSpec m ≠ some spec := by
    intro m spec hm h
    rw [hspec m hm] at h
    cases h
  intro h
  cases h with
  | addressed _ hnot => exact hnot hd
  | owns _ hm hin => exact hno hm (hown _ hin)
  | looksUp _ hm hin => exact hno hm (hlookUp _ hin)
  | asks _ hm hin => exact hno hm (hask _ hin)
  | subscribes _ hm hin => exact hno hm (hrule _ hin)
  | lists _ hm hin => exact hno hm (hlist _ hin)

/-- The first argument as routing reads it. -/
theorem Message.Accepted.extractName {z : Zvariant} {msg : Message}
    (h : msg.Accepted z) :
    msg.extractNameFromBody = .ok msg.firstString := by
  obtain ⟨start, hbody⟩ := h.hasBody
  exact extractNameFromBody_eq hbody

/-- What the router looks into is routed by the policy. -/
theorem routeDbusMethod_forHost {z : Zvariant} {config : Config}
    {msg : Message} {d : RouteDecision} (hacc : msg.Accepted z)
    (hd : msg.ToDaemon) (h : routeDbusMethod config msg = .ok d) :
    d.reachesHost = true ↔ msg.ForHost config := by
  unfold routeDbusMethod at h
  cases hspec : findMethodSpec (msg.header.member.getD []) with
  | none =>
      rw [hspec, Outcome.ok.injEq] at h
      have hnot : ¬msg.ForHost config := by
        refine not_forHost_of_no_row hd fun member hm => ?_
        rw [hm] at hspec
        exact hspec
      rw [← h]
      exact iff_of_false (by decide) hnot
  | some spec =>
      have hmem : spec ∈ dbusMethodSpecs := List.mem_of_find?_eq_some hspec
      have hmember : spec.member = msg.header.member.getD [] := by
        simpa using List.find?_some hspec
      have hm : msg.header.member = some spec.member := by
        cases hmsg : msg.header.member with
        | none =>
            rw [hmsg] at hmember
            have hne : ∀ spec ∈ dbusMethodSpecs, spec.member ≠ [] := by
              decide +kernel
            exact absurd hmember (hne spec hmem)
        | some member =>
            rw [hmsg] at hmember
            exact congrArg some hmember.symm
      rw [← hmember] at hspec
      rw [forHost_iff_row hd hm (show findMethodSpec spec.member
        = some ⟨spec.member, spec.route⟩ from hspec)]
      rw [← hmember, hspec] at h
      simp only at h
      cases hroute : spec.route with
      | mergeBoth =>
          rw [hroute] at h
          cases h
          exact iff_of_true rfl trivial
      | byMatchRule =>
          rw [hroute] at h
          simp only [Message.extractStringFromBody, hacc.extractName,
            Outcome.ok_bind] at h
          cases hfirst : msg.firstString with
          | none =>
              rw [hfirst] at h
              cases h
              refine iff_of_false (by decide) ?_
              rintro ⟨rule, hrule, -⟩
              cases hrule
          | some rule =>
              rw [hfirst] at h
              cases h
              rw [routeMatchRule_reachesHost]
              constructor
              · intro hsender
                exact ⟨rule, rfl, hsender⟩
              · rintro ⟨rule', hrule, hsender⟩
                cases hrule
                exact hsender
      | byName check fake =>
          rw [hroute] at h
          simp only [hacc.extractName, Outcome.ok_bind] at h
          cases h
          rw [RouteDecision.reachesHost, beq_iff_eq]
          constructor
          · intro hhost
            cases hfirst : msg.firstString with
            | none =>
                rw [hfirst] at hhost
                cases hhost
            | some name =>
                rw [hfirst] at hhost
                exact ⟨name, rfl, hhost⟩
          · rintro ⟨name, hname, hhost⟩
            rw [hname]
            exact hhost

-- ================================================================= the routing

/-- The bus daemon's name is no fake name. -/
theorem busName_not_fake : getBusFromFakeName busName = none := by
  decide +kernel

/-- A client's message is routed to the host exactly when the policy has
it. -/
theorem routeRequest_forHost {z : Zvariant} {glob : Glob} {config : Config}
    {exe : Option Bytes} {msg : Message} {d : RouteDecision}
    (hacc : msg.Accepted z) (hpass : isHostpass glob config exe = false)
    (h : routeRequest glob config msg exe = .ok d) :
    d.reachesHost = true ↔ msg.ForHost config := by
  unfold routeRequest at h
  rw [hpass, if_neg (by decide)] at h
  by_cases hd : msg.ToDaemon
  · rw [hd.1, Option.bind_some, busName_not_fake] at h
    simp only [hd.2, and_self, if_true] at h
    exact routeDbusMethod_forHost hacc hd h
  · have haddressed : msg.ForHost config ↔ ∃ name,
        msg.header.destination = some name ∧ homeBus config name = .host := by
      constructor
      · intro hf
        cases hf with
        | addressed hname _ hhome => exact ⟨_, hname, hhome⟩
        | owns hd' | looksUp hd' | asks hd' | subscribes hd' | lists hd' =>
            exact absurd hd' hd
      · rintro ⟨name, hname, hhome⟩
        exact .addressed hname hd hhome
    rw [haddressed]
    cases hdest : msg.header.destination with
    | none =>
        rw [hdest] at h
        simp only [Option.bind_none, reduceCtorEq, false_and, if_false,
          Option.any_none, Bool.false_eq_true, Outcome.ok.injEq] at h
        rw [← h]
        refine iff_of_false (by decide) ?_
        rintro ⟨name, hname, -⟩
        cases hname
    | some name =>
        have hhome : d = .single (homeBus config name) := by
          rw [hdest, Option.bind_some] at h
          cases hfake : getBusFromFakeName name with
          | some b =>
              rw [hfake] at h
              cases h
              rw [homeBus_of_fake hfake]
          | none =>
              have hnot : ¬(some name = some busName
                  ∧ msg.header.interface = some busName) := by
                rw [← hdest]
                exact hd
              rw [hfake] at h
              simp only [if_neg hnot, Option.any_some] at h
              rw [homeBus_of_not_fake hfake]
              split at h
              next hroute =>
                cases h
                rw [if_pos hroute]
              next hroute =>
                cases h
                rw [if_neg hroute]
        rw [hhome, RouteDecision.reachesHost, beq_iff_eq]
        constructor
        · intro hhost
          exact ⟨name, rfl, hhost⟩
        · rintro ⟨name', hname, hhost⟩
          cases hname
          exact hhost

-- ===================================================================== the runs

/-- A call from the host with the serial `n`, to a name which the client has
requested before under a host route. -/
def HostCalled (config : Config) (u : List (Event × List Write)) (n : Nat) :
    Prop :=
  ∃ u₁ call ws u₂ request ws' name,
    u = u₁ ++ (Event.bus .host call, ws) :: u₂
      ∧ (Event.client request, ws') ∈ u₁
      ∧ call.header.serial = n ∧ call.header.msgType = .methodCall
      ∧ call.header.destination = some name
      ∧ request.isRequestName = true ∧ request.firstString = some name
      ∧ config.shouldRouteToHost name = true

/-- A reply to such a call. -/
def AnswersHostCall (config : Config) (u : List (Event × List Write))
    (msg : Message) : Prop :=
  (msg.header.msgType = .methodReturn ∨ msg.header.msgType = .error)
    ∧ ∃ n, msg.header.replySerial = some n ∧ HostCalled config u n

/-- What one event of a run tells the host. -/
def WithinPolicy (config : Config) (u : List (Event × List Write)) :
    Event → List Write → Prop
  | .bus _ _, ws => ∀ w ∈ ws, w.peer = .client
  | .client msg, ws =>
      ((∃ w ∈ ws, w.peer = .bus .host) →
        msg.ForHost config ∨ AnswersHostCall config u msg)
      ∧ (msg.ForHost config → msg.header.msgType ≠ .methodReturn →
        msg.header.msgType ≠ .error →
        ws.countP (·.peer = .bus .host) = 1)

section runs

variable {L : Libs} {config : Config} {exe : Option Bytes}

/-- A name is requested on the host under a host route only. -/
theorem route_of_requested {t : List (Event × List Write)} {name : Text}
    (hpass : isHostpass L.glob config exe = false)
    (h : Requested L config exe t .host name)
    (haccepted : ∀ x ∈ t, x.1.msg.Accepted L.zvariant) :
    ∃ request ws, (Event.client request, ws) ∈ t
      ∧ request.isRequestName = true ∧ request.firstString = some name
      ∧ config.shouldRouteToHost name = true := by
  obtain ⟨u, c, ws, v, m, rfl, hrun, -, hreq, hroute, hname⟩ := h
  have hmem : (Event.client c, ws) ∈ u ++ (Event.client c, ws) :: v :=
    List.mem_append_right _ (List.mem_cons_self ..)
  obtain ⟨hconfig, hexe⟩ := run_config hrun
  rw [hconfig, hexe] at hroute
  have hhost : c.ForHost config :=
    (routeRequest_forHost (haccepted _ hmem) hpass hroute).mp rfl
  have hreq' := hreq
  simp only [Message.isRequestName, Bool.and_eq_true, beq_iff_eq] at hreq'
  obtain ⟨⟨hdest, hinterface⟩, hmember⟩ := hreq'
  rw [forHost_iff_row ⟨hdest, hinterface⟩ hmember
    (findMethodSpec_rows.1 _ (by decide +kernel))] at hhost
  obtain ⟨name', hname', hroute'⟩ := hhost
  rw [hname, Option.some.injEq] at hname'
  subst hname'
  exact ⟨c, ws, hmem, hreq, hname, (routeName_own config name).mp hroute'⟩

theorem HostCalled.snoc {u : List (Event × List Write)} {n : Nat}
    (h : HostCalled config u n) (x : Event × List Write) :
    HostCalled config (u ++ [x]) n := by
  obtain ⟨u₁, call, ws, u₂, request, ws', name, rfl, h⟩ := h
  refine ⟨u₁, call, ws, u₂ ++ [x], request, ws', name, ?_, h⟩
  rw [List.append_assoc, List.cons_append]

/-- The messages of a run are accepted. -/
theorem accepted_of_mem {s s' : Session} {t : List (Event × List Write)}
    (h : Run L s t s') : ∀ x ∈ t, x.1.msg.Accepted L.zvariant := by
  intro x hx
  obtain ⟨-, m, m', -, hstep⟩ := h.mem hx
  exact hstep.1

/-- A call that is remembered as the host's came to a name the client had
requested. -/
theorem hostCalled_of_incoming {t : List (Event × List Write)} {s : Session}
    (hpass : isHostpass L.glob config exe = false)
    (hrun : Run L (Session.new config exe) t s) :
    ∀ n, s.incomingCalls n = some .host → HostCalled config t n := by
  refine hrun.history (P := fun t s => ∀ n,
    s.incomingCalls n = some .host → HostCalled config t n)
    (fun n h => by cases h) ?_
  intro t m ev ws m' hbefore ih hstep n hn
  rcases step_cases hstep with ⟨msg, rfl, hd⟩ | ⟨b, msg, rfl, hu⟩
  · rcases downstream_incoming hd with heq | ⟨k, -, -, heq⟩
    · rw [heq] at hn
      exact (ih n hn).snoc _
    · rw [heq, PMap.remove_apply] at hn
      split at hn
      next => cases hn
      next => exact (ih n hn).snoc _
  · cases hu with
    | firstHalf | secondHalf | forwarded => exact (ih n hn).snoc _
    | serviceCall hcall =>
        simp only [PMap.insert_apply] at hn
        split at hn
        next hserial =>
          cases hn
          have hty := msgType_of_serviceCall hcall
          cases hdest : msg.header.destination with
          | none =>
              simp [Session.isIncomingServiceCall, hdest] at hcall
          | some name =>
              rw [isIncomingServiceCall_iff hty hdest,
                services_run hbefore] at hcall
              obtain ⟨request, ws', hmem, hreq, hname, hroute⟩ :=
                route_of_requested hpass hcall (accepted_of_mem hbefore)
              exact ⟨t, msg, _, [], request, ws', name, rfl, hmem,
                hserial.symm, hty, hdest, hreq, hname, hroute⟩
        next => exact (ih n hn).snoc _

end runs

-- =============================================================== an instance

/-- The client owns `org.a` on the host, which is called there. -/
def hostCalls : List Event :=
  [.client (.daemonCall 1 "RequestName" "org.a"),
   .bus .host (.compose 1 5 [(1, .objectPath (utf8 "/")),
     (3, .str (utf8 "Get")), (6, .str (utf8 "org.a")),
     (7, .str (utf8 ":1.9"))] [] [])]

/-- The client's reply. -/
def hostReply : Event :=
  .client (.compose 2 9 [(5, .fixed .uint32 5), (6, .str (utf8 ":1.9"))] [] [])

/-- Without host routes nothing can be owned on the host, and it is reached by
the shown names of its connections, by match rules and by the lists alone. -/
theorem forHost_without_routes {config : Config} {msg : Message}
    (hnone : config.hostRoutes = []) :
    msg.ForHost config
      ↔ (∃ name, msg.header.destination = some name
          ∧ getBusFromFakeName name = some .host)
        ∨ msg.ToDaemon ∧ ∃ member, msg.header.member = some member
          ∧ ((member ∈ methodsLookUpName ++ methodsAskConnection
              ∧ ∃ name, msg.firstString = some name
                ∧ getBusFromFakeName name = some .host)
            ∨ (member ∈ methodsMatchRule ∧ ∃ rule,
              msg.firstString = some rule
                ∧ (parseMatchRule rule).sender.bind getBusFromFakeName
                  ≠ some .sandbox)
            ∨ member ∈ methodsListNames) := by
  have hroute : ∀ name, config.shouldRouteToHost name = false := by
    intro name
    rw [Config.shouldRouteToHost, hnone]
    rfl
  have hhome : ∀ name, homeBus config name = .host
      ↔ getBusFromFakeName name = some .host := by
    intro name
    rw [homeBus, hroute]
    cases getBusFromFakeName name with
    | some b => simp
    | none => simp
  constructor
  · intro h
    cases h with
    | addressed hd _ hhost => exact Or.inl ⟨_, hd, (hhome _).mp hhost⟩
    | @owns _ name _ _ _ _ hrouted =>
        rw [hroute name] at hrouted
        cases hrouted
    | looksUp hd hm hin hname hhost =>
        exact Or.inr ⟨hd, _, hm, Or.inl ⟨List.mem_append_left _ hin, _, hname,
          (hhome _).mp hhost⟩⟩
    | asks hd hm hin hname hfake =>
        exact Or.inr ⟨hd, _, hm, Or.inl ⟨List.mem_append_right _ hin, _,
          hname, hfake⟩⟩
    | subscribes hd hm hin hrule hsender =>
        exact Or.inr ⟨hd, _, hm, Or.inr (Or.inl ⟨hin, _, hrule, hsender⟩)⟩
    | lists hd hm hin => exact Or.inr ⟨hd, _, hm, Or.inr (Or.inr hin)⟩
  · rintro (⟨name, hd, hfake⟩ | ⟨hd, member, hm, hcases⟩)
    · have hnot : ¬msg.ToDaemon := by
        intro hdaemon
        rw [hdaemon.1, Option.some.injEq] at hd
        rw [← hd, busName_not_fake] at hfake
        cases hfake
      exact .addressed hd hnot ((hhome _).mpr hfake)
    · rcases hcases with ⟨hin, name, hname, hfake⟩ | ⟨hin, rule, hrule, hs⟩
        | hin
      · rcases List.mem_append.mp hin with hin | hin
        · exact .looksUp hd hm hin hname ((hhome _).mpr hfake)
        · exact .asks hd hm hin hname hfake
      · exact .subscribes hd hm hin hrule hs
      · exact .lists hd hm hin

end DbusRouter.Model
