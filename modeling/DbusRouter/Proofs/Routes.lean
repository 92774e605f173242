/-
Host routes and the elements of names.

A bus name is a list of elements with dots between them. The string operations
of `RouteRule::matches` come to a statement about elements: a wildcard route is
for the names that begin with its elements, any other for its own name
(`matches_iff`). What a client asks of such a name is written to the bus of the
name, byte for byte (`routed_by_elements`).
-/
import DbusRouter.Proofs.Exchange
import DbusRouter.Wire.Split

namespace DbusRouter.Model

open Wire Lib

/-- The elements of a bus name. -/
def elements (name : Text) : List Text := splitOn '.'.toUInt8 name

/-- The names a route is for: its own, and those that begin with the elements
in front of its `.*`. -/
def RouteRule.Covers (rule : RouteRule) (name : Text) : Prop :=
  rule.destination = name ∨ ∃ front, rule.destination = front ++ utf8 ".*"
    ∧ elements front <+: elements name

/-- A name has a host route. -/
def Config.Covers (config : Config) (name : Text) : Prop :=
  ∃ rule ∈ config.hostRoutes, rule.Covers name

/-- The elements of a name begin with those of another one if it is below it.
-/
theorem elements_prefix_iff {front name : Text} :
    elements front <+: elements name
      ↔ name = front ∨ ∃ rest, name = front ++ (utf8 "." ++ rest) :=
  splitOn_prefix_iff

/-- A wildcard route matches the names that begin with its elements. -/
theorem wildcard_iff {rule : RouteRule} {front name : Text}
    (hwild : stripSuffix (utf8 ".*") rule.destination = some front) :
    rule.matches name = true ↔ elements front <+: elements name := by
  unfold RouteRule.matches
  rw [hwild, elements_prefix_iff]
  simp only
  by_cases hsame : name = front
  · rw [if_pos hsame]
    exact iff_of_true rfl (Or.inl hsame)
  · rw [if_neg hsame]
    cases hstrip : stripPrefix front name with
    | none =>
        refine iff_of_false (by simp) ?_
        intro h
        obtain ⟨rest, hrest⟩ := h.resolve_left hsame
        rw [stripPrefix_eq_some_iff.mpr hrest] at hstrip
        cases hstrip
    | some tail =>
        have hname := stripPrefix_eq_some_iff.mp hstrip
        simp only [startsWith_iff, hsame, false_or]
        constructor
        · intro h
          obtain ⟨rest, rfl⟩ := h
          exact ⟨rest, hname⟩
        · intro h
          obtain ⟨rest, hrest⟩ := h
          rw [hname] at hrest
          exact ⟨rest, (List.append_cancel_left hrest).symm⟩

/-- Matching is about elements. -/
theorem matches_iff {rule : RouteRule} {name : Text} :
    rule.matches name = true ↔ rule.Covers name := by
  unfold RouteRule.Covers
  cases hstrip : stripSuffix (utf8 ".*") rule.destination with
  | none =>
      have hexact : ∀ front, rule.destination ≠ front ++ utf8 ".*" := by
        intro front h
        rw [stripSuffix_eq_some_iff.mpr h] at hstrip
        cases hstrip
      unfold RouteRule.matches
      simp only [hstrip, beq_iff_eq]
      constructor
      · exact Or.inl
      · intro h
        rcases h with h | ⟨front, h, -⟩
        · exact h
        · exact absurd h (hexact front)
  | some front =>
      have hdest := stripSuffix_eq_some_iff.mp hstrip
      rw [wildcard_iff hstrip]
      constructor
      · exact fun h => Or.inr ⟨front, hdest, h⟩
      · intro h
        rcases h with rfl | ⟨front', hdest', h⟩
        · rw [hdest, elements_prefix_iff]
          exact Or.inr ⟨utf8 "*", rfl⟩
        · rw [hdest] at hdest'
          rw [List.append_cancel_right hdest']
          exact h

/-- The code's test of a route covers the names it should. -/
theorem shouldRouteToHost_iff {config : Config} {name : Text} :
    config.shouldRouteToHost name = true ↔ config.Covers name := by
  unfold Config.shouldRouteToHost Config.Covers
  simp only [List.any_eq_true, matches_iff]

-- =============================================================== what is written

section routed

variable {L : Libs} {config : Config} {exe : Option Bytes} {s : Session}
  {t : List (Event × List Write)}

/-- The home of a name that is no connection's is found from its elements. -/
theorem homeOf_name {name : Text}
    (hpass : isHostpass L.glob config exe = false)
    (hname : getBusFromFakeName name = none) :
    homeOf L config exe (some name) = .host ↔ config.Covers name := by
  unfold homeOf
  rw [hpass, Option.bind_some, hname, Option.getD_none, Option.any_some,
    ← shouldRouteToHost_iff]
  cases config.shouldRouteToHost name <;> simp

/-- In every run, what the client asks of a name that is neither a connection's
nor the bus daemon's is written to one bus, as it was read: to the host when the
first elements of the name are those of a wildcard route, or the name is that
of a route, and to the sandbox otherwise. -/
theorem routed_by_elements
    (hpass : isHostpass L.glob config exe = false)
    (hrun : Run L (Session.new config exe) t s) {msg : Message}
    {ws : List Write} {name : Text} (hmem : (.client msg, ws) ∈ t)
    (hreq : msg.IsRequest) (hdest : msg.header.destination = some name)
    (hname : getBusFromFakeName name = none) (hbus : name ≠ busName) :
    ∃ b, ws = [⟨.bus b, msg.raw, msg.fds⟩]
      ∧ (b = .host ↔ config.Covers name) := by
  obtain ⟨u, m, m', hu, hstep⟩ := hrun.mem hmem
  obtain ⟨hconfig, hexe⟩ := run_config hu
  have hpeer : msg.header.destination ≠ some busName := by
    rw [hdest]
    exact fun h => hbus (Option.some.inj h)
  have hreal : ∀ d, msg.header.destination = some d →
      getBusFromFakeName d = none := by
    intro d hd
    rw [hdest] at hd
    cases hd
    exact hname
  cases downstream_of_ok hstep.2 with
  | reply hty =>
      rcases hreq with hr | hr
      all_goals
        rw [hr] at hty
        rcases hty with h | h <;> cases h
  | @toBus target s₁ r raw _ hroute _ hr hraw =>
      rw [rewriteMessageHeader_toUpstream_of_not_fake hreal,
        Outcome.orElse_ok] at hr
      cases hr
      rw [rewriteRequestBody_of_ne hpeer] at hraw
      cases hraw
      rw [routeRequest_of_peer hpeer, hconfig, hexe, hdest] at hroute
      cases hroute
      exact ⟨_, rfl, homeOf_name hpass hname⟩
  | toBoth _ hroute =>
      obtain ⟨-, hdaemon, -⟩ := routeRequest_of_not_single hroute (by simp)
      exact absurd hdaemon hpeer
  | merge _ hroute =>
      obtain ⟨-, hdaemon, -⟩ := routeRequest_of_not_single hroute (by simp)
      exact absurd hdaemon hpeer

/-- A host route for everything below `org.a`. -/
def belowA : Config := ⟨[⟨utf8 "org.a.*"⟩], []⟩

theorem routed_by_elements_below :
    ∃ b, ((Session.new belowA none).react referenceLibs
          (.client (.peerCall 9 "org.a.b" ":1.20"))).2
        = [⟨.bus b, (Message.peerCall 9 "org.a.b" ":1.20").raw, []⟩]
      ∧ (b = .host ↔ belowA.Covers (utf8 "org.a.b")) := by
  have hpass : isHostpass referenceLibs.glob belowA none = false := rfl
  have halive : (Session.new belowA none).survives referenceLibs
      [.client (.peerCall 9 "org.a.b" ":1.20")] = true := by decide +kernel
  have hstep := step_react halive (by decide +kernel)
  exact routed_by_elements hpass (.single hstep) (List.mem_singleton.mpr rfl)
    (Or.inl rfl) rfl (by decide +kernel) (by decide +kernel)

end routed

end DbusRouter.Model
