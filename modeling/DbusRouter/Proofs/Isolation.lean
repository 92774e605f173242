/-
What the buses are told depends on little of what they say.

A session heeds the client's messages, and the calls from a bus to a name the
client has asked that bus for. Whatever else a bus sends (replies, signals,
calls to the client's unique name, halves of merged lists) changes what is
remembered for the client's sake alone, so no bus learns of it through the
router: states that agree on the rest cannot be told apart by what is heeded
(`session_unwinds`). Two sessions that heed the same write the same to the
buses (`buses_told_alike`).
-/
import DbusRouter.Lib.Unwinding
import DbusRouter.Proofs.Answers

namespace DbusRouter.Model

open Wire Lib

-- ==================================================================== heeding

/-- An event that is neither from the client nor a call to a service of the
client's. -/
def Session.Unheeded (s : Session) : Event → Prop
  | .client _ => False
  | .bus b msg => s.isIncomingServiceCall msg b = false

/-- The sessions agree on all but the calls and the merges they remember for
the client. -/
structure Session.Alike (s k : Session) : Prop where
  config : k.config = s.config
  clientExePath : k.clientExePath = s.clientExePath
  exportedServices : k.exportedServices = s.exportedServices
  sandboxServices : k.sandboxServices = s.sandboxServices
  incomingCalls : k.incomingCalls = s.incomingCalls

theorem Session.Alike.refl (s : Session) : s.Alike s :=
  ⟨rfl, rfl, rfl, rfl, rfl⟩

theorem Session.Alike.trans {m s k : Session} (h : m.Alike s)
    (h' : s.Alike k) : m.Alike k :=
  ⟨h'.config.trans h.config, h'.clientExePath.trans h.clientExePath,
    h'.exportedServices.trans h.exportedServices,
    h'.sandboxServices.trans h.sandboxServices,
    h'.incomingCalls.trans h.incomingCalls⟩

section alike

variable {L : Libs} {s s' k : Session} {msg : Message} {ws : List Write}
  {b : Bus}

theorem Session.Alike.isIncomingServiceCall (h : s.Alike k) (msg : Message)
    (b : Bus) :
    k.isIncomingServiceCall msg b = s.isIncomingServiceCall msg b := by
  unfold Session.isIncomingServiceCall
  rw [h.exportedServices, h.sandboxServices]

/-- The reply path is the same. -/
theorem forwardReply_alike {r : Option (Session × List Write)}
    (h : s.Alike k) (hs : s.forwardReplyToCaller msg = .ok r) :
    (r = none ∧ k.forwardReplyToCaller msg = .ok none)
      ∨ ∃ s' k' ws, r = some (s', ws)
        ∧ k.forwardReplyToCaller msg = .ok (some (k', ws))
        ∧ s'.Alike k' := by
  unfold Session.forwardReplyToCaller at hs ⊢
  rw [h.incomingCalls]
  split at hs
  next hty =>
    cases hs
    rw [if_pos hty]
    exact Or.inl ⟨rfl, rfl⟩
  next hty =>
    rw [if_neg hty]
    cases hn : msg.header.replySerial with
    | none =>
        simp only [hn] at hs
        cases hs
        exact Or.inl ⟨rfl, rfl⟩
    | some n =>
        simp only [hn] at hs ⊢
        cases hin : s.incomingCalls n with
        | none =>
            simp only [hin] at hs
            cases hs
            exact Or.inl ⟨rfl, rfl⟩
        | some b =>
            simp only [hin] at hs ⊢
            obtain ⟨m, hm, hs⟩ := Outcome.bind_eq_ok hs
            obtain ⟨ws, hws, hs⟩ := Outcome.bind_eq_ok hs
            cases hs
            rw [hm, Outcome.ok_bind, hws, Outcome.ok_bind]
            exact Or.inr ⟨_, _, ws, rfl, rfl, h.config, h.clientExePath,
              h.exportedServices, h.sandboxServices, rfl⟩

/-- Alike sessions stay alike when they track a name. -/
theorem track_alike {d : RouteDecision} (h : s.Alike k)
    (hs : s.trackExportedService msg d = .ok s') :
    ∃ k', k.trackExportedService msg d = .ok k' ∧ s'.Alike k' := by
  unfold Session.trackExportedService at hs ⊢
  split at hs
  next hno =>
    cases hs
    rw [if_pos hno]
    exact ⟨k, rfl, h⟩
  next hno =>
    rw [if_neg hno]
    obtain ⟨name, hname, hs⟩ := Outcome.bind_eq_ok hs
    rw [hname, Outcome.ok_bind]
    cases name with
    | none =>
        cases hs
        exact ⟨k, rfl, h⟩
    | some name =>
        rcases d with (_ | _) | _ | _
        · cases hs
          exact ⟨_, rfl, h.config, h.clientExePath,
            congrArg (name :: ·) h.exportedServices, h.sandboxServices,
            h.incomingCalls⟩
        · cases hs
          exact ⟨_, rfl, h.config, h.clientExePath, h.exportedServices,
            congrArg (name :: ·) h.sandboxServices, h.incomingCalls⟩
        · cases hs
          exact ⟨k, rfl, h⟩
        · cases hs
          exact ⟨k, rfl, h⟩

/-- What is remembered for the client makes no difference. -/
theorem Session.Alike.remember (h : s.Alike k)
    (calls calls' : PMap Nat PendingCallInfo)
    (merges merges' : PMap Nat PendingMerge) :
    Session.Alike
      { s with pendingCalls := calls, pendingMerges := merges }
      { k with pendingCalls := calls', pendingMerges := merges' } :=
  ⟨h.config, h.clientExePath, h.exportedServices, h.sandboxServices,
    h.incomingCalls⟩

/-- Whatever the decision, the message is forwarded alike. -/
theorem forwardToBus_alike {target : Bus} (h : s.Alike k)
    (hs : s.forwardToBus msg target = .ok (s', ws)) :
    ∃ k', k.forwardToBus msg target = .ok (k', ws) ∧ s'.Alike k' := by
  unfold Session.forwardToBus at hs ⊢
  obtain ⟨m, hm, hs⟩ := Outcome.bind_eq_ok hs
  obtain ⟨raw, hraw, hs⟩ := Outcome.bind_eq_ok hs
  obtain ⟨ws', hws, hs⟩ := Outcome.bind_eq_ok hs
  cases hs
  rw [hm, Outcome.ok_bind, hraw, Outcome.ok_bind, hws, Outcome.ok_bind]
  exact ⟨_, rfl, h.remember _ _ _ _⟩

theorem forwardToBoth_alike (h : s.Alike k)
    (hs : s.forwardToBoth msg = .ok (s', ws)) :
    ∃ k', k.forwardToBoth msg = .ok (k', ws) ∧ s'.Alike k' := by
  unfold Session.forwardToBoth at hs ⊢
  obtain ⟨raw, hraw, hs⟩ := Outcome.bind_eq_ok hs
  obtain ⟨ws', hws, hs⟩ := Outcome.bind_eq_ok hs
  cases hs
  rw [hraw, Outcome.ok_bind, hws, Outcome.ok_bind]
  exact ⟨_, rfl, h.remember _ _ _ _⟩

theorem forwardForMerge_alike (h : s.Alike k)
    (hs : s.forwardForMerge msg = .ok (s', ws)) :
    ∃ k', k.forwardForMerge msg = .ok (k', ws) ∧ s'.Alike k' := by
  unfold Session.forwardForMerge at hs ⊢
  obtain ⟨ws', hws, hs⟩ := Outcome.bind_eq_ok hs
  cases hs
  rw [hws, Outcome.ok_bind]
  exact ⟨_, rfl, h.remember _ _ _ _⟩

theorem route_alike (h : s.Alike k)
    (hs : s.routeClientMessage L msg = .ok (s', ws)) :
    ∃ k', k.routeClientMessage L msg = .ok (k', ws) ∧ s'.Alike k' := by
  unfold Session.routeClientMessage at hs ⊢
  -- the decision is read off the configuration, the client and the message
  rw [h.config, h.clientExePath]
  obtain ⟨d, hd, hs⟩ := Outcome.bind_eq_ok hs
  obtain ⟨s₁, htrack, hs⟩ := Outcome.bind_eq_ok hs
  obtain ⟨k₁, hktrack, halike⟩ := track_alike h htrack
  rw [hd, Outcome.ok_bind, hktrack, Outcome.ok_bind]
  cases d with
  | single target => exact forwardToBus_alike halike hs
  | both => exact forwardToBoth_alike halike hs
  | merge => exact forwardForMerge_alike halike hs

/-- A message of the client's is written alike. -/
theorem client_alike (h : s.Alike k)
    (hs : s.handleClientMessage L msg = .ok (s', ws)) :
    ∃ k', k.handleClientMessage L msg = .ok (k', ws) ∧ s'.Alike k' := by
  unfold Session.handleClientMessage at hs ⊢
  obtain ⟨r, hr, hs⟩ := Outcome.bind_eq_ok hs
  obtain ⟨rfl, hk⟩ | ⟨s₁, k₁, ws₁, rfl, hk, halike⟩ :=
    forwardReply_alike h hr
  · rw [hk, Outcome.ok_bind]
    exact route_alike h hs
  · cases hs
    rw [hk, Outcome.ok_bind]
    exact ⟨k₁, rfl, halike⟩

/-- So is a call to a service of the client's. -/
theorem serviceCall_alike (h : s.Alike k)
    (hcall : s.isIncomingServiceCall msg b = true)
    (hs : s.handleUpstreamMessage L msg b = .ok (s', ws)) :
    ∃ k', k.handleUpstreamMessage L msg b = .ok (k', ws) ∧ s'.Alike k' := by
  unfold Session.handleUpstreamMessage at hs ⊢
  rw [if_pos hcall] at hs
  rw [h.isIncomingServiceCall, if_pos hcall]
  obtain ⟨m, hm, hs⟩ := Outcome.bind_eq_ok hs
  obtain ⟨ws', hws, hs⟩ := Outcome.bind_eq_ok hs
  cases hs
  rw [hm, Outcome.ok_bind, hws, Outcome.ok_bind]
  exact ⟨_, rfl, h.config, h.clientExePath, h.exportedServices,
    h.sandboxServices, congrArg (·.insert msg.header.serial b)
      h.incomingCalls⟩

/-- Anything else from a bus leaves no mark but on what is remembered for the
client, and is told the client alone. -/
theorem unheeded_step (h : s.Step L (.bus b msg) ws s')
    (hno : s.isIncomingServiceCall msg b = false) :
    Session.Alike s' s ∧ ∀ w ∈ ws, w.peer = .client := by
  cases upstream_of_ok h.2 with
  | serviceCall hcall =>
      rw [hcall] at hno
      cases hno
  | firstHalf =>
      -- the half that came first is kept, and nobody is told of it
      refine ⟨(Session.Alike.refl s).remember _ _ _ _, ?_⟩
      intro w hw
      cases hw
  | secondHalf =>
      refine ⟨(Session.Alike.refl s).remember _ _ _ _, ?_⟩
      intro w hw
      rw [List.mem_singleton.mp hw]
  | forwarded =>
      refine ⟨Session.Alike.refl s, ?_⟩
      intro w hw
      rw [List.mem_singleton.mp hw]

end alike

-- =============================================================== isolation

theorem session_unwinds (L : Libs) :
    Unwinding (Session.Step L) Session.Unheeded Session.Alike where
  refl := Session.Alike.refl
  unheeded := by
    intro m k ev ws m' hk hs hidle
    cases ev with
    | client msg => exact hidle.elim
    | bus b msg => exact (unheeded_step hs hidle).1.trans hk
  heeded := by
    intro m k ev ws m' hk hs hheeded
    cases ev with
    | client msg =>
        obtain ⟨k', hk', halike⟩ := client_alike hk hs.2
        exact ⟨k', ⟨hs.1, hk'⟩, halike⟩
    | bus b msg =>
        have hcall : m.isIncomingServiceCall msg b = true :=
          Bool.eq_true_of_not_eq_false hheeded
        obtain ⟨k', hk', halike⟩ := serviceCall_alike hk hcall hs.2
        exact ⟨k', ⟨hs.1, hk'⟩, halike⟩

/-- All that a run writes to the buses, in its order. -/
def toldBuses (t : List (Event × List Write)) : List Write :=
  t.flatMap fun x => x.2.filter (·.peer != .client)

section isolation

variable {L : Libs} {s s' k k' : Session}
  {t u v w : List (Event × List Write)}

/-- What is not heeded adds nothing to it. -/
theorem toldBuses_heeded
    (h : Heeds (Session.Step L) Session.Unheeded s t u s') :
    toldBuses t = toldBuses u := by
  apply h.outputs
  intro m ev ws m' hs hidle
  cases ev with
  | client msg => exact hidle.elim
  | bus b msg =>
      rw [List.filter_eq_nil_iff]
      intro x hx
      rw [(unheeded_step hs hidle).2 x hx]
      simp

/-- What a run heeds makes a run by itself that writes the same to the
buses. -/
theorem heeded_alone (h : Run L s t s') :
    ∃ u m, Heeds (Session.Step L) Session.Unheeded s t u s' ∧ Run L s u m
      ∧ toldBuses u = toldBuses t := by
  obtain ⟨u, hu⟩ : ∃ u, Heeds (Session.Step L) Session.Unheeded s t u s' :=
    Heeds.exists_of_run h
  obtain ⟨m, hm, -⟩ := hu.replay (session_unwinds L) (Session.Alike.refl s)
  exact ⟨u, m, hu, hm, (toldBuses_heeded hu).symm⟩

/-- Sessions that heed the same messages in the same order write the same to
the buses. -/
theorem buses_told_alike (h : s.Alike k)
    (ht : Heeds (Session.Step L) Session.Unheeded s t u s')
    (hv : Heeds (Session.Step L) Session.Unheeded k v w k')
    (hheeded : u.map Prod.fst = w.map Prod.fst) :
    toldBuses t = toldBuses v := by
  have hu : u = w := by
    apply ht.unique hv (session_unwinds L) h _ hheeded
    intro m ev ws ws' m₁ m₂ h₁ h₂
    have heq := h₁.2.symm.trans h₂.2
    cases heq
    exact ⟨rfl, rfl⟩
  rw [toldBuses_heeded ht, hu, ← toldBuses_heeded hv]

/-- The client answers a call from the host, and a reply from the sandbox may
come in between. -/
theorem buses_told_alike_between :
    toldBuses (registered.trace referenceLibs [.bus .host hostCall,
        .bus .sandbox (daemonReply 9 5 []), .client hostAnswer])
      = toldBuses (registered.trace referenceLibs [.bus .host hostCall,
        .client hostAnswer]) := by
  have hcall : registered.Step referenceLibs (.bus .host hostCall) _ _ :=
    step_react (by decide +kernel) (by decide +kernel)
  have hreply : Session.Step referenceLibs
      (registered.react referenceLibs (.bus .host hostCall)).1
      (.bus .sandbox (daemonReply 9 5 [])) _ _ :=
    step_react (by decide +kernel) (by decide +kernel)
  have hlate : Session.Step referenceLibs
      ((registered.react referenceLibs (.bus .host hostCall)).1.react
        referenceLibs (.bus .sandbox (daemonReply 9 5 []))).1
      (.client hostAnswer) _ _ :=
    step_react (by decide +kernel) (by decide +kernel)
  have hanswer : Session.Step referenceLibs
      (registered.react referenceLibs (.bus .host hostCall)).1
      (.client hostAnswer) _ _ :=
    step_react (by decide +kernel) (by decide +kernel)
  have hserved : ¬registered.Unheeded (.bus .host hostCall) := by
    show ¬registered.isIncomingServiceCall hostCall .host = false
    decide +kernel
  have hfirst := Heeds.nil.heeded hcall hserved
  have hlong := (hfirst.idle hreply rfl).heeded hlate id
  have hshort := hfirst.heeded hanswer id
  exact buses_told_alike (Session.Alike.refl registered) hlong hshort
    (by simp only [List.map_append, List.map_cons, List.map_nil])

end isolation

end DbusRouter.Model
