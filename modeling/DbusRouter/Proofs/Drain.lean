/-
When the three maps are empty again.

The condition on a run is that its calls are settled: each one that expects a
reply has had it. Only merges drain under that. A message that is passed on
leaves its entry in `pendingCalls` for good, so it must not occur
(`calls_countdown`). Without one the client registers no name, so no bus
message is a service call and `incomingCalls` stays empty. What is left is
`pendingMerges`, and there a countdown of exactly the messages with the
merge's serial (`quiet_countdown`).
-/
import DbusRouter.Proofs.Serials

namespace DbusRouter.Model

open Wire Lib

-- =================================================================== settled

/-- A METHOD_CALL without the flag NO_REPLY_EXPECTED. -/
def Message.expectsReply (msg : Message) : Bool :=
  msg.header.msgType == .methodCall && msg.header.flags &&& 1 == 0

/-- A call that expects a reply has had it in `v`: a call of the client from
both buses where their replies are merged and otherwise from either, a call
from a bus from the client. -/
def Event.Settled (L : Libs) (config : Config) (exe : Option Bytes) :
    Event → List (Event × List Write) → Prop
  | .client c, v => c.expectsReply = true →
      if routeRequest L.glob config c exe = .ok .merge
      then ∀ b ∈ [Bus.host, Bus.sandbox], ∃ x ∈ v,
        x.1.isAnswer c.header.serial = true ∧ x.1.isFrom b = true
      else ∃ x ∈ v, x.1.isAnswer c.header.serial = true
  | .bus _ c, v => c.expectsReply = true →
      ∃ x ∈ v, x.1.isClientAnswer c.header.serial = true

instance (L : Libs) (config : Config) (exe : Option Bytes) (ev : Event)
    (v : List (Event × List Write)) :
    Decidable (ev.Settled L config exe v) := by
  cases ev <;> (unfold Event.Settled; infer_instance)

/-- Every METHOD_CALL of a run has been answered, or carried the flag
NO_REPLY_EXPECTED. -/
def Settled (L : Libs) (config : Config) (exe : Option Bytes)
    (t : List (Event × List Write)) : Prop :=
  Behind (Event.Settled L config exe) t

/-- Nothing is remembered under any serial. -/
def Session.Drained (s : Session) : Prop :=
  ∀ n, s.pendingCalls n = none ∧ s.incomingCalls n = none
    ∧ s.pendingMerges n = none

/-- A client message is one both buses are asked, and unless it expects a
reply, two messages from the buses have its serial. -/
def Event.Drains (L : Libs) (config : Config) (exe : Option Bytes) :
    Event → List (Event × List Write) → Prop
  | .client c, v => routeRequest L.glob config c exe = .ok .merge
      ∧ (c.expectsReply = true ∨ 2 ≤ uses (Event.mentions c.header.serial) v)
  | .bus _ _, _ => True

instance (L : Libs) (config : Config) (exe : Option Bytes) (ev : Event)
    (v : List (Event × List Write)) :
    Decidable (ev.Drains L config exe v) := by
  cases ev <;> (unfold Event.Drains; infer_instance)

/-- Every client message of a run drains. -/
def Drains (L : Libs) (config : Config) (exe : Option Bytes)
    (t : List (Event × List Write)) : Prop :=
  Behind (Event.Drains L config exe) t

-- =================================================================== no names

/-- No name of the client's is known, and no service call is waiting. -/
def Session.NoServices (s : Session) : Prop :=
  s.exportedServices = [] ∧ s.sandboxServices = []
    ∧ ∀ n, s.incomingCalls n = none

/-- The client sends nothing that is passed on. -/
def Session.OnlyMerges (L : Libs) (s : Session) (ev : Event) : Prop :=
  ∀ c, ev = .client c → ¬s.PassesOn L c

theorem Session.NoServices.not_serviceCall {s : Session}
    (h : s.NoServices) (msg : Message) (b : Bus) :
    s.isIncomingServiceCall msg b = false := by
  obtain ⟨hexported, hsandbox, -⟩ := h
  unfold Session.isIncomingServiceCall
  rw [hexported, hsandbox]
  cases msg.header.destination with
  | none => exact Bool.and_false _
  | some d =>
      cases b with
      | host => exact Bool.and_false _
      | sandbox => exact Bool.and_false _

theorem Session.NoServices.not_answersCall {s : Session}
    (h : s.NoServices) (msg : Message) : ¬s.AnswersCall msg := by
  rintro ⟨-, n, -, hsome⟩
  rw [h.2.2 n] at hsome
  cases hsome

/-- A merge registers no name. -/
theorem track_merge {s s₁ : Session} {msg : Message}
    (h : s.trackExportedService msg .merge = .ok s₁) : s₁ = s := by
  unfold Session.trackExportedService at h
  split at h
  next =>
    cases h
    rfl
  next =>
    obtain ⟨name, -, h⟩ := Outcome.bind_eq_ok h
    cases name with
    | none =>
        cases h
        rfl
    | some name =>
        cases h
        rfl

theorem noServices_bus {L : Libs} {s s' : Session} {msg : Message} {b : Bus}
    {ws : List Write} (h : Upstream L s msg b s' ws) (hs : s.NoServices) :
    s'.NoServices := by
  have hno := hs.not_serviceCall msg b
  cases h with
  | serviceCall hcall =>
      rw [hno] at hcall
      cases hcall
  | firstHalf => exact hs
  | secondHalf => exact hs
  | forwarded => exact hs

theorem noServices_client {L : Libs} {s s' : Session} {msg : Message}
    {ws : List Write} (h : Downstream L s msg s' ws) (hs : s.NoServices)
    (hno : ¬s.PassesOn L msg) :
    s'.NoServices ∧ s.AsksBoth L msg := by
  have hcall := hs.not_answersCall msg
  cases h with
  | reply hty hn hin =>
      exact absurd (answersCall_of_incoming hty hn hin) hcall
  | toBus _ hroute | toBoth _ hroute =>
      refine absurd ⟨hcall, ?_⟩ hno
      rw [hroute]
      simp
  | merge _ hroute htrack =>
      rw [track_merge htrack]
      exact ⟨hs, hcall, hroute⟩

/-- A run in which nothing is passed on meets it in states without
services, and ends in one. -/
theorem noServices_run {L : Libs} {config : Config} {exe : Option Bytes}
    {t : List (Event × List Write)} {s : Session}
    (hrun : Steps (Meeting (Session.Step L) (Session.OnlyMerges L))
      (Session.new config exe) t s) :
    Steps (Meeting (Session.Step L)
        fun m ev => m.NoServices ∧ m.OnlyMerges L ev)
      (Session.new config exe) t s ∧ s.NoServices := by
  refine hrun.meeting_invariant ⟨rfl, rfl, fun _ => rfl⟩ ?_
  intro m ev ws m' hm honly hstep
  rcases step_cases hstep with ⟨msg, rfl, hd⟩ | ⟨b, msg, rfl, hu⟩
  · exact (noServices_client hd hm (honly msg rfl)).1
  · exact noServices_bus hu hm

/-- A message that is routed to both buses for a merge is not passed on. -/
theorem onlyMerges_of_route {L : Libs} {config : Config}
    {exe : Option Bytes} {t : List (Event × List Write)} {s : Session}
    (hrun : Run L (Session.new config exe) t s)
    (hroute : ∀ u c ws v, t = u ++ (.client c, ws) :: v →
      routeRequest L.glob config c exe = .ok .merge) :
    Steps (Meeting (Session.Step L) (Session.OnlyMerges L))
      (Session.new config exe) t s := by
  refine hrun.meeting ?_
  rintro u ev ws v m m' ht hu - - c rfl hp
  obtain ⟨hconfig, hexe⟩ := run_config hu
  refine hp.2 ?_
  rw [hconfig, hexe]
  exact hroute u c ws v ht

-- ==================================================================== merges

/-- Without service calls, the messages that draw on a merge are those with
its serial. -/
theorem quiet_countdown (L : Libs) (n : Nat) :
    Countdown (Meeting (Session.Step L)
        fun m ev => m.NoServices ∧ m.OnlyMerges L ev)
      (mergeLevel n)
      (fun m ev => ∃ msg, ev = .client msg ∧ m.AsksBoth L msg
        ∧ msg.header.serial = n)
      (Event.mentions n) (Event.mentions n) 2 := by
  have hall := merges_countdown L n
  refine ⟨fun hs hf => hall.fill hs.2 hf, ?_, fun hs hf => hall.keep hs.2 hf⟩
  rintro m ev ws m' ⟨⟨hno, -⟩, hstep⟩ hf
  rcases step_cases hstep with ⟨msg, rfl, hd⟩ | ⟨b, msg, rfl, hu⟩
  · exact hall.draw hstep hf
  · rw [upstream_draws hu (hno.not_serviceCall msg b) n]

/-- A merge that both buses have answered has drawn twice. -/
theorem two_uses_of_answered {n : Nat} {v : List (Event × List Write)}
    (h : ∀ b ∈ [Bus.host, Bus.sandbox], ∃ x ∈ v,
      x.1.isAnswer n = true ∧ x.1.isFrom b = true) :
    2 ≤ uses (Event.mentions n) v := by
  obtain ⟨x, hx, hxa, hxb⟩ := h .host (by simp)
  obtain ⟨y, hy, hya, hyb⟩ := h .sandbox (by simp)
  have hmentions : ∀ (b : Bus) (ev : Event),
      (ev.isAnswer n && ev.isFrom b) = true → ev.mentions n = true := by
    intro b ev hev
    rw [Bool.and_eq_true] at hev
    cases ev with
    | client msg => cases hev.1
    | bus b' msg =>
        have hanswer := hev.1
        unfold Event.isAnswer at hanswer
        rw [Bool.and_eq_true] at hanswer
        exact hanswer.2
  have hpos₁ := uses_pos (p := fun ev => ev.isAnswer n && ev.isFrom .host)
    hx (by rw [hxa, hxb]; rfl)
  have hpos₂ := uses_pos
    (p := fun ev => ev.isAnswer n && ev.isFrom .sandbox) hy
    (by rw [hya, hyb]; rfl)
  have hle := uses_add_le (q := fun ev => ev.isAnswer n
    && ev.isFrom .sandbox) v (hmentions .host) (hmentions .sandbox) (by
      intro ev hev
      cases ev with
      | client msg => cases hev
      | bus b msg =>
          cases b with
          | host => exact Bool.and_false _
          | sandbox =>
              rw [Bool.and_eq_true] at hev
              cases hev.2)
  omega

-- ==================================================================== drained

/-- Nothing of a drained run has been passed on. -/
theorem onlyMerges_of_drained {L : Libs} {s s' : Session}
    {t : List (Event × List Write)} (hrun : Run L s t s')
    (hdrained : s'.Drained) :
    Steps (Meeting (Session.Step L) (Session.OnlyMerges L)) s t s' := by
  refine hrun.meeting ?_
  rintro u ev ws v m m' - - hstep hv c rfl hp
  have hlevel : callLevel c.header.serial s' = 0 := by
    unfold callLevel
    rw [(hdrained c.header.serial).1]
    rfl
  have hused := (calls_countdown L c.header.serial).drawn hstep
    ⟨c, rfl, hp, rfl⟩ hv hlevel
  have hzero : uses (fun _ => false) v = 0 := by
    unfold uses
    simp
  omega

/-- A drained run drains. -/
theorem drains_of_drained {L : Libs} {config : Config} {exe : Option Bytes}
    {t : List (Event × List Write)} {s : Session}
    (hrun : Run L (Session.new config exe) t s) (hdrained : s.Drained) :
    Drains L config exe t := by
  refine behind_iff.mpr ?_
  intro u ev ws v ht
  subst ht
  cases ev with
  | bus b msg => exact trivial
  | client c =>
      obtain ⟨m, hu, hv⟩ := (onlyMerges_of_drained hrun hdrained).split
      obtain ⟨m', hfirst, hrest⟩ := Steps.split (u := [(_, ws)]) hv
      obtain ⟨honly, hstep⟩ := hfirst.of_single
      obtain ⟨hconfig, hexe⟩ := run_config hu.of_meeting
      have hasks : m.AsksBoth L c := by
        rcases step_cases hstep with ⟨msg, hev, hd⟩ | ⟨b, msg, hev, -⟩
        · cases hev
          exact (noServices_client hd (noServices_run hu).2 (honly c rfl)).2
        · cases hev
      have hroute := hasks.2
      rw [hconfig, hexe] at hroute
      have huses := (merges_countdown L c.header.serial).drawn hstep
        ⟨c, rfl, hasks, rfl⟩ hrest.of_meeting
        (mergeLevel_of_none (hdrained c.header.serial).2.2)
      exact ⟨hroute, Or.inr huses⟩

/-- A settled run that drains is drained. -/
theorem drained_of_drains {L : Libs} {config : Config} {exe : Option Bytes}
    {t : List (Event × List Write)} {s : Session}
    (hrun : Run L (Session.new config exe) t s)
    (hsettled : Settled L config exe t) (hdrains : Drains L config exe t) :
    s.Drained := by
  have hdrain := behind_iff.mp hdrains
  have hsettle := behind_iff.mp hsettled
  have honly := onlyMerges_of_route hrun
    fun u c ws v ht => (hdrain u (.client c) ws v ht).1
  obtain ⟨hquiet, -, -, hincoming⟩ := noServices_run honly
  intro n
  refine ⟨?_, hincoming n, ?_⟩
  · have hlevel : callLevel n s = 0 := by
      refine ((calls_countdown L n).meeting _).empty hquiet rfl ?_
      rintro u ev ws v m m' - - ⟨⟨-, honly⟩, -⟩ ⟨c, rfl, hp, -⟩
      exact absurd hp (honly c rfl)
    unfold callLevel at hlevel
    by_contra hne
    rw [Option.isSome_iff_ne_none.mpr hne] at hlevel
    cases hlevel
  · apply mergeLevel_eq_zero
    refine (quiet_countdown L n).empty hquiet rfl ?_
    rintro u ev ws v m m' ht - - ⟨c, rfl, -, rfl⟩
    obtain ⟨hroute, hreply | huses⟩ := hdrain u (.client c) ws v ht
    · have hanswered := hsettle u (.client c) ws v ht hreply
      rw [if_pos hroute] at hanswered
      exact two_uses_of_answered hanswered
    · exact huses

/-- The bookkeeping of a settled run has drained exactly when every client
message was one that drains. -/
theorem maps_drain_iff {L : Libs} {config : Config} {exe : Option Bytes}
    {t : List (Event × List Write)} {s : Session}
    (hrun : Run L (Session.new config exe) t s)
    (hsettled : Settled L config exe t) :
    s.Drained ↔ Drains L config exe t := by
  constructor
  · exact drains_of_drained hrun
  · exact drained_of_drains hrun hsettled

-- ================================================================= one of each

/-- In every settled run the bookkeeping has drained. -/
def MapsDrain : Prop :=
  ∀ (L : Libs) (config : Config) (exe : Option Bytes)
    (t : List (Event × List Write)) (s : Session),
    L.zvariant.FollowsSpec → Run L (Session.new config exe) t s →
    Settled L config exe t → s.Drained

/-- A call to the bus daemon, and its reply. -/
def answeredCall : List Event :=
  [.client (.daemonCall 5 "GetNameOwner" "org.a"),
   .bus .sandbox (daemonReply 9 5 [])]

/-- The entry of the answered call is still there. -/
theorem call_left_behind : ¬MapsDrain := by
  intro h
  have hrun : Run referenceLibs (Session.new sandboxOnly none)
      ((Session.new sandboxOnly none).trace referenceLibs answeredCall) _ :=
    (run_trace (C := fun _ _ => True) (by decide +kernel) (by decide +kernel)
      fun _ _ _ _ => trivial).of_meeting
  have hsettled : Settled referenceLibs sandboxOnly none
      ((Session.new sandboxOnly none).trace referenceLibs answeredCall) := by
    unfold Settled
    decide +kernel
  have hleft := (h referenceLibs sandboxOnly none _ _
    Zvariant.reference_followsSpec hrun hsettled 5).1
  revert hleft
  decide +kernel

/-- The names of both buses have been asked for and merged, and nothing is
left. -/
theorem maps_drain_iff_merged :
    ((Session.new sandboxOnly none).after referenceLibs
      namesOfBoth).Drained := by
  have hrun : Run referenceLibs (Session.new sandboxOnly none)
      ((Session.new sandboxOnly none).trace referenceLibs namesOfBoth) _ :=
    (run_trace (C := fun _ _ => True) (by decide +kernel) (by decide +kernel)
      fun _ _ _ _ => trivial).of_meeting
  refine (maps_drain_iff hrun ?_).mpr ?_
  · unfold Settled
    decide +kernel
  · unfold Drains
    decide +kernel

end DbusRouter.Model
