/-
The names a session tracks, and the names its client owns.

`Ownership` is the account the buses give: a name is owned on a bus from the
reply that grants it to the reply that releases it or the signal that says
it is lost. The session keeps another account: a name is tracked from the
request on, and for good (`services_run`). So the two agree on a name
exactly when it has been requested or is not owned, and is still owned if
it has been requested (`service_tracked_iff`).
-/
import DbusRouter.Proofs.Framing

namespace DbusRouter.Model

open Wire Lib

-- =================================================================== the account

/-- The string a body starts with. -/
def Message.firstString (msg : Message) : Option Text :=
  (stringIn msg.header.endian msg.body).bind fromUtf8

/-- The number a body starts with. -/
def Message.firstNumber (msg : Message) : Option Nat :=
  if msg.body.length < 4 then none
  else some (msg.header.endian.nat (msg.body.take 4))

/-- The calls about owning a name. -/
inductive NameCall where
  | request
  | release
  deriving DecidableEq, Repr

/-- Which of them a message is. A METHOD_CALL may leave the interface
out. -/
def Message.nameCall (msg : Message) : Option NameCall :=
  if msg.header.msgType = .methodCall
      ∧ msg.header.destination = some busName
      ∧ (msg.header.interface = none
        ∨ msg.header.interface = some busName) then
    if msg.header.member = some (utf8 "RequestName") then some .request
    else if msg.header.member = some (utf8 "ReleaseName") then some .release
    else none
  else none

/-- The daemon's signal that a name is lost. -/
def Message.isNameLost (msg : Message) : Bool :=
  msg.header.msgType == .signal && msg.header.interface == some busName
    && msg.header.member == some (utf8 "NameLost")

/-- What is known of the names of a client. -/
structure Ownership where
  /-- calls that wait for their reply, with the bus and the serial they went
  with -/
  asked : List ((Bus × Nat) × NameCall × Text)
  /-- the names owned, on each bus -/
  owned : List (Bus × Text)

namespace Ownership

/-- A call goes to a bus. -/
def ask (o : Ownership) (call : NameCall) (name : Text) (serial : Nat)
    (b : Bus) : Ownership where
  asked := ((b, serial), call, name)
    :: o.asked.filter fun x => x.1 != (b, serial)
  owned := o.owned

/-- A name is gone. -/
def lose (o : Ownership) (b : Bus) (name : Text) : Ownership where
  asked := o.asked
  owned := o.owned.filter fun x => x != (b, name)

/-- The outcome of a call: 1 (primary owner) and 4 (already the owner) grant
a name, 1 (released) releases it. -/
def settle (o : Ownership) (b : Bus) (name : Text) (code : Option Nat) :
    NameCall → Ownership
  | .request =>
      if code = some 1 ∨ code = some 4 then
        { o with owned := (b, name) :: o.owned }
      else o
  | .release => if code = some 1 then o.lose b name else o

/-- A reply from a bus, with the code in it if it is no error. -/
def answer (o : Ownership) (b : Bus) (serial : Nat) (code : Option Nat) :
    Ownership :=
  match o.asked.lookup (b, serial) with
  | none => o
  | some (call, name) =>
      settle { o with asked := o.asked.filter fun x => x.1 != (b, serial) }
        b name code call

/-- A message to a bus. -/
def sent (o : Ownership) (c : Message) (w : Write) : Ownership :=
  match w.peer, c.nameCall, c.firstString with
  | .bus b, some call, some name => o.ask call name c.header.serial b
  | _, _, _ => o

/-- A message of a bus daemon. -/
def heard (o : Ownership) (b : Bus) (r : Message) : Ownership :=
  if r.header.sender ≠ some busName then o
  else
    match r.header.msgType, r.header.replySerial, r.firstString with
    | .methodReturn, some n, _ => o.answer b n r.firstNumber
    | .error, some n, _ => o.answer b n none
    | .signal, _, some name => if r.isNameLost then o.lose b name else o
    | _, _, _ => o

/-- One event of a run. -/
def see (o : Ownership) (x : Event × List Write) : Ownership :=
  match x.1 with
  | .client c => x.2.foldl (fun o w => o.sent c w) o
  | .bus b r => o.heard b r

end Ownership

/-- What the messages of a run say about the names of the client. -/
def ownership (t : List (Event × List Write)) : Ownership :=
  t.foldl Ownership.see ⟨[], []⟩

-- ====================================================================== tracking

/-- The names tracked on a bus. -/
def Session.services (s : Session) : Bus → List Text
  | .host => s.exportedServices
  | .sandbox => s.sandboxServices

/-- A client message that answers no call, and is a `RequestName`, with the
interface in it, that is routed to bus `b`. -/
def Session.RequestsName (L : Libs) (s : Session) (c : Message) (b : Bus)
    (name : Text) : Prop :=
  ¬s.AnswersCall c ∧ c.isRequestName = true
    ∧ routeRequest L.glob s.config c s.clientExePath = .ok (.single b)
    ∧ c.firstString = some name

/-- The name has been requested on a bus. -/
def Requested (L : Libs) (config : Config) (exe : Option Bytes)
    (t : List (Event × List Write)) (b : Bus) (name : Text) : Prop :=
  ∃ u c ws v m, t = u ++ (.client c, ws) :: v
    ∧ Run L (Session.new config exe) u m ∧ m.RequestsName L c b name

/-- Calls from a bus to a name are service calls exactly when the client
owns it there. -/
def Session.TracksOwned (s : Session) (o : Ownership) (b : Bus)
    (name : Text) : Prop :=
  ∀ call : Message, call.header.msgType = .methodCall →
    call.header.destination = some name →
    (s.isIncomingServiceCall call b = true ↔ (b, name) ∈ o.owned)

theorem isIncomingServiceCall_iff {s : Session} {call : Message} {b : Bus}
    {name : Text} (hty : call.header.msgType = .methodCall)
    (hdest : call.header.destination = some name) :
    s.isIncomingServiceCall call b = true ↔ name ∈ s.services b := by
  unfold Session.isIncomingServiceCall Session.services
  rw [hty, hdest]
  cases b <;> simp

/-- A session handles an event in one way. -/
theorem session_step_unique {L : Libs} (s : Session) (ev : Event)
    (ws : List Write) (m m' : Session) (h : s.Step L ev ws m)
    (h' : s.Step L ev ws m') : m = m' := by
  have hok := h.2
  rw [h'.2] at hok
  cases hok
  rfl

/-- Tracking adds the name that is requested, on the bus it is requested
on. -/
theorem track_services {z : Zvariant} {s s₁ : Session} {msg : Message}
    {d : RouteDecision} (hacc : msg.Accepted z)
    (h : s.trackExportedService msg d = .ok s₁) (b : Bus) (name : Text) :
    name ∈ s₁.services b ↔ name ∈ s.services b
      ∨ msg.isRequestName = true ∧ d = .single b
        ∧ msg.firstString = some name := by
  obtain ⟨start, hbody⟩ := hacc.hasBody
  have hname : msg.extractNameFromBody = .ok msg.firstString :=
    extractNameFromBody_eq hbody
  unfold Session.trackExportedService at h
  by_cases hreq : msg.isRequestName = true
  · rw [hreq, hname, Outcome.ok_bind] at h
    cases hfirst : msg.firstString with
    | none =>
        rw [hfirst] at h
        cases h
        simp
    | some x =>
        rw [hfirst] at h
        rcases d with (_ | _) | _ | _
        all_goals
          cases h
          cases b <;> simp [Session.services, hreq, eq_comm, or_comm]
  · rw [Bool.not_eq_true] at hreq
    rw [hreq] at h
    cases h
    simp [hreq]

theorem services_congr {s s' : Session} {b : Bus} {name : Text}
    (h₁ : s'.exportedServices = s.exportedServices)
    (h₂ : s'.sandboxServices = s.sandboxServices) :
    name ∈ s'.services b ↔ name ∈ s.services b := by
  unfold Session.services
  rw [h₁, h₂]

/-- What one event does to the names tracked on a bus. -/
theorem services_step {L : Libs} {s s' : Session} {ev : Event}
    {ws : List Write} (h : s.Step L ev ws s') (b : Bus) (name : Text) :
    name ∈ s'.services b ↔ name ∈ s.services b
      ∨ ∃ c, ev = .client c ∧ s.RequestsName L c b name := by
  rcases step_cases h with ⟨msg, rfl, hd⟩ | ⟨b', msg, rfl, hu⟩
  · have hacc : msg.Accepted L.zvariant := h.1
    have hone : (∃ c, Event.client msg = .client c
        ∧ s.RequestsName L c b name) ↔ s.RequestsName L msg b name := by
      constructor
      · rintro ⟨c, hc, hreq⟩
        cases hc
        exact hreq
      · exact fun hreq => ⟨msg, rfl, hreq⟩
    rw [hone]
    cases hd with
    | reply hty hn hin =>
        have hanswers := answersCall_of_incoming hty hn hin
        refine Iff.trans (b := name ∈ s.services b) ?_ ?_
        · exact services_congr rfl rfl
        · unfold Session.RequestsName
          simp [hanswers]
    | toBus hno hroute htrack | toBoth hno hroute htrack
    | merge hno hroute htrack =>
        have htracked := track_services hacc htrack b name
        refine Iff.trans (services_congr ?_ ?_) (htracked.trans ?_)
        · rfl
        · rfl
        · unfold Session.RequestsName
          rw [hroute]
          simp [hno]
  · have hsame : name ∈ s'.services b ↔ name ∈ s.services b := by
      cases hu with
      | serviceCall | firstHalf | secondHalf | forwarded =>
          exact services_congr rfl rfl
    rw [hsame]
    simp

/-- The names tracked on a bus are those that have been requested there. -/
theorem services_run {L : Libs} {config : Config} {exe : Option Bytes}
    {t : List (Event × List Write)} {s : Session}
    (hrun : Run L (Session.new config exe) t s) (b : Bus) (name : Text) :
    name ∈ s.services b ↔ Requested L config exe t b name := by
  refine hrun.history (P := fun t s =>
    name ∈ s.services b ↔ Requested L config exe t b name) ?_ ?_
  · constructor
    · intro h
      cases b <;> cases h
    · rintro ⟨u, c, ws, v, m, ht, -⟩
      cases u <;> cases ht
  · intro t m ev ws m' hbefore ih hstep
    rw [services_step hstep, ih]
    constructor
    · rintro (⟨u, c, ws', v, m₀, rfl, hu, hreq⟩ | ⟨c, rfl, hreq⟩)
      · refine ⟨u, c, ws', v ++ [(ev, ws)], m₀, ?_, hu, hreq⟩
        rw [List.append_assoc, List.cons_append]
      · exact ⟨t, c, ws, [], m, rfl, hbefore, hreq⟩
    · rintro ⟨u, c, ws', v, m₀, ht, hu, hreq⟩
      rcases List.eq_nil_or_concat v with rfl | ⟨v', x, rfl⟩
      · obtain ⟨rfl, hlast⟩ := List.append_inj' ht rfl
        cases hlast
        obtain rfl := hbefore.unique hu session_step_unique
        exact Or.inr ⟨c, rfl, hreq⟩
      · left
        rw [List.concat_eq_append, ← List.cons_append,
          ← List.append_assoc] at ht
        obtain ⟨rfl, -⟩ := List.append_inj' ht rfl
        exact ⟨u, c, ws', v', m₀, rfl, hu, hreq⟩

/-- A session tracks the names its client owns on a bus, of which `name` may
be one, exactly when that name has been requested there or is not owned, and
is owned if it has been requested. -/
theorem service_tracked_iff {L : Libs} {config : Config}
    {exe : Option Bytes} {t : List (Event × List Write)} {s : Session}
    (hrun : Run L (Session.new config exe) t s) (b : Bus) (name : Text) :
    s.TracksOwned (ownership t) b name
      ↔ (Requested L config exe t b name
        ↔ (b, name) ∈ (ownership t).owned) := by
  rw [← services_run hrun]
  constructor
  · intro h
    have hcall := h (.compose 1 1 [(6, .str name)] [] []) rfl rfl
    rw [isIncomingServiceCall_iff rfl rfl] at hcall
    exact hcall
  · intro h call hty hdest
    rw [isIncomingServiceCall_iff hty hdest]
    exact h

-- ================================================================= one of each

/-- Where every request has been answered, sessions track the names their
clients own. -/
def ServicesOwned : Prop :=
  ∀ (L : Libs) (config : Config) (exe : Option Bytes)
    (t : List (Event × List Write)) (s : Session),
    L.zvariant.FollowsSpec → Run L (Session.new config exe) t s →
    (ownership t).asked = [] →
    ∀ b name, s.TracksOwned (ownership t) b name

/-- The daemon's reply to a call about a name. -/
def nameReply (serial n code : Nat) : Message :=
  .compose 2 serial
    [(5, .fixed .uint32 n), (7, .str busName),
     (8, .signature [.fixed .uint32])] (Endian.little.bytes 4 code) []

/-- A name is requested and granted. -/
def nameGranted : List Event :=
  [.client (.daemonCall 1 "RequestName" "org.a"),
   .bus .sandbox (nameReply 8 1 1)]

/-- And then released. -/
def nameReleased : List Event :=
  nameGranted ++ [.client (.daemonCall 2 "ReleaseName" "org.a"),
    .bus .sandbox (nameReply 9 2 1)]

theorem name_run (evs : List Event)
    (h : (Session.new sandboxOnly none).survives referenceLibs evs = true)
    (hacc : ∀ ev ∈ evs, ev.msg.Accepted referenceLibs.zvariant) :
    Run referenceLibs (Session.new sandboxOnly none)
      ((Session.new sandboxOnly none).trace referenceLibs evs)
      ((Session.new sandboxOnly none).after referenceLibs evs) :=
  (run_trace (C := fun _ _ => True) h hacc
    fun _ _ _ _ => trivial).of_meeting

/-- Calls to a name that has been released are still taken for service
calls. -/
theorem released_name_tracked : ¬ServicesOwned := by
  intro h
  have htracked := h referenceLibs sandboxOnly none _ _
    Zvariant.reference_followsSpec
    (name_run nameReleased (by decide +kernel) (by decide +kernel))
    (by decide +kernel) .sandbox (utf8 "org.a")
    (.peerCall 7 "org.a" ":1.6") rfl rfl
  revert htracked
  decide +kernel

/-- As long as the name is owned, they are service calls. -/
theorem service_tracked_iff_granted :
    ((Session.new sandboxOnly none).after referenceLibs
      nameGranted).TracksOwned
        (ownership ((Session.new sandboxOnly none).trace referenceLibs
          nameGranted)) .sandbox (utf8 "org.a") := by
  have hrun := name_run nameGranted (by decide +kernel)
    (by decide +kernel)
  refine (service_tracked_iff hrun .sandbox (utf8 "org.a")).mpr ?_
  have htracked : utf8 "org.a" ∈ ((Session.new sandboxOnly none).after
      referenceLibs nameGranted).services .sandbox := by
    decide +kernel
  have howned : (Bus.sandbox, utf8 "org.a")
      ∈ (ownership ((Session.new sandboxOnly none).trace referenceLibs
        nameGranted)).owned := by
    decide +kernel
  exact ⟨fun _ => howned, fun _ => (services_run hrun _ _).mp htracked⟩

end DbusRouter.Model
