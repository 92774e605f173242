/-
The session as an exchange of letters.

What the router is for can be said without bytes, header arrays or pending
calls: an exchange hands each letter of a bus to the client under a name that
says which bus it comes from, hands each letter of the client to one bus under
the name it is meant for, and remembers the calls the client has still to
answer. Traffic that is not the bus daemon's business (`Session.Ordinary`) the
session treats just so: its runs on it are runs of the exchange, letter for
letter (`session_refines_exchange`), so what holds of the exchange holds of
the bytes on the sockets. The answer to a call finds its caller
(`call_answered`).
-/
import DbusRouter.Lib.Simulation
import DbusRouter.Proofs.Letter
import DbusRouter.Proofs.Services

namespace DbusRouter.Model

open Wire Lib

-- ============================================================== the exchange

/-- The serial of the call a letter answers. -/
def Letter.answered (l : Letter) : Option Nat :=
  if l.header.msgType = .methodReturn ∨ l.header.msgType = .error then
    l.header.replySerial
  else none

/-- The books of an exchange. -/
structure Exchange where
  /-- the names the client has asked a bus for -/
  services : Bus → List Text
  /-- the bus of each call the client has still to answer -/
  owed : PMap Nat Bus

namespace Exchange

/-- The letter is a call to a name the client has asked the bus for. -/
def serves (x : Exchange) (b : Bus) (l : Letter) : Bool :=
  l.header.msgType == .methodCall
    && l.header.destination.any (x.services b).contains

/-- A letter of a bus as it is handed to the client. Peers of the host that
call a service keep their name. -/
def present (x : Exchange) (b : Bus) (l : Letter) : Letter :=
  if x.serves b l && b == .host then l else l.shown b

/-- The books with a call of the bus entered. -/
def entered (x : Exchange) (b : Bus) (l : Letter) : Exchange :=
  if x.serves b l then { x with owed := x.owed.insert l.serial b } else x

/-- The books with the call that a letter of the client answers crossed
out. -/
def settled (x : Exchange) (l : Letter) : Exchange :=
  match l.answered with
  | none => x
  | some n => { x with owed := x.owed.remove n }

/-- The bus a letter of the client goes to: that of the call it answers, or
the home of the name it is addressed to. -/
def busFor (home : Option Text → Bus) (x : Exchange) (l : Letter) : Bus :=
  (l.answered.bind x.owed).getD (home l.header.destination)

/-- One letter handed in, and what is handed out for it. -/
def handle (home : Option Text → Bus) (x : Exchange) :
    Peer × Letter → (Peer × Letter) × Exchange
  | (.bus b, l) => ((.client, x.present b l), x.entered b l)
  | (.client, l) => ((.bus (x.busFor home l), l.meant), x.settled l)

/-- A step of an exchange. -/
def Step (home : Option Text → Bus) (x : Exchange) (i o : Peer × Letter)
    (x' : Exchange) : Prop :=
  x.handle home i = (o, x')

end Exchange

-- =============================================================== calls answered

namespace Exchange

variable {home : Option Text → Bus} {x x' : Exchange}

/-- What is handed in enters a call under the serial, or answers one. -/
def touches (x : Exchange) (n : Nat) : Peer × Letter → Bool
  | (.bus b, l) => x.serves b l && l.serial == n
  | (.client, l) => l.answered == some n

/-- A step asks for no name. -/
theorem step_services {i o : Peer × Letter} (h : x.Step home i o x') :
    x'.services = x.services := by
  obtain ⟨p, l⟩ := i
  cases p with
  | bus b =>
      cases h
      unfold entered
      split <;> rfl
  | client =>
      cases h
      unfold settled
      split <;> rfl

theorem run_services {t : List ((Peer × Letter) × (Peer × Letter))}
    (h : Steps (Step home) x t x') : x'.services = x.services :=
  h.invariant (I := fun m => m.services = x.services) rfl
    fun _ _ _ _ hm hs => (step_services hs).trans hm

theorem serves_congr (h : x'.services = x.services) (b : Bus) (l : Letter) :
    x'.serves b l = x.serves b l := by
  unfold serves
  rw [h]

theorem touches_congr (h : x'.services = x.services) (n : Nat)
    (i : Peer × Letter) : x'.touches n i = x.touches n i := by
  obtain ⟨p, l⟩ := i
  cases p with
  | client => rfl
  | bus b => simp only [touches, serves_congr h]

/-- A step keeps what is owed under a serial it does not touch. -/
theorem step_untouched {i o : Peer × Letter} {n : Nat}
    (h : x.Step home i o x') (hno : x.touches n i = false) :
    x'.owed n = x.owed n := by
  obtain ⟨p, l⟩ := i
  cases p with
  | bus b =>
      cases h
      unfold entered
      by_cases hserves : x.serves b l = true
      · have hne : n ≠ l.serial := by
          intro heq
          simp [touches, hserves, heq] at hno
        rw [if_pos hserves]
        exact PMap.insert_of_ne _ _ hne
      · rw [if_neg hserves]
  | client =>
      cases h
      unfold settled
      cases hn : l.answered with
      | none => rfl
      | some k =>
          have hne : n ≠ k := by
            intro heq
            simp [touches, hn, heq] at hno
          exact PMap.remove_of_ne _ hne

/-- So does a run that does not touch the serial. -/
theorem run_untouched {n : Nat}
    {t : List ((Peer × Letter) × (Peer × Letter))}
    (h : Steps (Step home) x t x')
    (hno : ∀ e ∈ t, x.touches n e.1 = false) : x'.owed n = x.owed n := by
  induction h with
  | nil => rfl
  | @snoc t m i o m' hr hs ih =>
      have howed := ih fun e he => hno e (List.mem_append_left _ he)
      have hlast : m.touches n i = false := by
        rw [touches_congr (run_services hr)]
        exact hno (i, o) (List.mem_append_right _ (List.mem_singleton.mpr rfl))
      exact (step_untouched hs hlast).trans howed

/-- A call to a name the client has asked for is handed over, and the first
letter that answers its serial goes back to its bus, whatever is handed over in
between. -/
theorem answer_finds_caller {b : Bus} {c r : Letter} {o o' : Peer × Letter}
    {u v w : List ((Peer × Letter) × (Peer × Letter))}
    (h : Steps (Step home) x
      (u ++ ((.bus b, c), o) :: (v ++ ((.client, r), o') :: w)) x')
    (hserved : x.serves b c = true) (hanswer : r.answered = some c.serial)
    (hno : ∀ e ∈ v, x.touches c.serial e.1 = false) :
    o = (.client, x.present b c) ∧ o' = (.bus b, r.meant) := by
  obtain ⟨m, hu, hrest⟩ := h.split
  obtain ⟨m₁, hcall, hrest⟩ := Steps.split (u := [((Peer.bus b, c), o)]) hrest
  obtain ⟨m₂, hv, hrest⟩ := hrest.split
  obtain ⟨m₃, hreply, -⟩ := Steps.split (u := [((Peer.client, r), o')]) hrest
  have hservices := run_services hu
  have hcall := Steps.of_single hcall
  have hreply := Steps.of_single hreply
  have hservices₁ := (step_services hcall).trans hservices
  have howed : m₂.owed c.serial = some b := by
    rw [run_untouched hv fun e he => (touches_congr hservices₁ _ _).trans
      (hno e he)]
    cases hcall
    unfold entered
    rw [serves_congr hservices, hserved, if_pos rfl]
    exact PMap.insert_self ..
  refine ⟨?_, ?_⟩
  · cases hcall
    unfold present
    rw [serves_congr hservices]
  · cases hreply
    unfold busFor
    rw [hanswer, Option.bind_some, howed, Option.getD_some]

end Exchange

-- =============================================================== the session

/-- The books a session keeps. -/
def Session.exchange (s : Session) : Exchange where
  services := s.services
  owed := s.incomingCalls

/-- The bus a name is at home on. -/
def homeOf (L : Libs) (config : Config) (exe : Option Bytes)
    (dest : Option Text) : Bus :=
  if isHostpass L.glob config exe then .host
  else (dest.bind getBusFromFakeName).getD
    (if dest.any config.shouldRouteToHost then .host else .sandbox)

/-- The peer an event is from. -/
def Event.peer : Event → Peer
  | .client _ => .client
  | .bus b _ => .bus b

/-- The body of a message from a bus is rewritten for its member, or for that
of the call it answers. -/
def Session.rewritesBody (s : Session) (b : Bus) (msg : Message) : Bool :=
  match msg.header.msgType with
  | .methodReturn =>
      (msg.header.replySerial.bind s.pendingCalls).any fun info =>
        info.bus == b && info.member.any needsResponseRewrite
  | .signal => msg.header.member.any signalNeedsRewrite
  | _ => false

/-- Traffic between peers: a message whose header fields are decoded and
whose name can be replaced, which is no half of a merged list, keeps its body,
and is not for the bus daemon unless it answers a call. -/
inductive Session.Ordinary (z : Zvariant) (s : Session) : Event → Prop
  | bus {b : Bus} {msg : Message} (hsaid : ∃ l, msg.Says z l)
      (hdelivers : s.Delivers msg b) (hbody : s.rewritesBody b msg = false)
      (hname : s.isHostServiceCall msg b = false → msg.SenderShowable) :
      s.Ordinary z (.bus b msg)
  | client {msg : Message} (hsaid : ∃ l, msg.Says z l)
      (hpeer : s.AnswersCall msg ∨ msg.header.destination ≠ some busName)
      (hname : msg.DestinationMeant) : s.Ordinary z (.client msg)

/-- An event with what is written on it, and a letter with what is handed out
for it: the event's message says the one, and the one message that is written
says the other. -/
def Carried (z : Zvariant) (x : Event × List Write)
    (y : (Peer × Letter) × (Peer × Letter)) : Prop :=
  x.1.peer = y.1.1 ∧ x.1.msg.Says z y.1.2
    ∧ ∃ m : Message, m.Accepted z ∧ m.Says z y.2.2
      ∧ x.2 = [⟨y.2.1, m.raw, m.fds⟩]

section steps

variable {L : Libs} {s s' : Session} {msg : Message} {b : Bus}
  {l : Letter} {ws : List Write}

/-- The exchange serves the calls the session does. -/
theorem serves_exchange (hheader : msg.header = l.header) :
    s.exchange.serves b l = s.isIncomingServiceCall msg b := by
  unfold Exchange.serves Session.isIncomingServiceCall
  rw [hheader]
  cases l.header.destination with
  | none => rfl
  | some d => cases b <;> rfl

theorem answered_eq (hheader : msg.header = l.header) {n : Nat} :
    l.answered = some n ↔ (msg.header.msgType = .methodReturn
      ∨ msg.header.msgType = .error) ∧ msg.header.replySerial = some n := by
  unfold Letter.answered
  rw [← hheader]
  split
  next hty => simp [hty]
  next hty => simp [hty]

/-- Ordinary messages from a bus keep their bodies. -/
theorem keepsBody_of_ordinary (hdelivers : s.Delivers msg b)
    (hbody : s.rewritesBody b msg = false)
    (hname : s.isHostServiceCall msg b = false → msg.SenderShowable) :
    s.KeepsBody b msg where
  merge hcall pending hmerge := by
    rcases hdelivers with h | h
    · rw [h] at hcall
      cases hcall
    · rw [h] at hmerge
      cases hmerge
  reply hty n info member hn hinfo hbus hmember := by
    unfold Session.rewritesBody at hbody
    simp only [hty, hn, Option.bind_some, hinfo, Option.any_some, hbus,
      hmember, BEq.rfl, Bool.true_and] at hbody
    exact hbody
  signal hty member hmember := by
    unfold Session.rewritesBody at hbody
    simp only [hty, hmember, Option.any_some] at hbody
    exact hbody
  header hhost u fs hs hu hfields := ((hname hhost u hs hu).1 fs hfields).plain

/-- A message from a bus is handed to the client as the exchange hands it. -/
theorem bus_step (hz : L.zvariant.FollowsSpec)
    (hord : s.Ordinary L.zvariant (.bus b msg))
    (hstep : s.Step L (.bus b msg) ws s') (hsaid : msg.Says L.zvariant l) :
    (∃ m : Message, m.Accepted L.zvariant
      ∧ m.Says L.zvariant (s.exchange.present b l)
      ∧ ws = [⟨.client, m.raw, m.fds⟩])
    ∧ s'.exchange = s.exchange.entered b l := by
  have hacc : msg.Accepted L.zvariant := hstep.1
  have hok := hstep.2
  have hheader := hsaid.header hz hacc
  have hserves := serves_exchange (s := s) (b := b) hheader
  cases hord with
  | bus _ hdelivers hbody hname =>
      have hkeeps := keepsBody_of_ordinary hdelivers hbody hname
      unfold Exchange.present Exchange.entered
      rw [hserves]
      cases upstream_of_ok hok with
      | @serviceCall m hcall hm =>
          have hserial : msg.header.serial = l.serial := by
            rw [hheader]
            rfl
          rw [hcall, ← hserial]
          refine ⟨?_, rfl⟩
          unfold serviceCallMessage at hm
          cases b with
          | host =>
              cases hm
              exact ⟨msg, hacc, hsaid, rfl⟩
          | sandbox =>
              have hshow := hname (by simp [Session.isHostServiceCall])
              obtain ⟨m', hm', hacc', hfds, hsaid', -⟩ :=
                toClient_says .sandbox hz hacc hsaid hshow
              rw [if_pos rfl, hm', Outcome.orElse_ok] at hm
              cases hm
              exact ⟨m, hacc', hsaid', by rw [hfds]⟩
      | firstHalf hno hn hp => exact absurd hp (hdelivers.no_merge hno hn)
      | secondHalf hno hn hp => exact absurd hp (hdelivers.no_merge hno hn)
      | @forwarded raw hno _ hraw =>
          have hshow := hname (by rw [Session.isHostServiceCall, hno]; rfl)
          obtain ⟨m', hm', hacc', hfds, hsaid', x, hx⟩ :=
            toClient_says b hz hacc hsaid hshow
          obtain ⟨-, m, hm, hrewrite⟩ := prepare_eq_ok hraw
          rw [hm', Outcome.orElse_ok] at hm
          cases hm
          rw [rewriteBodyForClient_of_kept hkeeps hx hrewrite, hno]
          exact ⟨⟨m', hacc', hsaid', by rw [hfds]⟩, rfl⟩

/-- A message that is not for the bus daemon has a home. -/
theorem routeRequest_of_peer (hdest : msg.header.destination ≠ some busName) :
    routeRequest L.glob s.config msg s.clientExePath = .ok (.single
      (homeOf L s.config s.clientExePath msg.header.destination)) := by
  unfold routeRequest homeOf
  by_cases hpass : isHostpass L.glob s.config s.clientExePath = true
  · rw [if_pos hpass, if_pos hpass]
  · rw [if_neg hpass, if_neg hpass]
    cases msg.header.destination.bind getBusFromFakeName with
    | some b => rfl
    | none =>
        have hno : ¬(msg.header.destination = some busName
            ∧ msg.header.interface = some busName) := fun h => hdest h.1
        simp only [if_neg hno, Option.getD_none]
        split <;> rfl

/-- A message that is not for the bus daemon requests no name. -/
theorem track_peer (hdest : msg.header.destination ≠ some busName)
    (d : RouteDecision) : s.trackExportedService msg d = .ok s := by
  have hno : msg.isRequestName = false := by
    unfold Message.isRequestName
    simp [hdest]
  unfold Session.trackExportedService
  rw [hno]
  rfl

/-- What answers no call the session remembers answers none the exchange
is owed. -/
theorem not_owed (hheader : msg.header = l.header)
    (hno : ¬s.AnswersCall msg) : l.answered.bind s.exchange.owed = none
      ∧ s.exchange.settled l = s.exchange := by
  unfold Exchange.settled
  cases hn : l.answered with
  | none => exact ⟨rfl, rfl⟩
  | some n =>
      obtain ⟨hty, hserial⟩ := (answered_eq hheader).mp hn
      have howed : s.exchange.owed n = none := by
        cases hin : s.incomingCalls n with
        | none => exact hin
        | some b => exact absurd (answersCall_of_incoming hty hserial hin) hno
      refine ⟨howed, ?_⟩
      simp only [PMap.remove_of_none howed]

/-- A message of the client's is handed to the bus the exchange hands it
to. -/
theorem client_step (hz : L.zvariant.FollowsSpec)
    (hord : s.Ordinary L.zvariant (.client msg))
    (hstep : s.Step L (.client msg) ws s') (hsaid : msg.Says L.zvariant l) :
    (∃ m : Message, m.Accepted L.zvariant ∧ m.Says L.zvariant l.meant
      ∧ ws = [⟨.bus (s.exchange.busFor
          (homeOf L s.config s.clientExePath) l), m.raw, m.fds⟩])
    ∧ s'.exchange = s.exchange.settled l := by
  have hacc : msg.Accepted L.zvariant := hstep.1
  have hok := hstep.2
  have hheader := hsaid.header hz hacc
  cases hord with
  | client _ hpeer hname =>
      unfold Exchange.busFor Exchange.settled
      cases downstream_of_ok hok with
      | @reply n b m hty hn hin hm =>
          obtain ⟨m', hm', hacc', hfds, hsaid', -⟩ :=
            toUpstream_says b hz hacc hsaid hname
          rw [hm', Outcome.orElse_ok] at hm
          cases hm
          have hanswered := (answered_eq hheader).mpr ⟨hty, hn⟩
          have howed : s.exchange.owed n = some b := hin
          rw [hanswered, Option.bind_some, howed, Option.getD_some]
          exact ⟨⟨m, hacc', hsaid', by rw [hfds]⟩, rfl⟩
      | @toBus target s₁ m raw hno hroute htrack hm hraw =>
          have hdest := hpeer.resolve_left hno
          obtain ⟨m', hm', hacc', hfds, hsaid', hname'⟩ :=
            toUpstream_says target hz hacc hsaid hname
          rw [hm', Outcome.orElse_ok] at hm
          cases hm
          have hbody : m.header.destination ≠ some busName := by
            intro h
            rcases hname' _ h with hsame | hunique
            · exact hdest hsame
            · exact ne_busName hunique rfl
          rw [rewriteRequestBody_of_ne hbody] at hraw
          cases hraw
          rw [routeRequest_of_peer hdest] at hroute
          cases hroute
          rw [track_peer hdest] at htrack
          cases htrack
          obtain ⟨howed, hsettled⟩ := not_owed hheader hno
          unfold Exchange.settled at hsettled
          rw [howed, Option.getD_none, hsettled, ← hheader]
          exact ⟨⟨m, hacc', hsaid', by rw [hfds]⟩, rfl⟩
      | toBoth hno hroute =>
          obtain ⟨-, hdest, -⟩ := routeRequest_of_not_single hroute (by simp)
          exact absurd hdest (hpeer.resolve_left hno)
      | merge hno hroute =>
          obtain ⟨-, hdest, -⟩ := routeRequest_of_not_single hroute (by simp)
          exact absurd hdest (hpeer.resolve_left hno)

/-- A step on ordinary traffic is a step of the exchange. -/
theorem session_step (hz : L.zvariant.FollowsSpec) {ev : Event}
    (hord : s.Ordinary L.zvariant ev) (hstep : s.Step L ev ws s') :
    ∃ i o, Exchange.Step (homeOf L s.config s.clientExePath) s.exchange i o
        s'.exchange
      ∧ Carried L.zvariant (ev, ws) (i, o) := by
  cases ev with
  | client msg =>
      obtain ⟨l, hsaid⟩ : ∃ l, msg.Says L.zvariant l := by
        cases hord with
        | client hsaid => exact hsaid
      obtain ⟨⟨m, hacc, hsaid', hws⟩, hx⟩ :=
        client_step hz hord hstep hsaid
      exact ⟨(.client, l), _, by rw [hx]; rfl, rfl, hsaid, m, hacc, hsaid', hws⟩
  | bus b msg =>
      obtain ⟨l, hsaid⟩ : ∃ l, msg.Says L.zvariant l := by
        cases hord with
        | bus hsaid => exact hsaid
      obtain ⟨⟨m, hacc, hsaid', hws⟩, hx⟩ := bus_step hz hord hstep hsaid
      exact ⟨(.bus b, l), _, by rw [hx]; rfl, rfl, hsaid, m, hacc, hsaid', hws⟩

end steps

-- ================================================================ what is ordinary

/-- Whether the header fields of a message decode. -/
def Message.fieldsRead (z : Zvariant) (msg : Message) : Bool :=
  (z.fields msg.header.endian 12
    (fieldArray msg.header.endian msg.fieldBytes)).isSome

/-- Whether traffic is ordinary, for a message that was accepted. -/
def Session.isOrdinary (z : Zvariant) (s : Session) : Event → Bool
  | .bus b msg =>
      msg.fieldsRead z
        && (s.isIncomingServiceCall msg b || (s.mergeOf msg).isNone)
        && !s.rewritesBody b msg
        && (s.isHostServiceCall msg b || !msg.header.sender.any isUniqueName
          || msg.readable 7 && decide (msg.fieldBytes.length + 8 ≤ 2 ^ 26))
  | .client msg =>
      msg.fieldsRead z && msg.header.destination != some busName
        && (!msg.header.destination.any (getBusFromFakeName · |>.isSome)
          || msg.readable 6)

theorem says_of_fieldsRead {z : Zvariant} {msg : Message} (hz : z.FollowsSpec)
    (hacc : msg.Accepted z) (h : msg.fieldsRead z = true) :
    ∃ l, msg.Says z l := by
  obtain ⟨fs, hfs⟩ := Option.isSome_iff_exists.mp h
  obtain ⟨hfields, ht⟩ := (fields_eq_some hz hacc).mp hfs
  exact hacc.exists_letter hfields ht

/-- The check of ordinary traffic is right. -/
theorem ordinary_of_check {z : Zvariant} {s : Session} {ev : Event}
    (hz : z.FollowsSpec) (hacc : ev.msg.Accepted z)
    (h : s.isOrdinary z ev = true) : s.Ordinary z ev := by
  cases ev with
  | bus b msg =>
      have hacc : msg.Accepted z := hacc
      simp only [Session.isOrdinary, Bool.and_eq_true, Bool.or_eq_true,
        Option.isNone_iff_eq_none, decide_eq_true_eq,
        Bool.not_eq_true'] at h
      obtain ⟨⟨⟨hfields, hdelivers⟩, hbody⟩, hname⟩ := h
      refine .bus (says_of_fieldsRead hz hacc hfields) hdelivers hbody ?_
      intro hhost u hs hu
      rw [hhost, hs, Option.any_some, hu] at hname
      obtain ⟨hread, hroom⟩ := hname.resolve_left (by simp)
      exact ⟨readable_iff.mp hread, hroom⟩
  | client msg =>
      have hacc : msg.Accepted z := hacc
      simp only [Session.isOrdinary, Bool.and_eq_true, Bool.or_eq_true,
        bne_iff_ne, Bool.not_eq_true'] at h
      obtain ⟨⟨hfields, hpeer⟩, hname⟩ := h
      refine .client (says_of_fieldsRead hz hacc hfields) (Or.inr hpeer) ?_
      intro d hd hfake
      rw [hd, Option.any_some] at hname
      have hsome : (getBusFromFakeName d).isSome = true :=
        Option.isSome_iff_ne_none.mpr hfake
      exact readable_iff.mp (hname.resolve_left (by simp [hsome]))

/-- Whether a session gets ordinary traffic only. -/
def Session.allOrdinary (L : Libs) : Session → List Event → Bool
  | _, [] => true
  | s, ev :: evs =>
      s.isOrdinary L.zvariant ev && allOrdinary L (s.react L ev).1 evs

theorem isOrdinary_of_all {L : Libs} {evs : List Event} {s : Session}
    (h : s.allOrdinary L evs = true) {u v : List Event} {ev : Event}
    (hev : evs = u ++ ev :: v) :
    (s.after L u).isOrdinary L.zvariant ev = true := by
  induction u generalizing s evs with
  | nil =>
      subst hev
      simp only [List.nil_append, Session.allOrdinary, Bool.and_eq_true] at h
      exact h.1
  | cons e u ih =>
      subst hev
      simp only [List.cons_append, Session.allOrdinary, Bool.and_eq_true] at h
      exact ih h.2 rfl

theorem ordinary_run {L : Libs} {s : Session} {evs : List Event}
    (hz : L.zvariant.FollowsSpec) (halive : s.survives L evs = true)
    (hacc : ∀ ev ∈ evs, ev.msg.Accepted L.zvariant)
    (h : s.allOrdinary L evs = true) :
    Steps (Meeting (Session.Step L) (Session.Ordinary L.zvariant)) s
      (s.trace L evs)
      (s.after L evs) := by
  apply run_trace halive hacc
  intro u ev v hev
  refine ordinary_of_check hz (hacc ev ?_) (isOrdinary_of_all h hev)
  rw [hev]
  simp

/-- A sandbox peer calls the client, a host peer sends a signal, and the client
answers the call. -/
def callAndAnswer : List Event :=
  [.bus .sandbox sandboxCall, .bus .host (peerSignal "OwnersChanged"),
    .client (.answer 3 7 ":s.1.6")]

theorem callAndAnswer_run :
    Steps (Meeting (Session.Step referenceLibs)
        (Session.Ordinary .reference)) registered
      (registered.trace referenceLibs callAndAnswer)
      (registered.after referenceLibs callAndAnswer) :=
  ordinary_run Zvariant.reference_followsSpec (by decide +kernel)
    (by decide +kernel) (by decide +kernel)

-- ==================================================================== in a run

section runs

variable {L : Libs} {s s' : Session} {t : List (Event × List Write)}

/-- The exchange has the books of a session that began as `s`, whose routes
are still those of `s`. -/
def Session.Books (s m : Session) (x : Exchange) : Prop :=
  x = m.exchange ∧ m.config = s.config ∧ m.clientExePath = s.clientExePath

theorem Session.books_self (s : Session) : s.Books s s.exchange :=
  ⟨rfl, rfl, rfl⟩

/-- The exchange answers each step of the session. -/
theorem books_step (hz : L.zvariant.FollowsSpec) (m : Session) (x : Exchange)
    (ev : Event) (ws : List Write) (m' : Session) (hbooks : s.Books m x)
    (hstep : Meeting (Session.Step L) (Session.Ordinary L.zvariant) m ev ws
      m') :
    ∃ i o x', Exchange.Step (homeOf L s.config s.clientExePath) x i o x'
      ∧ Carried L.zvariant (ev, ws) (i, o) ∧ s.Books m' x' := by
  obtain ⟨rfl, hconfig, hexe⟩ := hbooks
  obtain ⟨hord, hstep⟩ := hstep
  obtain ⟨i, o, hx, hcarried⟩ := session_step hz hord hstep
  rw [hconfig, hexe] at hx
  obtain ⟨hconfig', hexe'⟩ := run_config (.single hstep)
  exact ⟨i, o, _, hx, hcarried, rfl, hconfig'.trans hconfig,
    hexe'.trans hexe⟩

/-- A peer that calls the client by a name it has asked for, and gets an answer
to the name it was shown under, has spoken to the client as if the router were
not there: the answer is written to its bus, whole, and under its real name.
Letters of any kind may pass in between, as long as none of them enters or
answers the serial of the call. -/
theorem call_answered (hz : L.zvariant.FollowsSpec)
    (hrun : Steps (Meeting (Session.Step L) (Session.Ordinary L.zvariant)) s t
      s')
    {u v w : List (Event × List Write)} {b : Bus} {call answer : Message}
    {ws ws' : List Write} {c r : Letter} {name : Text}
    (ht : t = u ++ (.bus b call, ws) :: (v ++ (.client answer, ws') :: w))
    (hcall : call.Says L.zvariant c) (hanswer : answer.Says L.zvariant r)
    (hserved : s.exchange.serves b c = true)
    (hserial : r.answered = some c.serial)
    (hbetween : ∀ e ∈ v, ∀ l, e.1.msg.Says L.zvariant l →
      s.exchange.touches c.serial (e.1.peer, l) = false)
    (hname : c.header.sender = some name)
    (hunique : isUniqueName name = true)
    (hreal : getBusFromFakeName name = none)
    (hto : r.header.destination = (s.exchange.present b c).header.sender) :
    ∃ m m' : Message, m.Says L.zvariant (s.exchange.present b c)
      ∧ ws = [⟨.client, m.raw, m.fds⟩]
      ∧ m'.Says L.zvariant r.meant ∧ r.meant.header.destination = some name
      ∧ ws' = [⟨.bus b, m'.raw, m'.fds⟩] := by
  have hcalled : (.bus b call, ws) ∈ t := by
    rw [ht]
    simp
  have hanswered : (.client answer, ws') ∈ t := by
    rw [ht]
    simp
  obtain ⟨_, m₁, _, -, hord₁, hstep₁⟩ := hrun.meeting_mem hcalled
  obtain ⟨_, m₂, _, -, hord₂, hstep₂⟩ := hrun.meeting_mem hanswered
  obtain ⟨letters, x', hexchange, hcarried, -⟩ :=
    hrun.simulate s.books_self (books_step hz)
  rw [ht] at hcarried
  obtain ⟨u', ⟨i, o⟩, rest, rfl, -, hi, hrest⟩ := answers_at hcarried
  obtain ⟨v', ⟨i', o'⟩, w', rfl, hv, hi', -⟩ := answers_at hrest
  obtain ⟨p, l⟩ := i
  obtain ⟨p', l'⟩ := i'
  obtain ⟨rfl, hsaid, m, -, hm, hws⟩ := hi
  obtain ⟨rfl, hsaid', m', -, hm', hws'⟩ := hi'
  obtain rfl := hsaid.unique hcall
  obtain rfl := hsaid'.unique hanswer
  have hno : ∀ e ∈ v', s.exchange.touches l.serial e.1 = false := by
    intro e he
    obtain ⟨e', he', hpeer, hletter, -⟩ := answered_mem hv he
    rw [← hbetween e' he' _ hletter, hpeer]
  obtain ⟨rfl, rfl⟩ :=
    Exchange.answer_finds_caller hexchange hserved hserial hno
  refine ⟨m, m', hm, hws, hm', ?_, hws'⟩
  unfold Exchange.present at hto
  rw [hserved] at hto
  cases b with
  | host =>
      have hdest : l'.header.destination = some name := hto.trans hname
      rw [Letter.meant_of_not_fake hdest hreal]
      exact hdest
  | sandbox =>
      have hacc₁ : call.Accepted L.zvariant := hstep₁.1
      have hacc₂ : answer.Accepted L.zvariant := hstep₂.1
      have hheader := hcall.header hz hacc₁
      have hheader' := hanswer.header hz hacc₂
      have hshown : (l.shown .sandbox).header.sender
          = some (toFakeName name .sandbox) := by
        cases hord₁ with
        | bus _ _ _ hshow =>
            have hread := hshow (by simp [Session.isHostServiceCall]) name
              (by rw [hheader]; exact hname) hunique
            exact Letter.shown_sender .sandbox hname hunique
              (hread.1 _ (hcall.hasFields hz hacc₁))
      have hdest : l'.header.destination = some (toFakeName name .sandbox) :=
        hto.trans hshown
      cases hord₂ with
      | client _ _ hmeant =>
          have hread := hmeant _ (by rw [hheader']; exact hdest) (by
            rw [getBusFromFakeName_toFakeName hunique]
            simp)
          exact Letter.meant_destination hdest hunique
            (hread _ (hanswer.hasFields hz hacc₂))

/-- The peer `:1.6` of the sandbox gets its answer. -/
theorem call_answered_sandbox :
    ∃ c r : Letter, sandboxCall.Says .reference c
      ∧ (Message.answer 3 7 ":s.1.6").Says .reference r
      ∧ ∃ m m' : Message,
        m.Says .reference (registered.exchange.present .sandbox c)
        ∧ (registered.react referenceLibs (.bus .sandbox sandboxCall)).2
          = [⟨.client, m.raw, m.fds⟩]
        ∧ m'.Says .reference r.meant
        ∧ r.meant.header.destination = some (utf8 ":1.6")
        ∧ ((registered.after referenceLibs (callAndAnswer.take 2)).react
            referenceLibs (.client (.answer 3 7 ":s.1.6"))).2
          = [⟨.bus .sandbox, m'.raw, m'.fds⟩] := by
  have hz := Zvariant.reference_followsSpec
  have hcall : sandboxCall.Accepted .reference := by decide +kernel
  have hanswer : (Message.answer 3 7 ":s.1.6").Accepted .reference := by
    decide +kernel
  obtain ⟨c, hc⟩ := says_of_fieldsRead hz hcall (by decide +kernel)
  obtain ⟨r, hr⟩ := says_of_fieldsRead hz hanswer (by decide +kernel)
  have hheader := hc.header hz hcall
  have hheader' := hr.header hz hanswer
  have hserial : c.serial = 7 := congrArg MessageHeader.serial hheader.symm
  have hname : c.header.sender = some (utf8 ":1.6") := by
    rw [← hheader]
    rfl
  have hserved : registered.exchange.serves .sandbox c = true := by
    rw [serves_exchange hheader]
    decide +kernel
  have hread : sandboxCall.Readable 7 :=
    readable_iff.mp (by decide +kernel)
  refine ⟨c, r, hc, hr, call_answered (L := referenceLibs) hz
    callAndAnswer_run (u := [])
    (v := [(.bus .host (peerSignal "OwnersChanged"), _)]) (w := []) rfl hc hr
    hserved ?_ ?_ hname (by decide +kernel) (by decide +kernel) ?_⟩
  · rw [hserial, answered_eq hheader']
    exact ⟨Or.inl rfl, rfl⟩
  · intro e he l hl
    rw [List.mem_singleton] at he
    subst he
    have hsignal := hl.header hz (show (peerSignal "OwnersChanged").Accepted
      Zvariant.reference by decide +kernel)
    have hno : registered.exchange.serves .host l = false := by
      rw [serves_exchange hsignal]
      decide +kernel
    show (registered.exchange.serves .host l && _) = false
    rw [hno, Bool.false_and]
  · unfold Exchange.present
    rw [hserved]
    refine Eq.trans ?_ (Letter.shown_sender .sandbox hname (by decide +kernel)
      (hread _ (hc.hasFields hz hcall))).symm
    rw [← hheader']
    rfl

end runs

end DbusRouter.Model
