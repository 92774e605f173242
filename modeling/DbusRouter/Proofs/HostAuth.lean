/-
Authentication with the host bus.

The handshake is looked at once, as the set of conversations it can hold
(`holds_authHostBus`): the commands, one line heard behind each of the first
two, and behind `Hello` two whole messages. Which host makes it complete
(`host_auth_completes_iff`) and what has been said at any point of it
(`host_auth_in_order`) are read off there. What the host hears is the other
side of the same connection (`host_auth_understood`).
-/
import DbusRouter.Proofs.HostDialog

namespace DbusRouter.Model

open Wire Lib
open Dialog (Holds Begun hears)

-- ==================================================================== Hello

/-- The `Hello` call as a frame. -/
def helloFrame : Frame where
  endian := .little
  ty := 1
  flags := 0
  serial := 1
  array := marshalFields .little 16 helloFields
  padding := zeros (padTo8 (16 + (marshalFields .little 16
    helloFields).length))
  body := []
  serial_lt := by decide
  array_le := by decide +kernel
  body_le := by decide
  padding_eq := zeros_length _

/-- The fields of Hello are ones the format allows. -/
theorem helloFields_valid : ValidFields .little 16 helloFields := by
  decide +kernel

/-- There is no descriptor among them. -/
theorem helloFields_taken (z : Zvariant) : z.Takes helloFields :=
  Or.inr (by decide)

/-- What is written is that frame. -/
theorem buildHelloCall_eq {z : Zvariant} (hz : z.FollowsSpec) :
    buildHelloCall z = .ok helloFrame.bytes := by
  have hencode : z.encodeFields .little 12 helloFields
      = some (fieldArray .little helloFrame.array) :=
    hz.encodeFields_eq _ _ helloFields_valid helloFrame.array_le
      (helloFields_taken z)
  have hlen : (fieldArray .little helloFrame.array).length
      = 4 + helloFrame.array.length := by
    rw [fieldArray, List.length_append, Endian.bytes_length]
  unfold buildHelloCall
  rw [hencode]
  simp only [orZvariant, Outcome.ok_bind, hlen,
    subUsize_ok (Nat.le_add_right 4 _), Nat.add_sub_cancel_left]
  have hbytes : helloFrame.bytes = [0x6C, 1, 0, 1]
      ++ Endian.little.bytes 4 0 ++ Endian.little.bytes 4 1
      ++ fieldArray .little helloFrame.array ++ helloFrame.padding := by
    rw [Frame.bytes, layout, Frame.fixed, fixedHeader, fieldArray]
    simp only [List.append_assoc]
    rw [show helloFrame.body = [] from rfl, List.append_nil]
    rfl
  rw [hbytes]
  rfl

/-- What a bus reads of it: a call to the bus daemon, without arguments. -/
def helloHeader : MessageHeader where
  endian := .little
  msgType := .methodCall
  flags := 0
  serial := 1
  bodyLen := 0
  destination := some busName
  replySerial := none
  sender := none
  interface := some busName
  member := some (utf8 "Hello")
  path := some (utf8 "/org/freedesktop/DBus")
  signature := none
  unixFds := none

/-- The router's Hello reads as itself. -/
theorem helloFrame_header {z : Zvariant} (hz : z.FollowsSpec) :
    helloFrame.header z = helloHeader := by
  have hdecode : z.fields .little 12 (fieldArray .little helloFrame.array)
      = some helloFields :=
    (hz.fields_iff _ _ _ helloFrame.array_le).mpr
      ⟨⟨helloFields_valid, rfl⟩, helloFields_taken z⟩
  show helloFrame.prologue.intoHeader
    (parseHeaderFields z helloFrame.array .little) = _
  unfold parseHeaderFields
  rw [hdecode]
  rfl

-- =========================================================== the handshake

/-- What a host says that lets the handshake complete: a line that begins
with `OK`, any line, and unless `Hello` is skipped two messages, a
METHOD_RETURN first. -/
structure Welcome (skipHello : Bool) where
  ok : Bytes
  agree : Bytes
  replies : List Frame
  ok_line : IsAuthLine ok
  ok_starts : startsWith (utf8 "OK") ok = true
  agree_line : IsAuthLine agree
  replies_eq : if skipHello then replies = []
    else ∃ reply signal, replies = [reply, signal]
      ∧ MessageType.ofByte reply.ty = .methodReturn

/-- It as bytes. -/
def Welcome.bytes {skipHello : Bool} (w : Welcome skipHello) : Bytes :=
  w.ok ++ (w.agree ++ w.replies.flatMap Frame.bytes)

/-- What the host is told before its first line. -/
def askedAuth (uid : Nat) : Bytes := [0] ++ authCommand uid

/-- What it is told before its second line. -/
def askedFds (uid : Nat) : Bytes := askedAuth uid ++ negotiateCommand

/-- What it is told in all. -/
def askedAll (uid : Nat) (skipHello : Bool) : Bytes :=
  askedFds uid
    ++ (beginCommand ++ if skipHello then [] else helloFrame.bytes)

/-- The acts of the `Hello` call and its two messages. -/
def helloActs (replies : List Frame) : List (Act UInt8) :=
  .wrote helloFrame.bytes :: hears (replies.flatMap Frame.bytes)

/-- The acts of the handshake. -/
def Welcome.acts {skipHello : Bool} (w : Welcome skipHello) (uid : Nat) :
    List (Act UInt8) :=
  .wrote [0] :: .wrote (authCommand uid) :: (hears w.ok
    ++ .wrote negotiateCommand :: (hears w.agree
      ++ .wrote beginCommand :: if skipHello then [] else
        helloActs w.replies))

section acts

variable {skipHello : Bool} (w : Welcome skipHello) (uid : Nat)

/-- The router hears the bytes of the host. -/
theorem Welcome.heard_acts : Dialog.heard (w.acts uid) = w.bytes := by
  have hend : Dialog.heard (if skipHello then [] else helloActs w.replies)
      = w.replies.flatMap Frame.bytes := by
    have hreplies := w.replies_eq
    cases skipHello with
    | true =>
        rw [if_pos rfl] at hreplies ⊢
        rw [hreplies]
        rfl
    | false =>
        rw [if_neg (by decide)]
        exact Dialog.heard_hears _
  rw [Welcome.acts, Dialog.heard, Dialog.heard, Dialog.heard_append,
    Dialog.heard, Dialog.heard_append, Dialog.heard, Dialog.heard_hears,
    Dialog.heard_hears, hend]
  rfl

/-- The host is written all that the router asks. -/
theorem Welcome.written_acts :
    Dialog.written (w.acts uid) = askedAll uid skipHello := by
  have hend : Dialog.written (if skipHello then [] else
        helloActs w.replies)
      = if skipHello then [] else helloFrame.bytes := by
    cases skipHello with
    | true => rfl
    | false =>
        rw [if_neg (by decide), if_neg (by decide), helloActs,
          Dialog.written, Dialog.written_hears, List.append_nil]
  rw [Welcome.acts, Dialog.written, Dialog.written, Dialog.written_append,
    Dialog.written, Dialog.written_append, Dialog.written,
    Dialog.written_hears, Dialog.written_hears, hend, askedAll, askedFds,
    askedAuth]
  simp only [List.nil_append, List.append_assoc]

end acts

/-- The `Hello` call completes in one kind of conversation. -/
theorem holds_sendHostHello {z : Zvariant} (hz : z.FollowsSpec)
    {t : List (Act UInt8)} :
    Holds (sendHostHello z) t (.ok ())
      ↔ ∃ reply signal : Frame,
        MessageType.ofByte reply.ty = .methodReturn
          ∧ t = helloActs [reply, signal] := by
  have hacts : ∀ reply signal : Frame, helloActs [reply, signal]
      = .wrote helloFrame.bytes
        :: (hears reply.bytes ++ hears signal.bytes) := by
    intro reply signal
    rw [helloActs, List.flatMap_cons, List.flatMap_singleton,
      Dialog.hears_append]
  unfold sendHostHello
  rw [holds_liftResult]
  constructor
  · rintro ⟨call, hcall, h⟩
    rw [buildHelloCall_eq hz, Outcome.ok.injEq] at hcall
    rw [← hcall] at h
    obtain ⟨t₁, rfl, h₁⟩ := holds_put.mp h
    obtain ⟨u, v, m, rfl, hu, hv⟩ := Dialog.holds_bind.mp h₁
    cases m with
    | none => exact absurd hv Dialog.not_holds_fail
    | some resp =>
        obtain ⟨reply, rfl, rfl⟩ := holds_readMessageOn_frame.mp hu
        simp only at hv
        by_cases hty : (reply.message z []).header.msgType = .methodReturn
        · rw [if_pos hty] at hv
          obtain ⟨u₂, v₂, m₂, rfl, hu₂, hv₂⟩ := Dialog.holds_bind.mp hv
          cases m₂ with
          | none => exact absurd hv₂ Dialog.not_holds_fail
          | some resp₂ =>
              obtain ⟨signal, rfl, -⟩ := holds_readMessageOn_frame.mp hu₂
              obtain ⟨rfl, -⟩ := Dialog.holds_pure.mp hv₂
              refine ⟨reply, signal, hty, ?_⟩
              rw [hacts, List.append_nil]
        · rw [if_neg hty] at hv
          split at hv
          · exact absurd hv Dialog.not_holds_fail
          · exact absurd hv Dialog.not_holds_fail
  · rintro ⟨reply, signal, hty, rfl⟩
    refine ⟨helloFrame.bytes, buildHelloCall_eq hz, ?_⟩
    rw [hacts]
    refine holds_put.mpr ⟨_, rfl, ?_⟩
    refine Dialog.holds_bind.mpr ⟨_, _, some (reply.message z []), rfl,
      holds_readMessageOn_frame.mpr ⟨reply, rfl, rfl⟩, ?_⟩
    have hty' : (reply.message z []).header.msgType = .methodReturn := hty
    simp only
    rw [if_pos hty']
    refine Dialog.holds_bind.mpr ⟨_, [], some (signal.message z []),
      (List.append_nil _).symm,
      holds_readMessageOn_frame.mpr ⟨signal, rfl, rfl⟩, ?_⟩
    exact Dialog.holds_pure.mpr ⟨rfl, rfl⟩

/-- Whether a line says OK does not depend on how it is decoded. -/
theorem startsWith_ok (line : Bytes) :
    startsWith (utf8 "OK") (fromUtf8Lossy line)
      = startsWith (utf8 "OK") line :=
  startsWith_lossy (by decide +kernel) line

/-- Behind `BEGIN` the router says Hello and reads two messages, or nothing
happens. -/
theorem holds_skipHello {z : Zvariant} (hz : z.FollowsSpec)
    {skipHello : Bool} {t : List (Act UInt8)} :
    Holds (if skipHello then pure () else sendHostHello z) t (.ok ())
      ↔ ∃ replies : List Frame,
        (if skipHello then replies = []
          else ∃ reply signal, replies = [reply, signal]
            ∧ MessageType.ofByte reply.ty = .methodReturn)
          ∧ t = if skipHello then [] else helloActs replies := by
  cases skipHello with
  | true =>
      rw [if_pos rfl, Dialog.holds_pure]
      constructor
      · rintro ⟨rfl, -⟩
        exact ⟨[], if_pos rfl ▸ rfl, rfl⟩
      · rintro ⟨-, -, rfl⟩
        exact ⟨rfl, rfl⟩
  | false =>
      rw [if_neg (by decide), holds_sendHostHello hz]
      constructor
      · rintro ⟨reply, signal, hty, rfl⟩
        refine ⟨[reply, signal], ?_, rfl⟩
        rw [if_neg (by decide)]
        exact ⟨reply, signal, rfl, hty⟩
      · rintro ⟨replies, h, rfl⟩
        rw [if_neg (by decide)] at h
        obtain ⟨reply, signal, rfl, hty⟩ := h
        exact ⟨reply, signal, hty, rfl⟩

/-- The handshake completes with a host's welcome, and heard no more than
it. -/
theorem holds_authHostBus {z : Zvariant} (hz : z.FollowsSpec) {uid : Nat}
    {skipHello : Bool} {t : List (Act UInt8)} :
    Holds (authHostBus z uid skipHello) t (.ok ())
      ↔ ∃ w : Welcome skipHello, t = w.acts uid := by
  unfold authHostBus
  constructor
  · intro h
    obtain ⟨t₁, rfl, h₁⟩ := holds_put.mp h
    obtain ⟨t₂, rfl, h₂⟩ := holds_put.mp h₁
    obtain ⟨u, v, response, rfl, hu, hv⟩ := Dialog.holds_bind.mp h₂
    obtain ⟨ok, hok, rfl, rfl⟩ := holds_readAuthLineString.mp hu
    rw [startsWith_ok] at hv
    cases hstarts : startsWith (utf8 "OK") ok with
    | false =>
        rw [hstarts, if_pos (by decide)] at hv
        exact absurd hv Dialog.not_holds_fail
    | true =>
        rw [hstarts, if_neg (by decide)] at hv
        obtain ⟨v₁, rfl, hv₁⟩ := holds_put.mp hv
        obtain ⟨u₂, v₂, second, rfl, hu₂, hv₂⟩ := Dialog.holds_bind.mp hv₁
        obtain ⟨agree, hagree, rfl, rfl⟩ := holds_readAuthLineString.mp hu₂
        obtain ⟨v₃, rfl, hv₃⟩ := holds_put.mp hv₂
        obtain ⟨replies, hreplies, rfl⟩ := (holds_skipHello hz).mp hv₃
        exact ⟨⟨ok, agree, replies, hok, hstarts, hagree, hreplies⟩, rfl⟩
  · rintro ⟨w, rfl⟩
    refine holds_put.mpr ⟨_, rfl, holds_put.mpr ⟨_, rfl, ?_⟩⟩
    refine Dialog.holds_bind.mpr ⟨_, _, fromUtf8Lossy w.ok, rfl,
      holds_readAuthLineString.mpr ⟨w.ok, w.ok_line, rfl, rfl⟩, ?_⟩
    rw [startsWith_ok, w.ok_starts]
    refine holds_put.mpr ⟨_, rfl, ?_⟩
    refine Dialog.holds_bind.mpr ⟨_, _, fromUtf8Lossy w.agree, rfl,
      holds_readAuthLineString.mpr ⟨w.agree, w.agree_line, rfl, rfl⟩, ?_⟩
    refine holds_put.mpr ⟨_, rfl, ?_⟩
    exact (holds_skipHello hz).mpr ⟨w.replies, w.replies_eq, rfl⟩

-- ================================================================ completing

/-- What a host has to have said behind `BEGIN`. -/
theorem allows_replies {P : Partner UInt8} {told said : Bytes}
    {skipHello : Bool} {w : Welcome skipHello} {q : Place UInt8}
    (hsaid : said <+: P.tells told) :
    P.Allows ⟨told, said⟩ (if skipHello then [] else helloActs w.replies) q
      ↔ said ++ w.replies.flatMap Frame.bytes
          <+: P.tells (told ++ if skipHello then [] else helloFrame.bytes)
        ∧ q = ⟨told ++ if skipHello then [] else helloFrame.bytes,
          said ++ w.replies.flatMap Frame.bytes⟩ := by
  have hreplies := w.replies_eq
  cases skipHello with
  | true =>
      simp only [↓reduceIte] at hreplies
      simp only [↓reduceIte, hreplies, List.flatMap_nil, List.append_nil]
      constructor
      · intro hq
        exact ⟨hsaid, hq⟩
      · rintro ⟨-, hq⟩
        exact hq
  | false =>
      have hmore : said <+: P.tells (told ++ helloFrame.bytes) :=
        hsaid.trans (P.tells_mono (List.prefix_append ..))
      exact Partner.allows_hears (p := ⟨told ++ helloFrame.bytes, said⟩)
        hmore

/-- A host allows the conversation exactly when it has said each part of the
welcome by the time the router waits for it. -/
theorem allows_acts {P : Partner UInt8} {uid : Nat} {skipHello : Bool}
    {w : Welcome skipHello} {q : Place UInt8} :
    P.Allows .start (w.acts uid) q
      ↔ w.ok <+: P.tells (askedAuth uid)
        ∧ w.ok ++ w.agree <+: P.tells (askedFds uid)
        ∧ w.bytes <+: P.tells (askedAll uid skipHello)
        ∧ q = ⟨askedAll uid skipHello, w.bytes⟩ := by
  have hfds : askedAuth uid <+: askedFds uid := List.prefix_append ..
  have hbegin : askedFds uid <+: askedFds uid ++ beginCommand :=
    List.prefix_append ..
  -- what is behind the second line
  have hend : w.ok ++ w.agree <+: P.tells (askedFds uid) →
      (P.Allows ⟨askedFds uid ++ beginCommand, w.ok ++ w.agree⟩
        (if skipHello then [] else helloActs w.replies) q
      ↔ w.bytes <+: P.tells (askedAll uid skipHello)
        ∧ q = ⟨askedAll uid skipHello, w.bytes⟩) := by
    intro hsaid
    rw [allows_replies (hsaid.trans (P.tells_mono hbegin)),
      List.append_assoc, List.append_assoc]
    exact Iff.rfl
  show P.Allows ⟨askedAuth uid, []⟩ (hears w.ok ++ _) q ↔ _
  rw [Partner.allows_append]
  constructor
  · rintro ⟨m, hm, h⟩
    obtain ⟨hok, rfl⟩ :=
      (Partner.allows_hears (List.nil_prefix ..)).mp hm
    have hok' : w.ok <+: P.tells (askedFds uid) :=
      hok.trans (P.tells_mono hfds)
    obtain ⟨m, hm, h⟩ := Partner.allows_append.mp
      (show P.Allows ⟨askedFds uid, w.ok⟩ (hears w.agree ++ _) q from h)
    obtain ⟨hagree, rfl⟩ := (Partner.allows_hears hok').mp hm
    exact ⟨hok, hagree, (hend hagree).mp h⟩
  · rintro ⟨hok, hagree, h⟩
    have hok' : w.ok <+: P.tells (askedFds uid) :=
      hok.trans (P.tells_mono hfds)
    refine ⟨_, (Partner.allows_hears (List.nil_prefix ..)).mpr ⟨hok, rfl⟩,
      ?_⟩
    show P.Allows ⟨askedFds uid, w.ok⟩ (hears w.agree ++ _) q
    exact Partner.allows_append.mpr ⟨_,
      (Partner.allows_hears hok').mpr ⟨hagree, rfl⟩, (hend hagree).mpr h⟩

/-- Against any host the handshake completes exactly when the host says a
welcome, each part of it without being told more than what the router has
told by then. The router has then told all it has to, and has heard the
welcome and nothing behind it. -/
theorem host_auth_completes_iff {z : Zvariant} (hz : z.FollowsSpec)
    (P : Partner UInt8) (uid : Nat) (skipHello : Bool) (q : Place UInt8) :
    P.talk (authHostBus z uid skipHello) .start = (some (.ok ()), q)
      ↔ ∃ w : Welcome skipHello, w.ok <+: P.tells (askedAuth uid)
        ∧ w.ok ++ w.agree <+: P.tells (askedFds uid)
        ∧ w.bytes <+: P.tells (askedAll uid skipHello)
        ∧ q = ⟨askedAll uid skipHello, w.bytes⟩ := by
  rw [Partner.talk_eq_some]
  constructor
  · rintro ⟨t, ht, hallows⟩
    obtain ⟨w, rfl⟩ := (holds_authHostBus hz).mp ht
    exact ⟨w, allows_acts.mp hallows⟩
  · rintro ⟨w, h⟩
    exact ⟨w.acts uid, (holds_authHostBus hz).mpr ⟨w, rfl⟩,
      allows_acts.mpr h⟩

def promptOk : Bytes := utf8 "OK 1234\r\n"

def promptAgree : Bytes := utf8 "AGREE_UNIX_FD\r\n"

/-- The answer to `Hello`, and the signal for the name. -/
def promptReplies : List Frame :=
  [{ helloFrame with ty := 2 }, { helloFrame with ty := 4 }]

def promptWelcome : Welcome false where
  ok := promptOk
  agree := promptAgree
  replies := promptReplies
  ok_line := by decide +kernel
  ok_starts := by decide +kernel
  agree_line := by decide +kernel
  replies_eq := ⟨_, _, rfl, rfl⟩

/-- What a host says that answers what it has been told, and no more. -/
def promptTells (told : Bytes) : Bytes :=
  if askedAuth 0 <+: told then
    promptOk ++ if askedFds 0 <+: told then
      promptAgree ++ if askedAll 0 false <+: told then
        promptReplies.flatMap Frame.bytes else []
      else []
  else []

/-- Text that is said behind a condition, and more behind more conditions. -/
theorem said_isPrefix {P Q : Prop} [Decidable P] [Decidable Q]
    {a b b' : Bytes} (hPQ : P → Q) (h : b <+: b') :
    (if P then a ++ b else []) <+: if Q then a ++ b' else [] := by
  by_cases hP : P
  · rw [if_pos hP, if_pos (hPQ hP), List.prefix_append_right_inj]
    exact h
  · rw [if_neg hP]
    exact List.nil_prefix

/-- A host that was told more says no less. -/
theorem promptTells_mono {told more : Bytes} (h : told <+: more) :
    promptTells told <+: promptTells more := by
  apply said_isPrefix fun hauth => hauth.trans h
  apply said_isPrefix fun hfds => hfds.trans h
  by_cases hall : askedAll 0 false <+: told
  · rw [if_pos hall, if_pos (hall.trans h)]
  · rw [if_neg hall]
    exact List.nil_prefix

def promptHost : Partner UInt8 where
  tells := promptTells
  closed _ := false
  tells_mono := promptTells_mono
  closed_last := by
    intro w w' _ h
    cases h

/-- It lets the handshake complete, with the `Hello` call and without. -/
theorem host_auth_completes_prompt :
    promptHost.talk (authHostBus .reference 0 false) .start
        = (some (.ok ()), ⟨askedAll 0 false, promptOk
          ++ (promptAgree ++ promptReplies.flatMap Frame.bytes)⟩)
      ∧ promptHost.talk (authHostBus .reference 0 true) .start
        = (some (.ok ()),
          ⟨askedAll 0 true, promptOk ++ (promptAgree ++ [])⟩) := by
  have hz := Zvariant.reference_followsSpec
  constructor
  · apply (host_auth_completes_iff hz promptHost 0 false _).mpr
    exact ⟨promptWelcome, by decide +kernel, by decide +kernel,
      by decide +kernel, rfl⟩
  · apply (host_auth_completes_iff hz promptHost 0 true _).mpr
    exact ⟨⟨promptOk, promptAgree, [], by decide +kernel, by decide,
      by decide +kernel, rfl⟩, by decide +kernel, by decide +kernel,
      by decide +kernel, rfl⟩

-- ================================================================== in order

/-- Behind `BEGIN` only the `Hello` call is written. -/
theorem begun_skipHello {z : Zvariant} (hz : z.FollowsSpec)
    {skipHello : Bool} {t : List (Act UInt8)}
    (h : Begun (if skipHello then pure () else sendHostHello z) t) :
    Dialog.written t <+: if skipHello then [] else helloFrame.bytes := by
  cases skipHello with
  | true =>
      cases h
      exact List.nil_prefix ..
  | false =>
      rw [if_neg (by decide)] at h ⊢
      unfold sendHostHello liftResult at h
      rw [buildHelloCall_eq hz, Dialog.done_ok_bind] at h
      rcases begun_put h with rfl | ⟨u, rfl, hu⟩
      · exact List.nil_prefix ..
      · have hsilent : Dialog.written u = [] := by
          refine Dialog.Silent.written_eq ?_ hu
          refine (silent_readMessageOn z).bind fun m => ?_
          cases m with
          | none => trivial
          | some resp =>
              show (ite _ _ _ : HostDialog Unit).Silent
              split
              · refine (silent_readMessageOn z).bind fun m => ?_
                cases m with
                | none => trivial
                | some resp => trivial
              · split
                · trivial
                · trivial
        rw [Dialog.written, hsilent, List.append_nil]

/-- However far the handshake has got, and whether it goes on or not: what
has been written is a beginning of what the router writes in all. The
negotiation is not begun before a line that begins with `OK` has been heard,
nor `BEGIN` before another line. -/
theorem host_auth_in_order {z : Zvariant} (hz : z.FollowsSpec) {uid : Nat}
    {skipHello : Bool} {t : List (Act UInt8)}
    (h : Begun (authHostBus z uid skipHello) t) :
    Dialog.written t <+: askedAll uid skipHello
      ∧ (Dialog.written t <+: askedAuth uid
        ∨ ∃ ok, IsAuthLine ok ∧ startsWith (utf8 "OK") ok = true
          ∧ ok <+: Dialog.heard t
          ∧ (Dialog.written t <+: askedFds uid
            ∨ ∃ agree, IsAuthLine agree
              ∧ ok ++ agree <+: Dialog.heard t)) := by
  have hauth : askedAuth uid <+: askedAll uid skipHello :=
    (List.prefix_append _ negotiateCommand).trans (List.prefix_append ..)
  have hfds : askedFds uid <+: askedAll uid skipHello :=
    List.prefix_append ..
  unfold authHostBus at h
  rcases begun_put h with rfl | ⟨t₁, rfl, h₁⟩
  · exact ⟨List.nil_prefix .., Or.inl (List.nil_prefix ..)⟩
  rcases begun_put h₁ with rfl | ⟨t₂, rfl, h₂⟩
  · have hnull : [0] <+: askedAuth uid := List.prefix_append ..
    exact ⟨hnull.trans hauth, Or.inl hnull⟩
  rw [Dialog.written, Dialog.written, Dialog.heard, Dialog.heard,
    ← List.append_assoc]
  rcases begun_readAuthLineString h₂ with hquiet | ⟨ok, t₃, hok, rfl, h₃⟩
  · rw [hquiet, List.append_nil]
    exact ⟨hauth, Or.inl (List.prefix_refl _)⟩
  rw [Dialog.written_append, Dialog.written_hears, List.nil_append,
    Dialog.heard_append, Dialog.heard_hears]
  rw [startsWith_ok] at h₃
  cases hstarts : startsWith (utf8 "OK") ok with
  | false =>
      rw [hstarts, if_pos (by decide)] at h₃
      cases h₃
      rw [Dialog.written, List.append_nil]
      exact ⟨hauth, Or.inl (List.prefix_refl _)⟩
  | true =>
      rw [hstarts, if_neg (by decide)] at h₃
      have hheard : ok <+: ok ++ Dialog.heard t₃ := List.prefix_append ..
      rcases begun_put h₃ with rfl | ⟨t₄, rfl, h₄⟩
      · rw [Dialog.written, List.append_nil]
        exact ⟨hauth, Or.inl (List.prefix_refl _)⟩
      rw [Dialog.written, Dialog.heard, ← List.append_assoc]
      show askedFds uid ++ _ <+: _ ∧ _
      rcases begun_readAuthLineString h₄ with
        hquiet | ⟨agree, t₅, hagree, rfl, h₅⟩
      · rw [hquiet]
        simp only [List.append_nil]
        exact ⟨hfds, Or.inr ⟨ok, hok, hstarts, hheard,
          Or.inl (List.prefix_refl (askedFds uid))⟩⟩
      rw [Dialog.written_append, Dialog.written_hears, List.nil_append]
      have hboth : ok ++ agree <+: ok ++ Dialog.heard (hears agree ++ t₅) := by
        rw [Dialog.heard_append, Dialog.heard_hears, ← List.append_assoc]
        exact List.prefix_append ..
      refine ⟨?_, Or.inr ⟨ok, hok, hstarts, hheard,
        Or.inr ⟨agree, hagree, hboth⟩⟩⟩
      rcases begun_put h₅ with rfl | ⟨t₆, rfl, h₆⟩
      · rw [Dialog.written, List.append_nil]
        exact hfds
      rw [Dialog.written, askedAll, List.prefix_append_right_inj,
        List.prefix_append_right_inj]
      exact begun_skipHello hz h₆

/-- The conversation with the prompt host, up to `BEGIN`. -/
def promptBegins : List (Act UInt8) :=
  .wrote [0] :: .wrote (authCommand 0) :: (hears promptOk
    ++ .wrote negotiateCommand :: (hears promptAgree
      ++ [.wrote beginCommand]))

theorem host_auth_in_order_prompt :
    Dialog.written promptBegins <+: askedAll 0 false
      ∧ (Dialog.written promptBegins <+: askedAuth 0
        ∨ ∃ ok, IsAuthLine ok ∧ startsWith (utf8 "OK") ok = true
          ∧ ok <+: Dialog.heard promptBegins
          ∧ (Dialog.written promptBegins <+: askedFds 0
            ∨ ∃ agree, IsAuthLine agree
              ∧ ok ++ agree <+: Dialog.heard promptBegins)) := by
  have hz := Zvariant.reference_followsSpec
  have hsplit : promptWelcome.acts 0
      = promptBegins ++ helloActs promptReplies := by
    simp [Welcome.acts, promptWelcome, promptBegins]
  have hheld : Holds (authHostBus .reference 0 false)
      (promptWelcome.acts 0) (.ok ()) :=
    (holds_authHostBus hz).mpr ⟨promptWelcome, rfl⟩
  rw [hsplit] at hheld
  exact host_auth_in_order hz hheld.begun

-- ================================================================ understood

/-- The value of a hexadecimal digit. -/
def unhexDigit (c : UInt8) : Option Nat :=
  if 0x30 ≤ c ∧ c ≤ 0x39 then some (c.toNat - 0x30)
  else if 0x61 ≤ c ∧ c ≤ 0x66 then some (c.toNat - 0x57)
  else none

/-- Hexadecimal text as the bytes it stands for. -/
def unhex : Text → Option Bytes
  | [] => some []
  | a :: b :: rest => do
      let high ← unhexDigit a
      let low ← unhexDigit b
      let bytes ← unhex rest
      some (UInt8.ofNat (16 * high + low) :: bytes)
  | _ => none

/-- A digit is read as the number it was written for. -/
theorem unhexDigit_hexDigit {n : Nat} (h : n < 16) :
    unhexDigit (hexDigit n) = some n := by
  revert n
  decide

/-- A byte is read back from its two digits. -/
theorem unhex_hexByte (bs : Bytes) : unhex (bs.flatMap hexByte) = some bs := by
  induction bs with
  | nil => rfl
  | cons b bs ih =>
      have hb : b.toNat < 256 := b.toNat_lt
      have hhigh : b.toNat / 16 < 16 := by omega
      have hlow : b.toNat % 16 < 16 := Nat.mod_lt _ (by decide)
      have hsum : UInt8.ofNat (16 * (b.toNat / 16) + b.toNat % 16) = b := by
        rw [Nat.div_add_mod]
        exact UInt8.ofNat_toNat
      show unhex (hexDigit _ :: hexDigit _ :: bs.flatMap hexByte) = _
      simp only [unhex, unhexDigit_hexDigit hhigh, unhexDigit_hexDigit hlow,
        ih, Option.bind_eq_bind, Option.bind_some, hsum]

/-- No digit ends a line. -/
theorem hexDigit_ne_newline {n : Nat} (h : n < 16) : hexDigit n ≠ 10 := by
  revert n
  decide

/-- Text without a newline is a line once CRLF is put behind it. -/
theorem isLine_crlf {text : Text} (h : (10 : UInt8) ∉ text) :
    IsLine (text ++ utf8 "\r\n") := by
  refine ⟨?_, fun p hp hends => ?_⟩
  · simp only [endsLine, List.isSuffixOf_iff_suffix]
    exact List.suffix_append ..
  · simp only [endsLine, List.isSuffixOf_iff_suffix] at hends
    have hmem : (10 : UInt8) ∈ p := hends.subset (by decide)
    obtain ⟨rest, hrest⟩ := hp
    have hsplit : text ++ utf8 "\r\n" = (text ++ [13]) ++ [10] := by
      rw [List.append_assoc]
      rfl
    rw [hsplit] at hrest ⊢
    rcases List.eq_nil_or_concat rest with rfl | ⟨rest, c, rfl⟩
    · rw [List.append_nil] at hrest
      exact hrest
    · rw [List.concat_eq_append, ← List.append_assoc] at hrest
      obtain ⟨hinit, -⟩ := List.append_inj' hrest rfl
      have hin : (10 : UInt8) ∈ text ++ [13] := by
        rw [← hinit]
        exact List.mem_append_left _ hmem
      rcases List.mem_append.mp hin with hin | hin
      · exact absurd hin h
      · cases hin with
        | tail _ hin => cases hin

/-- The command is one line for any user. -/
theorem authCommand_isLine (uid : Nat) : IsLine (authCommand uid) := by
  refine isLine_crlf ?_
  intro h
  rcases List.mem_append.mp h with h | h
  · revert h
    decide
  · obtain ⟨b, -, hb⟩ := List.mem_flatMap.mp h
    have hhigh : b.toNat / 16 < 16 := by
      have hlt := b.toNat_lt
      omega
    have hlow : b.toNat % 16 < 16 := Nat.mod_lt _ (by decide)
    rcases List.mem_cons.mp hb with hb | hb
    · exact hexDigit_ne_newline hhigh hb.symm
    · rw [List.mem_singleton] at hb
      exact hexDigit_ne_newline hlow hb.symm

/-- A server takes the router's bytes apart in one way only: however it finds
three lines and a message behind the null byte, the first line asks for
authentication as the user the router runs as, the others negotiate
descriptors and begin, the message is the `Hello` call, and what the client
sends stands behind it. -/
theorem host_auth_understood {z : Zvariant} (hz : z.FollowsSpec) (uid : Nat)
    (more : Bytes) {l₁ l₂ l₃ s : Bytes} :
    (IsLine l₁ ∧ IsLine l₂ ∧ IsLine l₃
      ∧ askedAll uid false ++ more = [0] ++ (l₁ ++ (l₂ ++ (l₃ ++ s))))
    ↔ l₁ = utf8 "AUTH EXTERNAL " ++ uidHex uid ++ utf8 "\r\n"
      ∧ unhex (uidHex uid) = some (decimal uid)
      ∧ l₂ = utf8 "NEGOTIATE_UNIX_FD\r\n" ∧ l₃ = utf8 "BEGIN\r\n"
      ∧ ∃ msg, readMessage z s = .ok (some msg, more)
        ∧ msg.raw = helloFrame.bytes ∧ msg.header = helloHeader := by
  have hnegotiate : IsLine negotiateCommand := by decide +kernel
  have hbegin : IsLine beginCommand := by decide +kernel
  have hasked : askedAll uid false ++ more = [0] ++ (authCommand uid
      ++ (negotiateCommand ++ (beginCommand
        ++ (helloFrame.bytes ++ more)))) := by
    rw [askedAll, askedFds, askedAuth, if_neg (by decide)]
    simp only [List.append_assoc]
  rw [hasked]
  constructor
  · rintro ⟨h₁, h₂, h₃, h⟩
    obtain ⟨rfl, hrest⟩ := (authCommand_isLine uid).append_inj h₁
      (List.append_cancel_left h)
    obtain ⟨rfl, hrest'⟩ := hnegotiate.append_inj h₂ hrest
    obtain ⟨rfl, rfl⟩ := hbegin.append_inj h₃ hrest'
    exact ⟨rfl, unhex_hexByte _, rfl, rfl, helloFrame.message z [],
      readMessage_frame z helloFrame more, rfl, helloFrame_header hz⟩
  · rintro ⟨rfl, -, rfl, rfl, msg, hread, hraw, -⟩
    obtain ⟨f, rfl, rfl⟩ := readMessage_eq_some.mp hread
    have hbytes : f.bytes = helloFrame.bytes := hraw
    refine ⟨authCommand_isLine uid, hnegotiate, hbegin, ?_⟩
    rw [hbytes]
    rfl

/-- A server of the user 0 that reads the router's bytes and no more. -/
theorem host_auth_understood_root :
    authCommand 0 = utf8 "AUTH EXTERNAL " ++ uidHex 0 ++ utf8 "\r\n"
      ∧ unhex (uidHex 0) = some (decimal 0)
      ∧ negotiateCommand = utf8 "NEGOTIATE_UNIX_FD\r\n"
      ∧ beginCommand = utf8 "BEGIN\r\n"
      ∧ ∃ msg, readMessage .reference helloFrame.bytes = .ok (some msg, [])
        ∧ msg.raw = helloFrame.bytes ∧ msg.header = helloHeader :=
  (host_auth_understood Zvariant.reference_followsSpec 0 []).mp
    ⟨by decide +kernel, by decide +kernel, by decide +kernel,
      by decide +kernel⟩

end DbusRouter.Model
