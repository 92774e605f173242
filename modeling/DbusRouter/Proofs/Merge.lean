/-
Pending merges and the replies built from them.

A merge is kept under the serial of the message it was made for
(`mergesKept_run`). Its reply is a METHOD_RETURN with two header fields,
the serial it answers and the signature (`buildMethodReturn_eq`), so
whoever reads it finds that serial there.
-/
import DbusRouter.Proofs.Foreign

namespace DbusRouter.Model

open Wire Lib

-- ================================================================== the reply

/-- The header fields of a merged reply. -/
def replyFields (serial : Nat) : List Field :=
  [(5, .fixed .uint32 serial), (8, .signature [.array .str])]

/-- The format allows the two fields. -/
theorem replyFields_valid (e : Endian) {serial : Nat}
    (h : serial < 2 ^ 32) : ValidFields e 16 (replyFields serial) := by
  have hty : (Ty.fixed .uint32).WF false
      ∧ (Ty.fixed .uint32).render.length ≤ 255 := by
    decide
  have hone : ValidField e 16 (5, .fixed .uint32 serial) := by
    refine ⟨hty.1, hty.2, ?_⟩
    rw [Valid]
    refine ⟨?_, by simp⟩
    show serial < 256 ^ 4
    norm_num
    omega
  have htwo : ∀ p, ValidField e p (8, .signature [.array .str]) := by
    intro p
    refine ⟨by decide, by decide, ?_⟩
    rw [Valid]
    exact ⟨by decide, by decide⟩
  exact ⟨hone, htwo _, trivial⟩

/-- Neither of them takes a descriptor. -/
theorem replyFields_taken (z : Zvariant) (serial : Nat) :
    z.Takes (replyFields serial) := by
  right
  simp [replyFields, Value.hasFd]

/-- They are far below the limit of a header array. -/
theorem replyFields_length (e : Endian) (serial : Nat) :
    (marshalFields e 16 (replyFields serial)).length ≤ 2 ^ 26 := by
  simp [replyFields, marshalFields, marshalField, marshal, sigBytes,
    Value.typeOf, Ty.render, Ty.renderAll, Fixed.code, Fixed.size, alignUp]

/-- The bytes of a merged reply. -/
def replyBytes (request : Message) (body : Bytes) : Bytes :=
  let e := request.header.endian
  let array := marshalFields e 16 (replyFields request.header.serial)
  layout e (fixedHeader e 2 1 (body.length % 2 ^ 32)
      ((request.header.serial + 1000000) % 2 ^ 32)) array
    (zeros (padTo8 (16 + array.length))) body

/-- The reply is built, and has these bytes around its body. -/
theorem buildMethodReturn_eq {z : Zvariant} {request : Message}
    (hz : z.FollowsSpec) (hserial : request.header.serial < 2 ^ 32)
    (body : Bytes) :
    buildMethodReturn z request body [.array .str]
      = .ok (replyBytes request body) := by
  have hlen := replyFields_length request.header.endian request.header.serial
  have hencode := hz.encodeFields_eq request.header.endian
    (replyFields request.header.serial)
    (replyFields_valid request.header.endian hserial) hlen
    (replyFields_taken z _)
  unfold buildMethodReturn
  dsimp only
  rw [show z.encodeFields request.header.endian 12
      [(5, .fixed .uint32 request.header.serial),
        (8, .signature [.array .str])] = _ from hencode]
  unfold orZvariant fieldArray
  have hmod : (marshalFields request.header.endian 16
      (replyFields request.header.serial)).length % 2 ^ 32
        = (marshalFields request.header.endian 16
          (replyFields request.header.serial)).length :=
    Nat.mod_eq_of_lt (by omega)
  rw [Outcome.ok_bind, subUsize_ok (by simp), Outcome.ok_bind,
    List.length_append, Endian.bytes_length, Nat.add_sub_cancel_left, hmod]
  unfold replyBytes layout fixedHeader
  cases request.header.endian <;> simp [marker]

/-- So does every reply with a list of names that is built. -/
theorem buildListNamesResponse_eq_ok {z : Zvariant} {request : Message}
    (hz : z.FollowsSpec) (hserial : request.header.serial < 2 ^ 32)
    {names : List Text} {raw : Bytes}
    (h : buildListNamesResponse z request names = .ok raw) :
    ∃ body, raw = replyBytes request body := by
  unfold buildListNamesResponse at h
  obtain ⟨body, -, h⟩ := Outcome.bind_eq_ok h
  rw [buildMethodReturn_eq hz hserial] at h
  cases h
  exact ⟨body, rfl⟩

/-- Building one is no panic, whatever the names are. -/
theorem buildListNamesResponse_noPanic {z : Zvariant} {request : Message}
    (hz : z.FollowsSpec) (hserial : request.header.serial < 2 ^ 32)
    (names : List Text) :
    (buildListNamesResponse z request names).NoPanic := by
  unfold buildListNamesResponse
  refine Outcome.NoPanic.bind ?_ ?_
  · cases z.encodeStrings request.header.endian 0 names with
    | none => exact Outcome.noPanic_err _
    | some body => exact Outcome.noPanic_ok _
  · intro body _
    rw [buildMethodReturn_eq hz hserial]
    exact Outcome.noPanic_ok _

/-- A merged reply answers the request, whoever reads it. -/
theorem headerOf_replyBytes {z : Zvariant} {request : Message} {body : Bytes}
    {h : MessageHeader} (hz : z.FollowsSpec)
    (hserial : request.header.serial < 2 ^ 32)
    (hh : headerOf z (replyBytes request body) = .ok h) :
    h.replySerial = some request.header.serial := by
  have hlen := replyFields_length request.header.endian request.header.serial
  have hvalid := replyFields_valid request.header.endian hserial
  obtain ⟨-, -, hreply⟩ := headerOf_layout (by omega) hh
  unfold parseHeaderFields at hreply
  rw [(hz.fields_iff _ _ _ hlen).mpr
    ⟨⟨hvalid, rfl⟩, replyFields_taken z _⟩] at hreply
  exact hreply

-- =================================================================== the merges

/-- Every merge is kept for a message that was read, under its serial. -/
def Session.MergesKept (z : Zvariant) (s : Session) : Prop :=
  ∀ n pending, s.pendingMerges n = some pending →
    pending.originalRequest.Accepted z
      ∧ pending.originalRequest.header.serial = n

/-- In every reachable state the merges are kept for messages that were read.
-/
theorem mergesKept_run {L : Libs} {config : Config}
    {exe : Option Bytes} {t : List (Event × List Write)} {s : Session}
    (h : Run L (Session.new config exe) t s) :
    s.MergesKept L.zvariant := by
  refine h.invariant (I := Session.MergesKept L.zvariant) ?_ ?_
  · intro n pending hp
    cases hp
  · intro m ev ws m' hm hstep
    rcases step_cases hstep with ⟨msg, rfl, hd⟩ | ⟨b, msg, rfl, hu⟩
    · intro n pending hp
      rcases downstream_merges hd with ⟨-, hmerges⟩ | ⟨hmerges, -⟩
      · rw [hmerges, PMap.insert_apply] at hp
        split at hp
        next hn =>
          cases hp
          exact ⟨hstep.1, hn.symm⟩
        next => exact hm n pending hp
      · rw [hmerges] at hp
        exact hm n pending hp
    · cases hu with
      | serviceCall => exact hm
      | @firstHalf n pending names _ _ hp =>
          intro k p hk
          simp only [PMap.insert_apply] at hk
          split at hk
          next hkn =>
            cases hk
            rw [hkn]
            exact hm n pending hp
          next => exact hm k p hk
      | secondHalf =>
          intro k p hk
          simp only [PMap.remove_apply] at hk
          split at hk
          next => cases hk
          next => exact hm k p hk
      | forwarded => exact hm

/-- A serial that was read fits its four bytes. -/
theorem Message.Accepted.serial_lt {z : Zvariant} {msg : Message}
    (h : msg.Accepted z) : msg.header.serial < 2 ^ 32 := by
  obtain ⟨f, hmsg⟩ := h.eq_message
  rw [hmsg]
  exact f.serial_lt

-- =================================================================== delivered

/-- A message from a bus that is prepared for the client, and neither a
service call nor part of a merge. -/
def Session.Forwards (s : Session) (msg : Message) (b : Bus) : Prop :=
  s.isIncomingServiceCall msg b = false ∧ s.mergeOf msg = none

/-- The walk reads the fields right on its way to the sender, where the
sender is rewritten. -/
def Session.ReadsSender (s : Session) (msg : Message) (b : Bus) : Prop :=
  (s.Forwards msg b ∨ s.isIncomingServiceCall msg b = true ∧ b = .sandbox) →
    msg.SenderPlain

end DbusRouter.Model
