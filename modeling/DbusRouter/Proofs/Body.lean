/-
Reading and replacing bodies.

Every body rewriter reads the string its body starts with (`stringIn`) and
puts a new body behind the same header. What they read is a function of
the body alone (`firstBodyString_eq`, `extractNameFromBody_eq`), and what
they write is either the message as it was or a rebuilt one
(`rewriteBodyForClient_cases`, `rewriteRequestBody_eq`).

The readers differ in one guard: a body of one to three bytes passes the
rewriters' check and ends in a slice past the end of the message
(`firstBodyString_panics`).
-/
import DbusRouter.Proofs.Rewritten

namespace DbusRouter.Model

open Wire Lib

-- ================================================================ where it is

/-- Bytes with a body that starts where `bodyStartOf` says. -/
structure HasBody (e : Endian) (raw : Bytes) (start : Nat) (body : Bytes) :
    Prop where
  start_eq : bodyStartOf e raw = .ok start
  length : start + body.length = raw.length
  drop : raw.drop start = body

/-- The start of a body lies behind the fixed header and is far from the
end of the address space. -/
theorem bodyStartOf_bounds {e : Endian} {raw : Bytes} {start : Nat}
    (h : bodyStartOf e raw = .ok start) :
    16 ≤ start ∧ start < 2 ^ 33 := by
  unfold bodyStartOf fixedHeaderSize minHeaderSize at h
  obtain ⟨n, hn, h⟩ := Outcome.bind_eq_ok h
  obtain ⟨headerEnd, hend, h⟩ := Outcome.bind_eq_ok h
  have hlt : n < 2 ^ 32 := by
    unfold readU32At readU32 at hn
    obtain ⟨rest, -, hn⟩ := Outcome.bind_eq_ok hn
    obtain ⟨arr, harr, hn⟩ := Outcome.bind_eq_ok hn
    cases hn
    obtain ⟨h4, rfl⟩ := slice_eq_ok harr
    have hnat := e.nat_lt ((rest.drop 0).take (4 - 0))
    have hlen : ((rest.drop 0).take (4 - 0)).length = 4 := by
      rw [List.length_take, List.length_drop]
      omega
    rw [hlen] at hnat
    norm_num at hnat ⊢
    exact hnat
  rw [addUsize_ok (by omega)] at hend
  cases hend
  rw [addUsize_ok (by omega)] at h
  cases h
  omega

namespace HasBody

variable {e : Endian} {raw body : Bytes} {start : Nat}

/-- The body is behind the fixed header. -/
theorem start_ge (h : HasBody e raw start body) : 16 ≤ start :=
  (bodyStartOf_bounds h.start_eq).1

/-- The body starts within the limit of the header. -/
theorem start_lt (h : HasBody e raw start body) : start < 2 ^ 33 :=
  (bodyStartOf_bounds h.start_eq).2

/-- It is what the router takes for the body. -/
theorem bodyOf (h : HasBody e raw start body) : bodyOf e raw = body := by
  unfold Model.bodyOf
  rw [h.start_eq]
  exact h.drop

/-- The body is where it is. -/
theorem unique {start' : Nat} {body' : Bytes} (h : HasBody e raw start body)
    (h' : HasBody e raw start' body') : start = start' ∧ body = body' := by
  have hs := h.start_eq
  rw [h'.start_eq] at hs
  cases hs
  exact ⟨rfl, h.drop.symm.trans h'.drop⟩

end HasBody

/-- Every frame has its body. -/
theorem Frame.hasBody (f : Frame) :
    HasBody f.endian f.bytes f.bodyStart f.body :=
  ⟨f.bodyStartOf_bytes, f.bytes_length.symm, f.drop_bodyStart⟩

/-- Every message that was read has its body. -/
theorem Message.Accepted.hasBody {z : Zvariant} {msg : Message}
    (h : msg.Accepted z) :
    ∃ start, HasBody msg.header.endian msg.raw start msg.body := by
  obtain ⟨f, hmsg⟩ := h.eq_message
  rw [hmsg]
  refine ⟨f.bodyStart, ?_⟩
  show HasBody f.endian f.bytes f.bodyStart (bodyOf f.endian f.bytes)
  rw [f.bodyOf_bytes]
  exact f.hasBody

-- ================================================================== reading

/-- The bytes of the string a body starts with; `none` when the body ends
before the string does. -/
def stringIn (e : Endian) (body : Bytes) : Option Bytes :=
  if 4 + e.nat (body.take 4) ≤ body.length then
    some ((body.drop 4).take (e.nat (body.take 4)))
  else none

/-- Without four bytes there is no string. -/
theorem stringIn_of_short {e : Endian} {body : Bytes}
    (h : body.length < 4) : stringIn e body = none := by
  unfold stringIn
  rw [if_neg (by omega)]

/-- A number is read from the first four. -/
theorem readU32At_hasBody {e : Endian} {raw body : Bytes} {start : Nat}
    (h : HasBody e raw start body) (h4 : 4 ≤ body.length) :
    readU32At e raw start = .ok (e.nat (body.take 4)) := by
  have hlen := h.length
  unfold readU32At readU32
  rw [sliceFrom_ok (by omega), Outcome.ok_bind, h.drop,
    slice_ok (Nat.zero_le 4) h4]
  rfl

/-- The string slice of the readers, once its bounds are checked. -/
theorem slice_hasBody {e : Endian} {raw body : Bytes} {start n : Nat}
    (h : HasBody e raw start body) (hn : 4 + n ≤ body.length) :
    (slice raw (start + 4) (start + 4 + n) : Result Bytes)
      = .ok ((body.drop 4).take n) := by
  have hlen := h.length
  rw [slice_ok (by omega) (by omega), ← List.drop_drop, h.drop,
    Nat.add_sub_cancel_left]

/-- Four bytes are a number below 2 ^ 32. -/
theorem nat_take_lt (e : Endian) (body : Bytes) :
    e.nat (body.take 4) < 2 ^ 32 := by
  have hlen : (body.take 4).length ≤ 4 := by
    rw [List.length_take]
    omega
  calc e.nat (body.take 4)
      < 256 ^ (body.take 4).length := e.nat_lt _
    _ ≤ 256 ^ 4 := Nat.pow_le_pow_right (by omega) hlen
    _ = 2 ^ 32 := by norm_num

section readers

variable {msg : Message} {start : Nat} {body : Bytes}

/-- `extractNameFromBody` reads the first string, if it is UTF-8. -/
theorem extractNameFromBody_eq
    (h : HasBody msg.header.endian msg.raw start body) :
    msg.extractNameFromBody
      = .ok ((stringIn msg.header.endian body).bind fromUtf8) := by
  have hlen := h.length
  have hlt := h.start_lt
  have hnat := nat_take_lt msg.header.endian body
  unfold Message.extractNameFromBody Message.bodyStart
  rw [h.start_eq, Outcome.ok_bind, addUsize_ok (by omega), Outcome.ok_bind]
  split
  next hshort =>
    rw [stringIn_of_short (by omega)]
    rfl
  next hlong =>
    rw [readU32At_hasBody h (by omega), Outcome.ok_bind, Outcome.ok_bind,
      addUsize_ok (by omega), Outcome.ok_bind]
    unfold stringIn
    split
    next hover =>
      rw [if_neg (by omega)]
      rfl
    next hin =>
      rw [if_pos (by omega), slice_hasBody h (by omega)]
      rfl

/-- `firstBodyString` reads the first string, invalid UTF-8 replaced, of
every body but the shortest. -/
theorem firstBodyString_eq
    (h : HasBody msg.header.endian msg.raw start body)
    (hbody : body.length = 0 ∨ 4 ≤ body.length) :
    msg.firstBodyString
      = .ok ((stringIn msg.header.endian body).map fromUtf8Lossy) := by
  have hlen := h.length
  have hlt := h.start_lt
  have hnat := nat_take_lt msg.header.endian body
  unfold Message.firstBodyString Message.bodyStart
  rw [h.start_eq, Outcome.ok_bind]
  split
  next hempty =>
    rw [stringIn_of_short (by omega)]
    rfl
  next hsome =>
    rw [readU32At_hasBody h (by omega), Outcome.ok_bind,
      addUsize_ok (by omega), Outcome.ok_bind, addUsize_ok (by omega),
      Outcome.ok_bind]
    unfold stringIn
    split
    next hover =>
      rw [if_neg (by omega)]
      rfl
    next hin =>
      rw [if_pos (by omega), slice_hasBody h (by omega)]
      rfl

/-- A body of one to three bytes is read past its end. -/
theorem firstBodyString_panics
    (h : HasBody msg.header.endian msg.raw start body)
    (hbody : 0 < body.length) (hshort : body.length < 4) :
    msg.firstBodyString = .panic .slice := by
  have hlen := h.length
  unfold Message.firstBodyString Message.bodyStart
  rw [h.start_eq, Outcome.ok_bind, if_neg (by omega)]
  unfold readU32At readU32
  rw [sliceFrom_ok (by omega), Outcome.ok_bind, h.drop]
  unfold slice
  rw [if_neg (by omega)]
  rfl

end readers

-- ================================================================ replacing

/-- The bytes of a message around a new body. -/
def rebuilt (e : Endian) (raw : Bytes) (start : Nat) (body : Bytes) :
    Bytes :=
  raw.take 4 ++ e.bytes 4 (body.length % 2 ^ 32)
    ++ (raw.drop 8).take (start - 8) ++ body

/-- Replacing a body never fails. -/
theorem rebuildMessageWithBody_eq {e : Endian} {raw body : Bytes}
    {start : Nat} (h : HasBody e raw start body) (new : Bytes) :
    rebuildMessageWithBody raw e new = .ok (rebuilt e raw start new) := by
  have hlen := h.length
  have hge := h.start_ge
  unfold rebuildMessageWithBody rebuilt
  rw [h.start_eq, Outcome.ok_bind, slice_ok (by omega) (by omega),
    Outcome.ok_bind, slice_ok (by omega) (by omega)]
  rfl

/-- The body of a string. -/
def stringBody (e : Endian) (s : Text) : Bytes :=
  e.bytes 4 (s.length % 2 ^ 32) ++ s ++ [0]

/-- A string is followed by a zero and led by its length. -/
@[simp] theorem stringBody_length (e : Endian) (s : Text) :
    (stringBody e s).length = s.length + 5 := by
  simp [stringBody]
  omega

-- ============================================================= for the client

/-- `raw` is the message as it was, or its header around another body. -/
def Message.Rebodied (m : Message) (raw : Bytes) : Prop :=
  raw = m.raw ∨ ∃ new,
    rebuildMessageWithBody m.raw m.header.endian new = .ok raw

section rebodied

variable {z : Zvariant} {m : Message} {b : Bus} {raw : Bytes}

/-- A message differs from itself in nothing. -/
theorem Message.Rebodied.refl (m : Message) : m.Rebodied m.raw :=
  Or.inl rfl

/-- A body that cannot be rewritten is sent as it came. -/
theorem Message.Rebodied.orElse {x : Result Bytes}
    (hx : ∀ {r}, x = .ok r → m.Rebodied r) (h : x.orElse m.raw = .ok raw) :
    m.Rebodied raw := by
  rcases Outcome.orElse_eq_ok h with h | ⟨-, rfl⟩
  · exact hx h
  · exact Message.Rebodied.refl m

/-- Translating one name changes nothing but the body. -/
theorem rewriteSingleNameResponse_rebodied
    (h : rewriteSingleNameResponse m b = .ok raw) : m.Rebodied raw := by
  unfold rewriteSingleNameResponse at h
  obtain ⟨first, -, h⟩ := Outcome.bind_eq_ok h
  cases first with
  | none =>
      cases h
      exact Message.Rebodied.refl m
  | some name =>
      simp only at h
      split at h
      next => exact Or.inr ⟨_, h⟩
      next =>
        cases h
        exact Message.Rebodied.refl m

/-- Translating a list of names changes nothing but the body. -/
theorem rewriteStringArrayResponse_rebodied
    (h : rewriteStringArrayResponse z m b = .ok raw) : m.Rebodied raw := by
  unfold rewriteStringArrayResponse at h
  obtain ⟨names, -, h⟩ := Outcome.bind_eq_ok h
  split at h
  next =>
    cases h
    exact Message.Rebodied.refl m
  next =>
    obtain ⟨new, -, h⟩ := Outcome.bind_eq_ok h
    exact Or.inr ⟨new, h⟩

/-- Translating an owner change changes nothing but the body. -/
theorem rewriteNameOwnerChanged_rebodied
    (h : rewriteNameOwnerChanged z m b = .ok raw) : m.Rebodied raw := by
  unfold rewriteNameOwnerChanged at h
  obtain ⟨start, -, h⟩ := Outcome.bind_eq_ok h
  split at h
  next =>
    cases h
    exact Message.Rebodied.refl m
  next =>
    obtain ⟨data, -, h⟩ := Outcome.bind_eq_ok h
    split at h
    next =>
      cases h
      exact Message.Rebodied.refl m
    next =>
      obtain ⟨new, -, h⟩ := Outcome.bind_eq_ok h
      exact Or.inr ⟨new, h⟩

/-- Whatever is done to an answer's body leaves its header. -/
theorem rewriteMethodReturnBody_rebodied
    {calls : PMap Nat PendingCallInfo}
    (h : rewriteMethodReturnBody z m b calls = .ok raw) :
    m.Rebodied raw := by
  unfold rewriteMethodReturnBody at h
  split at h
  next =>
    cases h
    exact Message.Rebodied.refl m
  next info _ =>
    split at h
    next =>
      cases h
      exact Message.Rebodied.refl m
    next =>
      split at h
      next =>
        cases h
        exact Message.Rebodied.refl m
      next member _ =>
        split at h
        next =>
          cases h
          exact Message.Rebodied.refl m
        next =>
          split at h
          next =>
            exact Message.Rebodied.orElse rewriteStringArrayResponse_rebodied h
          next =>
            exact Message.Rebodied.orElse rewriteSingleNameResponse_rebodied h

/-- Whatever is done to a signal's body leaves its header. -/
theorem rewriteSignalBody_rebodied
    (h : rewriteSignalBody z m b = .ok raw) : m.Rebodied raw := by
  unfold rewriteSignalBody at h
  split at h
  next =>
    cases h
    exact Message.Rebodied.refl m
  next =>
    split at h
    next =>
      cases h
      exact Message.Rebodied.refl m
    next => exact Message.Rebodied.orElse rewriteNameOwnerChanged_rebodied h

/-- Rewriting a body for the client keeps the bytes or puts a new body
behind the header. -/
theorem rewriteBodyForClient_cases {calls : PMap Nat PendingCallInfo}
    (h : rewriteBodyForClient z m b calls = .ok raw) :
    raw = m.raw ∨ ∃ new,
      rebuildMessageWithBody m.raw m.header.endian new = .ok raw := by
  unfold rewriteBodyForClient at h
  split at h
  next => exact rewriteMethodReturnBody_rebodied h
  next => exact rewriteSignalBody_rebodied h
  next =>
    cases h
    exact Message.Rebodied.refl m

end rebodied

-- ================================================================= for a bus

/-- A unique name without its prefix. -/
def stripName (name : Text) : Option (Text × Bus) :=
  fromFakeName name

/-- A match rule whose sender has lost its prefix. -/
def stripRule (rule : Text) : Option (Text × Bus) :=
  (parseMatchRuleSender rule).bind fun sender =>
    (fromFakeName sender).map fun (real, bus) =>
      (rewriteMatchRuleSender rule sender real, bus)

/-- How a call of the bus daemon has its first string rewritten, with the
bus of the prefix that is taken out. -/
def stripFor (member : Option Text) : Text → Option (Text × Bus) :=
  if member.any needsRequestRewrite then stripName
  else if member.any isMatchRuleMember then stripRule
  else fun _ => none

/-- The new first string of a call of the bus daemon, and the bus of the
prefix that was taken out of the old one. -/
def strippedString (msg : Message) (body : Bytes) : Option (Text × Bus) :=
  ((stringIn msg.header.endian body).map fromUtf8Lossy).bind
    (stripFor msg.header.member)

section requests

variable {msg : Message} {start : Nat} {body : Bytes}

/-- The bytes after the first string has been replaced, if it was. -/
def restringed (msg : Message) (start : Nat) (new : Option (Text × Bus)) :
    Bytes :=
  match new with
  | none => msg.raw
  | some (s, _) =>
      rebuilt msg.header.endian msg.raw start
        (stringBody msg.header.endian s)

/-- A body of one string is the frame built anew with it. -/
theorem rebuildMessageWithString_eq
    (h : HasBody msg.header.endian msg.raw start body) (s : Text) :
    rebuildMessageWithString msg.raw msg.header.endian s
      = .ok (rebuilt msg.header.endian msg.raw start
          (stringBody msg.header.endian s)) :=
  rebuildMessageWithBody_eq h _

/-- Rewriting the match rule of an `AddMatch` or `RemoveMatch`. -/
theorem matchRuleBodyOrOriginal_eq
    (h : HasBody msg.header.endian msg.raw start body)
    (hbody : body.length = 0 ∨ 4 ≤ body.length) :
    matchRuleBodyOrOriginal msg
      = .ok (restringed msg start
          (((stringIn msg.header.endian body).map fromUtf8Lossy).bind
            stripRule)) := by
  unfold matchRuleBodyOrOriginal rewriteMatchRuleBody
  rw [firstBodyString_eq h hbody, Outcome.ok_bind]
  cases (stringIn msg.header.endian body).map fromUtf8Lossy with
  | none => rfl
  | some rule =>
      simp only [Option.bind_some]
      unfold stripRule
      cases parseMatchRuleSender rule with
      | none => rfl
      | some sender =>
          simp only [Option.bind_some]
          cases fromFakeName sender with
          | none => rfl
          | some x =>
              obtain ⟨real, bus⟩ := x
              simp only [Option.map_some]
              rw [rebuildMessageWithString_eq h]
              rfl

/-- Rewriting the name a call is about. -/
theorem rewriteUniqueNameRequest_eq
    (h : HasBody msg.header.endian msg.raw start body)
    (hbody : body.length = 0 ∨ 4 ≤ body.length) :
    ∃ bus, (rewriteUniqueNameRequest msg).orElse (msg.raw, .sandbox)
      = .ok (restringed msg start
          (((stringIn msg.header.endian body).map fromUtf8Lossy).bind
            stripName), bus) := by
  unfold rewriteUniqueNameRequest
  rw [firstBodyString_eq h hbody, Outcome.ok_bind]
  cases (stringIn msg.header.endian body).map fromUtf8Lossy with
  | none =>
      refine ⟨.sandbox, ?_⟩
      simp only [Option.bind_none]
      unfold Message.bodyStart
      rw [h.start_eq, Outcome.ok_bind]
      split <;> rfl
  | some name =>
      simp only [Option.bind_some]
      unfold stripName
      cases fromFakeName name with
      | none => exact ⟨.sandbox, rfl⟩
      | some x =>
          obtain ⟨real, bus⟩ := x
          refine ⟨bus, ?_⟩
          simp only
          rw [rebuildMessageWithString_eq h]
          rfl

/-- What a call of the bus daemon is written as. -/
theorem rewriteRequestBody_eq
    (h : HasBody msg.header.endian msg.raw start body)
    (hbody : body.length = 0 ∨ 4 ≤ body.length)
    (hdest : msg.header.destination = some busName) :
    rewriteRequestBody msg
      = .ok (restringed msg start (strippedString msg body)) := by
  unfold rewriteRequestBody strippedString stripFor
  rw [if_neg (by simp [hdest])]
  cases msg.header.member with
  | none =>
      simp only [Option.any_none, Bool.false_eq_true, if_false]
      cases (stringIn msg.header.endian body).map fromUtf8Lossy <;> rfl
  | some member =>
      simp only [Option.any_some]
      split
      next =>
        obtain ⟨bus, heq⟩ := rewriteUniqueNameRequest_eq h hbody
        rw [heq]
        rfl
      next =>
        split
        next => exact matchRuleBodyOrOriginal_eq h hbody
        next => cases (stringIn msg.header.endian body).map fromUtf8Lossy <;> rfl

/-- A call with a name or a match rule in too short a body is read past its
end. -/
theorem rewriteRequestBody_panics
    (h : HasBody msg.header.endian msg.raw start body)
    (hbody : 0 < body.length) (hshort : body.length < 4)
    (hdest : msg.header.destination = some busName) {member : Text}
    (hmember : msg.header.member = some member)
    (hread : needsRequestRewrite member = true
      ∨ isMatchRuleMember member = true) :
    rewriteRequestBody msg = .panic .slice := by
  have hpanic := firstBodyString_panics h hbody hshort
  unfold rewriteRequestBody
  rw [if_neg (by simp [hdest]), hmember]
  simp only
  split
  next =>
    unfold rewriteUniqueNameRequest
    rw [hpanic]
    rfl
  next hno =>
    have hrule : isMatchRuleMember member = true := by
      rcases hread with h | h
      · exact absurd h hno
      · exact h
    rw [if_pos hrule]
    unfold matchRuleBodyOrOriginal rewriteMatchRuleBody
    rw [hpanic]
    rfl

/-- A request that is written keeps its bytes or has its first string
replaced. -/
theorem rewriteRequestBody_cases {raw : Bytes}
    (h : HasBody msg.header.endian msg.raw start body)
    (hok : rewriteRequestBody msg = .ok raw) :
    raw = msg.raw ∨ (msg.header.destination = some busName
      ∧ raw = restringed msg start (strippedString msg body)) := by
  by_cases hdest : msg.header.destination = some busName
  · by_cases hbody : body.length = 0 ∨ 4 ≤ body.length
    · rw [rewriteRequestBody_eq h hbody hdest] at hok
      cases hok
      exact Or.inr ⟨hdest, rfl⟩
    · push Not at hbody
      left
      have hpanic := @rewriteRequestBody_panics msg start body h (by omega)
        hbody.2 hdest
      unfold rewriteRequestBody at hok hpanic
      rw [if_neg (by simp [hdest])] at hok hpanic
      cases hmember : msg.header.member with
      | none =>
          rw [hmember] at hok
          cases hok
          rfl
      | some member =>
          have hp := hpanic hmember
          rw [hmember] at hok hp
          by_cases hname : needsRequestRewrite member = true
          · rw [hp (Or.inl hname)] at hok
            cases hok
          · by_cases hrule : isMatchRuleMember member = true
            · rw [hp (Or.inr hrule)] at hok
              cases hok
            · simp only [if_neg hname, if_neg hrule] at hok
              cases hok
              rfl
  · left
    unfold rewriteRequestBody at hok
    rw [if_pos hdest] at hok
    cases hok
    rfl

/-- A match-rule call is no call about a name. -/
theorem stripFor_of_matchRule {member : Option Text}
    (h : member.any isMatchRuleMember = true) :
    stripFor member = stripRule := by
  unfold stripFor
  cases member with
  | none => cases h
  | some member =>
      simp only [Option.any_some] at h ⊢
      have hno : needsRequestRewrite member = false := by
        unfold isMatchRuleMember at h
        rw [Bool.or_eq_true, beq_iff_eq, beq_iff_eq] at h
        rcases h with rfl | rfl <;> decide
      rw [hno, if_neg Bool.false_ne_true, if_pos h]

/-- What both buses are written: the bytes as they came, or with the match
rule's sender rewritten. -/
theorem bytesForBoth_cases {raw : Bytes}
    (h : HasBody msg.header.endian msg.raw start body)
    (hok : bytesForBoth msg = .ok raw) :
    raw = msg.raw ∨ (msg.header.member.any isMatchRuleMember = true
      ∧ raw = restringed msg start (strippedString msg body)) := by
  unfold bytesForBoth at hok
  split at hok
  next hmember =>
    by_cases hbody : body.length = 0 ∨ 4 ≤ body.length
    · rw [matchRuleBodyOrOriginal_eq h hbody] at hok
      cases hok
      right
      refine ⟨hmember, ?_⟩
      unfold strippedString
      rw [stripFor_of_matchRule hmember]
    · push Not at hbody
      unfold matchRuleBodyOrOriginal rewriteMatchRuleBody at hok
      rw [firstBodyString_panics h (by omega) hbody.2] at hok
      cases hok
  next =>
    cases hok
    exact Or.inl rfl

end requests

-- ================================================================== the table

/-- The entry of a member is in the table under that member. -/
theorem findMethodSpec_eq_some {member : Option Text} {spec : DbusMethodSpec}
    (h : findMethodSpec (member.getD []) = some spec) :
    spec ∈ dbusMethodSpecs ∧ member = some spec.member := by
  unfold findMethodSpec at h
  have hmem := List.mem_of_find?_eq_some h
  have heq : spec.member = member.getD [] := by
    simpa using List.find?_some h
  have hne : ∀ spec ∈ dbusMethodSpecs, spec.member ≠ [] := by decide
  refine ⟨hmem, ?_⟩
  cases member with
  | none => exact absurd heq (hne spec hmem)
  | some member => rw [heq, Option.getD_some]

/-- The calls the table routes by their match rule. -/
theorem isMatchRuleMember_of_spec {spec : DbusMethodSpec}
    (h : spec ∈ dbusMethodSpecs) (hroute : spec.route = .byMatchRule) :
    isMatchRuleMember spec.member = true := by
  revert hroute
  revert spec
  decide

/-- The entries of the match-rule calls. -/
theorem spec_of_matchRule {member : Text}
    (h : isMatchRuleMember member = true) :
    ∃ spec, findMethodSpec member = some spec
      ∧ spec.route = .byMatchRule := by
  unfold isMatchRuleMember at h
  rw [Bool.or_eq_true, beq_iff_eq, beq_iff_eq] at h
  rcases h with rfl | rfl
  · exact ⟨⟨utf8 "AddMatch", .byMatchRule⟩, by decide, rfl⟩
  · exact ⟨⟨utf8 "RemoveMatch", .byMatchRule⟩, by decide, rfl⟩

/-- The calls that are merged are those for lists of names. -/
theorem member_of_mergeBoth {spec : DbusMethodSpec}
    (h : spec ∈ dbusMethodSpecs) (hroute : spec.route = .mergeBoth) :
    spec.member = utf8 "ListNames"
      ∨ spec.member = utf8 "ListActivatableNames" := by
  revert hroute
  revert spec
  decide

/-- The calls about a name look for a prefix in it. -/
theorem allowFake_of_requestRewrite {member : Text}
    (h : needsRequestRewrite member = true) :
    ∃ checkHostRoutes, findMethodSpec member
      = some ⟨member, .byName checkHostRoutes true⟩ := by
  unfold needsRequestRewrite at h
  rw [List.contains_iff_mem] at h
  revert member
  decide

/-- What the table sends to both buses is a match rule. -/
theorem member_of_both {config : Config} {msg : Message}
    (h : routeDbusMethod config msg = .ok .both) :
    msg.header.member.any isMatchRuleMember = true := by
  unfold routeDbusMethod at h
  split at h
  next => cases h
  next spec hspec =>
    obtain ⟨hmem, hmember⟩ := findMethodSpec_eq_some hspec
    split at h
    next => cases h
    next hroute =>
      rw [hmember]
      exact isMatchRuleMember_of_spec hmem hroute
    next =>
      obtain ⟨name, -, h⟩ := Outcome.bind_eq_ok h
      cases h

/-- What the table has merged is a list of names. -/
theorem member_of_merge {config : Config} {msg : Message}
    (h : routeDbusMethod config msg = .ok .merge) :
    msg.header.member = some (utf8 "ListNames")
      ∨ msg.header.member = some (utf8 "ListActivatableNames") := by
  unfold routeDbusMethod at h
  split at h
  next => cases h
  next spec hspec =>
    obtain ⟨hmem, hmember⟩ := findMethodSpec_eq_some hspec
    split at h
    next hroute =>
      rw [hmember]
      rcases member_of_mergeBoth hmem hroute with h' | h'
      · exact Or.inl (congrArg some h')
      · exact Or.inr (congrArg some h')
    next =>
      obtain ⟨rule, -, h⟩ := Outcome.bind_eq_ok h
      cases rule with
      | none => cases h
      | some rule =>
          have hrule := Outcome.ok.inj h
          unfold routeMatchRule at hrule
          dsimp only at hrule
          split at hrule
          next => cases hrule
          next =>
            split at hrule
            next => cases hrule
            next => cases hrule
    next =>
      obtain ⟨name, -, h⟩ := Outcome.bind_eq_ok h
      cases h

/-- A call for a list of names has nothing to strip. -/
theorem stripFor_of_merge {config : Config} {msg : Message}
    (h : routeDbusMethod config msg = .ok .merge) (s : Text) :
    stripFor msg.header.member s = none := by
  rcases member_of_merge h with hm | hm
  all_goals
    rw [hm]
    rfl

/-- What goes to both buses is a call of the bus daemon, by the table. -/
theorem routeRequest_of_not_single {glob : Glob} {config : Config}
    {msg : Message} {exe : Option Bytes} {d : RouteDecision}
    (h : routeRequest glob config msg exe = .ok d)
    (hd : ∀ b, d ≠ .single b) :
    isHostpass glob config exe = false
      ∧ msg.header.destination = some busName
      ∧ msg.header.interface = some busName
      ∧ routeDbusMethod config msg = .ok d := by
  unfold routeRequest at h
  split at h
  next =>
    cases h
    exact absurd rfl (hd .host)
  next hpass =>
    split at h
    next b _ =>
      cases h
      exact absurd rfl (hd b)
    next =>
      split at h
      next hdest => exact ⟨by simpa using hpass, hdest.1, hdest.2, h⟩
      next =>
        split at h
        next =>
          cases h
          exact absurd rfl (hd .host)
        next =>
          cases h
          exact absurd rfl (hd .sandbox)

end DbusRouter.Model
