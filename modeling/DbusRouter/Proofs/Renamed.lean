/-
The header that a rewritten message holds, and the one its bytes parse to.

`rewriteMessageHeader` puts the new name into the parsed header whether or
not the walk has found the field in the raw bytes. The two headers agree
where every field before it is `passable` and the array keeps within its
limit; where one of them stops the walk they do not (`header_held`).
-/
import DbusRouter.Proofs.Message

namespace DbusRouter.Model

open Wire Lib

-- ================================================================== renaming

/-- What is rewritten of a message: the code of a field and its new
string. -/
def Message.renamed (msg : Message) (direction : RewriteDirection)
    (b : Bus) : Option (UInt8 × Text) :=
  match direction with
  | .toClient =>
      msg.header.sender.bind fun sender =>
        if toFakeName sender b = sender then none
        else some (7, toFakeName sender b)
  | .toUpstream =>
      msg.header.destination.bind fun dest =>
        (fromFakeName dest).map fun x => (6, x.1)

/-- A header with a new SENDER, or a new DESTINATION. -/
def MessageHeader.rename (h : MessageHeader) (code : UInt8) (new : Text) :
    MessageHeader :=
  if code = 7 then { h with sender := some new }
  else { h with destination := some new }

section renamed

variable {msg : Message} {direction : RewriteDirection} {b : Bus}

/-- A header without a name to rewrite is left alone. -/
theorem rewriteMessageHeader_of_none (h : msg.renamed direction b = none) :
    rewriteMessageHeader msg direction b = .ok msg := by
  cases direction with
  | toClient =>
      simp only [Message.renamed] at h
      unfold rewriteMessageHeader
      cases hs : msg.header.sender with
      | none => rfl
      | some s =>
          rw [hs, Option.bind_some] at h
          by_cases heq : toFakeName s b = s
          · simp only [heq, if_true]
          · rw [if_neg heq] at h
            cases h
  | toUpstream =>
      simp only [Message.renamed] at h
      unfold rewriteMessageHeader
      cases hd : msg.header.destination with
      | none => rfl
      | some d =>
          rw [hd, Option.bind_some, Option.map_eq_none_iff] at h
          simp only [h]

/-- One with a name is spliced and keeps what was parsed of it. -/
theorem rewriteMessageHeader_of_some {code : UInt8} {new : Text}
    (h : msg.renamed direction b = some (code, new)) :
    rewriteMessageHeader msg direction b
      = rewriteHeaderField msg.raw msg.header.endian code new
        >>= fun raw => .ok { msg with
          raw := raw
          header := msg.header.rename code new } := by
  cases direction with
  | toClient =>
      simp only [Message.renamed] at h
      unfold rewriteMessageHeader
      cases hs : msg.header.sender with
      | none =>
          rw [hs] at h
          cases h
      | some s =>
          rw [hs, Option.bind_some] at h
          by_cases heq : toFakeName s b = s
          · rw [if_pos heq] at h
            cases h
          · rw [if_neg heq] at h
            cases h
            simp only [if_neg heq]
            rfl
  | toUpstream =>
      simp only [Message.renamed] at h
      unfold rewriteMessageHeader
      cases hd : msg.header.destination with
      | none =>
          rw [hd] at h
          cases h
      | some d =>
          rw [hd, Option.bind_some, Option.map_eq_some_iff] at h
          obtain ⟨⟨real, b'⟩, hf, heq⟩ := h
          cases heq
          simp only [hf]
          rfl

end renamed

/-- The string a rewrite replaces. -/
structure Renames (f : Frame) (fs : List Field) (code : UInt8)
    (old new : Text) : Prop where
  parsed : (code = 7 ∧ (ParsedHeaderFields.ofFields fs).sender = some old)
    ∨ (code = 6 ∧ (ParsedHeaderFields.ofFields fs).destination = some old)
  isStr : IsStr new
  ne : new ≠ old
  length_le : new.length ≤ old.length + 2

/-- The name that is rewritten is in the fields. -/
theorem Renames.mem {f : Frame} {fs : List Field} {code : UInt8}
    {old new : Text} (h : Renames f fs code old new) (hd : f.Decodes fs) :
    (code, .str old) ∈ fs := by
  rcases h.parsed with ⟨rfl, hs⟩ | ⟨rfl, hs⟩
  · exact hd.sender_mem hs
  · exact hd.destination_mem hs

/-- A name that is rewritten was read from the fields of the frame. -/
theorem Frame.renames {z : Zvariant} {f : Frame} {fds : List Fd}
    {fs : List Field} (hz : z.FollowsSpec) (hd : f.Decodes fs)
    {direction : RewriteDirection} {b : Bus} {code : UInt8} {new : Text}
    (h : (f.message z fds).renamed direction b = some (code, new)) :
    z.Takes fs ∧ ∃ old, Renames f fs code old new := by
  have ht : z.Takes fs := by
    refine hd.takes hz ?_
    by_contra hno
    simp only [ne_eq, not_or, not_not] at hno
    have hs : (f.message z fds).header.sender = none := hno.1
    have hd : (f.message z fds).header.destination = none := hno.2
    cases direction with
    | toClient =>
        simp only [Message.renamed, hs] at h
        cases h
    | toUpstream =>
        simp only [Message.renamed, hd] at h
        cases h
  refine ⟨ht, ?_⟩
  have hheader : (f.message z fds).header
      = f.prologue.intoHeader (.ofFields fs) := hd.header hz ht
  cases direction with
  | toClient =>
      simp only [Message.renamed, hheader, Prologue.intoHeader] at h
      cases hs : (ParsedHeaderFields.ofFields fs).sender with
      | none =>
          rw [hs] at h
          cases h
      | some s =>
          rw [hs, Option.bind_some] at h
          by_cases heq : toFakeName s b = s
          · rw [if_pos heq] at h
            cases h
          · rw [if_neg heq] at h
            cases h
            have hmem := hd.sender_mem hs
            have hlen := hd.length_of_mem hmem
            exact ⟨s, Or.inl ⟨rfl, hs⟩,
              isStr_toFakeName (isStr_of_mem hd.1 hmem) b (by omega), heq,
              toFakeName_length s b⟩
  | toUpstream =>
      simp only [Message.renamed, hheader, Prologue.intoHeader] at h
      cases hs : (ParsedHeaderFields.ofFields fs).destination with
      | none =>
          rw [hs] at h
          cases h
      | some d =>
          rw [hs, Option.bind_some, Option.map_eq_some_iff] at h
          obtain ⟨⟨real, b'⟩, hf, heq⟩ := h
          cases heq
          have hmem := hd.destination_mem hs
          have hlen := fromFakeName_length hf
          refine ⟨d, Or.inr ⟨rfl, hs⟩,
            isStr_fromFakeName (isStr_of_mem hd.1 hmem) hf, ?_, ?_⟩
          · rintro rfl
            simp only at hlen
            omega
          · simp only
            omega

-- ============================================================== the fields

/-- The fields with another string under a code. -/
def replaced (code : UInt8) (new : Text) (fs : List Field) : List Field :=
  fs.map fun f => if f.1 = code then (code, .str new) else f

/-- The fields before the one with a code. -/
def fieldsBefore (code : UInt8) (fs : List Field) : List Field :=
  fs.takeWhile fun f => f.1 != code

section fields

variable {code : UInt8} {pre post : List Field} {v : Value}

/-- The fields before a code end at the first one with it. -/
theorem fieldsBefore_append (hpre : Lacks code pre) :
    fieldsBefore code (pre ++ (code, v) :: post) = pre := by
  unfold fieldsBefore
  rw [List.takeWhile_append_of_pos fun f hf => bne_iff_ne.mpr (hpre f hf),
    List.takeWhile_cons_of_neg (by simp), List.append_nil]

/-- Without the code nothing is replaced. -/
theorem map_replaced (new : Text) {fs : List Field} (h : Lacks code fs) :
    replaced code new fs = fs := by
  unfold replaced
  conv_rhs => rw [← List.map_id fs]
  exact List.map_congr_left fun f hf => if_neg (h f hf)

/-- With it the value in its place is. -/
theorem replaced_append (new : Text) (hpre : Lacks code pre)
    (hpost : Lacks code post) :
    replaced code new (pre ++ (code, v) :: post)
      = pre ++ (code, .str new) :: post := by
  have hfirst := map_replaced new hpre
  have hlast := map_replaced new hpost
  unfold replaced at hfirst hlast ⊢
  rw [List.map_append, List.map_cons, hfirst, hlast, if_pos rfl]

/-- A code that occurs once splits the fields. -/
theorem exists_split {fs : List Field} (hcodes : (fs.map (·.1)).Nodup)
    (hmem : (code, v) ∈ fs) :
    ∃ pre post, fs = pre ++ (code, v) :: post ∧ Lacks code pre
      ∧ Lacks code post := by
  obtain ⟨pre, post, rfl⟩ := List.append_of_mem hmem
  rw [List.map_append, List.map_cons, List.nodup_append] at hcodes
  obtain ⟨-, hrest, hdisjoint⟩ := hcodes
  refine ⟨pre, post, rfl, fun f hf hcode => ?_, fun f hf hcode => ?_⟩
  · exact hdisjoint _ (List.mem_map_of_mem hf) _ (List.mem_cons_self ..)
      hcode
  · exact (List.nodup_cons.mp hrest).1
      (hcode ▸ List.mem_map_of_mem (f := (·.1)) hf)

end fields

-- =============================================================== both headers

/-- The header that a rewritten message holds is the one its bytes parse
to. -/
def HeaderHeld (z : Zvariant) (msg : Message) (direction : RewriteDirection)
    (b : Bus) : Prop :=
  ∀ m, rewriteMessageHeader msg direction b = .ok m →
    headerOf z m.raw = .ok m.header

/-- The walk gets to the field, and the array has room for its new
string. -/
def Renamable (e : Endian) (code : UInt8) (new : Text) (fs : List Field) :
    Prop :=
  (∀ f ∈ fieldsBefore code fs, passable e f.2 = true)
    ∧ (marshalFields e 16 (replaced code new fs)).length ≤ 2 ^ 26

section frame

variable {z : Zvariant} {f : Frame} {fds : List Fd} {pre post : List Field}
  {code : UInt8} {old new : Text}

/-- The frame with the string replaced has the header with the name
replaced. -/
theorem Frame.header_rename (hz : z.FollowsSpec)
    (hd : f.Decodes (pre ++ (code, .str old) :: post))
    (ht : z.Takes (pre ++ (code, .str old) :: post))
    (hr : Renames f (pre ++ (code, .str old) :: post) code old new)
    (hpost : Lacks code post)
    (hlen : (marshalFields f.endian 16
      (pre ++ (code, .str new) :: post)).length ≤ 2 ^ 26) :
    headerOf z (f.withFieldsBytes (pre ++ (code, .str new) :: post))
      = .ok ((f.header z).rename code new) := by
  have hd' : (f.withArray _ hlen).Decodes
      (pre ++ (code, .str new) :: post) :=
    ⟨validFields_set hd.1 hr.isStr, rfl⟩
  rw [← f.withArray_bytes hlen, Frame.headerOf_bytes,
    hd'.header hz (ht.set new), hd.header hz ht]
  rcases hr.parsed with ⟨rfl, -⟩ | ⟨rfl, -⟩
  · rw [ofFields_sender pre hpost old new]
    rfl
  · rw [ofFields_destination pre hpost old new]
    rfl

/-- An array beyond the limit is refused. -/
theorem Frame.headerOf_withFieldsBytes {fs : List Field} {h : MessageHeader}
    (hlen : (marshalFields f.endian 16 fs).length < 2 ^ 32)
    (hh : headerOf z (f.withFieldsBytes fs) = .ok h) :
    (marshalFields f.endian 16 fs).length ≤ 2 ^ 26 :=
  (headerOf_layout hlen hh).1

/-- A rewritten name makes another header. -/
theorem rename_ne (hz : z.FollowsSpec) {fs : List Field}
    (hd : f.Decodes fs) (ht : z.Takes fs)
    (hr : Renames f fs code old new) :
    f.header z ≠ (f.header z).rename code new := by
  intro heq
  rw [hd.header hz ht] at heq
  rcases hr.parsed with ⟨rfl, hs⟩ | ⟨rfl, hs⟩
  · have hsender := congrArg MessageHeader.sender heq
    have hsame : some old = some new := hs.symm.trans hsender
    exact hr.ne (Option.some.inj hsame).symm
  · have hdest := congrArg MessageHeader.destination heq
    have hsame : some old = some new := hs.symm.trans hdest
    exact hr.ne (Option.some.inj hsame).symm

end frame

section held

variable {z : Zvariant} {f : Frame} {fds : List Fd} {fs : List Field}
  {direction : RewriteDirection} {b : Bus}

/-- The fields around the string that is replaced. -/
theorem Renames.split {code : UInt8} {old new : Text}
    (hr : Renames f fs code old new) (hd : f.Decodes fs)
    (hcodes : (fs.map (·.1)).Nodup) :
    ∃ pre post, fs = pre ++ (code, .str old) :: post ∧ Lacks code pre
      ∧ Lacks code post ∧ fieldsBefore code fs = pre
      ∧ replaced code new fs = pre ++ (code, .str new) :: post := by
  obtain ⟨pre, post, rfl, hpre, hpost⟩ := exists_split hcodes (hr.mem hd)
  exact ⟨pre, post, rfl, hpre, hpost, fieldsBefore_append hpre,
    replaced_append new hpre hpost⟩

/-- A field that the walk reaches is rewritten in the bytes, too. -/
theorem Frame.rewritten_of_passable {code : UInt8} {old new : Text}
    (hd : f.Decodes fs) (hcodes : (fs.map (·.1)).Nodup)
    (hr : Renames f fs code old new)
    (hpass : ∀ g ∈ fieldsBefore code fs, passable f.endian g.2 = true) :
    rewriteHeaderField f.bytes f.endian code new
      = .ok (f.withFieldsBytes (replaced code new fs)) := by
  have hold := hd.length_of_mem (hr.mem hd)
  have hlen := hr.length_le
  obtain ⟨pre, post, rfl, hpre, -, hbefore, hreplaced⟩ := hr.split hd hcodes
  rw [hbefore] at hpass
  rw [hreplaced]
  exact rewriteHeaderField_passed f hd.2 hd.1
    (fun g hg => ⟨hpre g hg, hpass g hg⟩) (by omega)

/-- The rewritten bytes parse to the rewritten header if the scan gets to the
field. -/
theorem header_held_of_renamable (hz : z.FollowsSpec) (hd : f.Decodes fs)
    (hcodes : (fs.map (·.1)).Nodup)
    (h : ∀ code new, (f.message z fds).renamed direction b = some (code, new) →
      Renamable f.endian code new fs) :
    HeaderHeld z (f.message z fds) direction b := by
  intro m hm
  cases hren : (f.message z fds).renamed direction b with
  | none =>
      rw [rewriteMessageHeader_of_none hren] at hm
      cases hm
      exact f.headerOf_bytes z
  | some x =>
      obtain ⟨code, new⟩ := x
      obtain ⟨hpass, hlen⟩ := h code new hren
      obtain ⟨ht, old, hr⟩ := Frame.renames hz hd hren
      have hrewritten := Frame.rewritten_of_passable hd hcodes hr hpass
      obtain ⟨pre, post, rfl, -, hpost, -, hreplaced⟩ := hr.split hd hcodes
      rw [hreplaced] at hrewritten hlen
      rw [rewriteMessageHeader_of_some hren,
        show rewriteHeaderField (f.message z fds).raw
          (f.message z fds).header.endian code new = _ from hrewritten,
        Outcome.ok_bind] at hm
      cases hm
      exact Frame.header_rename hz hd ht hr hpost hlen

/-- A field that stops the walk before the name leaves the bytes as they
were. -/
theorem Frame.unchanged_of_stops {code : UInt8} {old new : Text}
    (hd : f.Decodes fs) (hcodes : (fs.map (·.1)).Nodup)
    (hr : Renames f fs code old new)
    (hread : ∀ g ∈ fieldsBefore code fs,
      passable f.endian g.2 = true ∨ stops g.2 = true)
    (hnot : ¬∀ g ∈ fieldsBefore code fs, passable f.endian g.2 = true) :
    rewriteHeaderField f.bytes f.endian code new = .ok f.bytes := by
  -- the first field that is not passable stops the walk
  have hfound : (fieldsBefore code fs).find?
      (fun g => !passable f.endian g.2) ≠ none := by
    intro hnone
    rw [List.find?_eq_none] at hnone
    exact hnot fun g hg => by simpa using hnone g hg
  obtain ⟨g, hg⟩ := Option.ne_none_iff_exists'.mp hfound
  obtain ⟨hno, pre, mid, hsplit, hpre⟩ :=
    List.find?_eq_some_iff_append.mp hg
  have hstops : stops g.2 = true := by
    have hmem : g ∈ fieldsBefore code fs := by
      rw [hsplit]
      exact List.mem_append_right _ (List.mem_cons_self ..)
    refine (hread g hmem).resolve_left fun hpass => ?_
    rw [hpass] at hno
    cases hno
  obtain ⟨before, post, rfl, hlacks, -, hbefore, -⟩ := hr.split hd hcodes
  rw [hbefore] at hsplit
  subst hsplit
  have hfields : pre ++ g :: mid ++ (code, .str old) :: post
      = pre ++ g :: (mid ++ (code, .str old) :: post) := by
    rw [List.append_assoc, List.cons_append]
  have hv := hd.1
  have harr := hd.2
  rw [hfields] at hv harr
  exact rewriteHeaderField_stopped f harr hv
    (fun k hk => ⟨hlacks k (List.mem_append_left _ hk), by
      simpa using hpre k hk⟩)
    (hlacks g (List.mem_append_right _ (List.mem_cons_self ..))) hstops

/-- Where each field before the name is passable or stops the walk, there
is no other way. -/
theorem renamable_of_header_held (hz : z.FollowsSpec) (hd : f.Decodes fs)
    (hcodes : (fs.map (·.1)).Nodup) {code : UInt8} {new : Text}
    (hren : (f.message z fds).renamed direction b = some (code, new))
    (hread : ∀ g ∈ fieldsBefore code fs,
      passable f.endian g.2 = true ∨ stops g.2 = true)
    (hheld : HeaderHeld z (f.message z fds) direction b) :
    Renamable f.endian code new fs := by
  obtain ⟨ht, old, hr⟩ := Frame.renames hz hd hren
  unfold HeaderHeld at hheld
  rw [rewriteMessageHeader_of_some hren] at hheld
  have hall : ∀ g ∈ fieldsBefore code fs, passable f.endian g.2 = true := by
    by_contra hnot
    have hunchanged : rewriteHeaderField (f.message z fds).raw
        (f.message z fds).header.endian code new = .ok f.bytes :=
      Frame.unchanged_of_stops hd hcodes hr hread hnot
    rw [hunchanged] at hheld
    have hsame := (f.headerOf_bytes z).symm.trans (hheld _ rfl)
    exact rename_ne hz hd ht hr (Outcome.ok.inj hsame)
  refine ⟨hall, ?_⟩
  have hrewritten := Frame.rewritten_of_passable hd hcodes hr hall
  rw [show rewriteHeaderField (f.message z fds).raw
    (f.message z fds).header.endian code new = _ from hrewritten] at hheld
  refine Frame.headerOf_withFieldsBytes ?_ (hheld _ rfl)
  have hmost := f.array_le
  have hlen := hr.length_le
  obtain ⟨pre, post, rfl, -, -, -, hreplaced⟩ := hr.split hd hcodes
  have hgrow := setFields_length_add f.endian pre post code hlen
  rw [hd.2] at hgrow
  rw [hreplaced]
  omega

end held

/-- The type the format gives the value of a known field. -/
def fieldType (code : UInt8) : Option Ty :=
  if code = 1 then some .objectPath
  else if code = 2 ∨ code = 3 ∨ code = 4 ∨ code = 6 ∨ code = 7 then some .str
  else if code = 5 ∨ code = 9 then some (.fixed .uint32)
  else if code = 8 then some .signature
  else none

/-- Whatever unknown fields a message has, it holds the header its bytes
parse to. -/
def HeadersHeld : Prop :=
  ∀ (z : Zvariant) (msg : Message) (fs : List Field)
    (direction : RewriteDirection) (b : Bus), z.FollowsSpec →
    msg.Accepted z → msg.HasFields fs → (fs.map (·.1)).Nodup →
    (∀ f ∈ fs, ∀ t, fieldType f.1 = some t → f.2.typeOf = t) →
    HeaderHeld z msg direction b

/-- The fields of a signal, an unknown one among them, in front of its
sender. -/
def signalFields (v : Value) : List Field :=
  [(1, .objectPath (utf8 "/")), (2, .str (utf8 "org.a")),
   (3, .str (utf8 "Open")), (10, v), (7, .str (utf8 ":1.5"))]

def unknownSignal (v : Value) : Message :=
  .compose 4 1 (signalFields v) [] []

/-- Behind an unknown field with a `uint64`, the sender stays what it was in
the bytes. -/
theorem sender_left : ¬HeadersHeld := by
  intro h
  have hheld := h .reference (unknownSignal (.fixed .uint64 5))
    (signalFields (.fixed .uint64 5)) .toClient .host
    Zvariant.reference_followsSpec (by decide +kernel)
    ⟨by decide +kernel, by decide +kernel⟩ (by decide) (by decide)
  have hrewritten : rewriteMessageHeader (unknownSignal (.fixed .uint64 5))
      .toClient .host
      = .ok { unknownSignal (.fixed .uint64 5) with
          header := (unknownSignal (.fixed .uint64 5)).header.rename 7
            (utf8 ":h.1.5") } := by
    decide +kernel
  have hsame := hheld _ hrewritten
  revert hsame
  decide +kernel

/-- The header held is the one the bytes parse to, where every field before
the name is passable and the array has room. Where each field before it is
passable or stops the walk, it is so nowhere else. -/
theorem header_held {z : Zvariant} {msg : Message} {fs : List Field}
    {direction : RewriteDirection} {b : Bus} (hz : z.FollowsSpec)
    (hacc : msg.Accepted z) (hfs : msg.HasFields fs)
    (hcodes : (fs.map (·.1)).Nodup) :
    ((∀ code new, msg.renamed direction b = some (code, new) →
        Renamable msg.header.endian code new fs) →
      HeaderHeld z msg direction b)
    ∧ ((∀ code new, msg.renamed direction b = some (code, new) →
        ∀ f ∈ fieldsBefore code fs,
          passable msg.header.endian f.2 = true ∨ stops f.2 = true) →
      HeaderHeld z msg direction b →
      ∀ code new, msg.renamed direction b = some (code, new) →
        Renamable msg.header.endian code new fs) := by
  obtain ⟨f, hf⟩ := hacc.eq_message
  rw [hf] at hfs ⊢
  have hd := Frame.hasFields_message.mp hfs
  refine ⟨header_held_of_renamable hz hd hcodes, ?_⟩
  intro hread hheld code new hren
  exact renamable_of_header_held hz hd hcodes hren (hread code new hren) hheld

/-- A dictionary of strings with variants. -/
def variants : Value :=
  .array (.dictEntry .str .variant)
    [.dictEntry (.str (utf8 "a")) (.variant (.fixed .uint32 1))]

/-- Behind it the sender is found. -/
theorem header_held_variants :
    HeaderHeld .reference (unknownSignal variants) .toClient .host := by
  have hfields : (unknownSignal variants).HasFields (signalFields variants) :=
    ⟨by decide +kernel, by decide +kernel⟩
  refine (header_held Zvariant.reference_followsSpec (by decide +kernel)
    hfields (by decide)).1 ?_
  intro code new hren
  have hname : (unknownSignal variants).renamed .toClient .host
      = some (7, utf8 ":h.1.5") := by
    decide +kernel
  rw [hname] at hren
  cases hren
  exact ⟨by decide +kernel, by decide +kernel⟩

end DbusRouter.Model
