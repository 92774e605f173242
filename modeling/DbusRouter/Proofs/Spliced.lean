/-
The splice on messages of known fields.

Every known field has a value that the walk gets past, so the walk reaches
SENDER and DESTINATION wherever they stand, and the spliced bytes are those
of the message with the one string replaced
(`rewriteHeaderField_messageBytes`). All the rest is read off the layout of
that message: its array decodes to its fields, its body stands at a multiple
of eight, and its length is the one the stored lengths add up to
(`splice_changes_one_field`).

The lengths here are bounded by what a `u32` holds and not by the limit of
the decoder. Where the decoder takes the prologue, it finds the same lengths
in it.
-/
import DbusRouter.Proofs.Renamed

namespace DbusRouter.Model

open Wire Lib

-- =============================================================== known fields

/-- Header fields as the specification has them: each code at most once,
with a value of its type. -/
structure KnownFields (e : Endian) (fs : List Field) : Prop where
  valid : ValidFields e 16 fs
  once : (fs.map (·.1)).Nodup
  typed : ∀ f ∈ fs, fieldType f.1 = some f.2.typeOf

/-- A message with given header fields and zero padding. -/
def messageBytes (e : Endian) (ty flags : UInt8) (serial : Nat)
    (fs : List Field) (body : Bytes) : Bytes :=
  layout e (fixedHeader e ty flags body.length serial)
    (marshalFields e 16 fs)
    (zeros (padTo8 (16 + (marshalFields e 16 fs).length))) body

/-- The walk gets past every value of a known field. -/
theorem skippable_of_fieldType {code : UInt8} {v : Value}
    (h : fieldType code = some v.typeOf) : skippable v = true := by
  unfold fieldType at h
  cases v with
  | str | objectPath | signature => rfl
  | fixed k n =>
      rw [Value.typeOf] at h
      split_ifs at h <;> cases h
      rfl
  | variant | array | struct | dictEntry =>
      rw [Value.typeOf] at h
      split_ifs at h <;> cases h

section fields

variable {e : Endian} {fs : List Field} {code : UInt8} {old new : Text}

/-- Fields with a replaced name are known fields, and replacing it back
restores them. -/
theorem KnownFields.replaced (h : KnownFields e fs)
    (hmem : (code, .str old) ∈ fs) (hnew : IsStr new) :
    KnownFields e (replaced code new fs)
      ∧ (code, .str new) ∈ replaced code new fs
      ∧ Model.replaced code old (Model.replaced code new fs) = fs := by
  obtain ⟨pre, post, rfl, hpre, hpost⟩ := exists_split h.once hmem
  rw [replaced_append new hpre hpost, replaced_append old hpre hpost]
  refine ⟨⟨validFields_set h.valid hnew, ?_, ?_⟩, by simp, rfl⟩
  · have honce := h.once
    simp only [List.map_append, List.map_cons] at honce ⊢
    exact honce
  · intro f hf
    rw [List.mem_append, List.mem_cons] at hf
    rcases hf with hf | rfl | hf
    · exact h.typed f (by simp [hf])
    · exact h.typed (code, .str old) (by simp)
    · exact h.typed f (by simp [hf])

variable {ty flags : UInt8} {serial : Nat} {body : Bytes}

/-- A string of a known field is replaced, and the bytes are those of the
message with it. -/
theorem rewriteHeaderField_messageBytes (h : KnownFields e fs)
    (hmem : (code, .str old) ∈ fs) (hbody : body.length < 2 ^ 32)
    (hlen : (marshalFields e 16 fs).length < 2 ^ 32)
    (hnew : (marshalFields e 16 (replaced code new fs)).length < 2 ^ 32) :
    rewriteHeaderField (messageBytes e ty flags serial fs body) e code new
      = .ok (messageBytes e ty flags serial (replaced code new fs) body) := by
  have hfixed := fixedHeader_length e ty flags body.length serial
  have hpad := padTo8_le (16 + (marshalFields e 16 fs).length)
  have hraw : (messageBytes e ty flags serial fs body).length < 2 ^ 62 := by
    unfold messageBytes
    rw [layout_length e _ _ _ hfixed, zeros_length]
    omega
  obtain ⟨pre, post, hfs, hpre, hpost⟩ := exists_split h.once hmem
  have hpass : ∀ g ∈ pre, g.1 ≠ code ∧ passable e g.2 = true := by
    intro g hg
    exact ⟨hpre g hg, passable_of_skippable
      (skippable_of_fieldType (h.typed g (by simp [hfs, hg])))⟩
  have hfind := findHeaderField_found e hfixed hfs h.valid hpass rfl hraw
  have hstr := isStr_of_mem h.valid hmem
  have hreplaced := replaced_append (v := .str old) new hpre hpost
  unfold messageBytes
  subst hfs
  rw [hreplaced] at hnew ⊢
  exact rewriteHeaderField_some e hfixed hstr.2.2 (zeros_length _) hlen hnew
    hfind

end fields

-- ================================================================= the layout

/-- What is read off the bytes of a message with given fields and body. -/
structure ReadsAs (e : Endian) (raw : Bytes) (fs : List Field)
    (body : Bytes) : Prop where
  stored : readU32At e raw 12 = .ok (marshalFields e 16 fs).length
  decodes : decodeFields e 16
      ((raw.drop 16).take (marshalFields e 16 fs).length) = some fs
  bodyAt : ∃ start, bodyStartOf e raw = .ok start ∧ 8 ∣ start
    ∧ raw.drop start = body
  total : ∀ p : Prologue, readU32At e raw 4 = .ok p.bodyLen →
    readU32At e raw 12 = .ok p.arrayLen → p.totalLen = raw.length
  parsed : ∀ p, Prologue.parse (raw.take minHeaderSize) = .ok p →
    p.totalLen = raw.length
  accepted : (marshalFields e 16 fs).length ≤ 2 ^ 26 →
    body.length ≤ 2 ^ 26 →
    ∃ p, Prologue.parse (raw.take minHeaderSize) = .ok p

section layout

variable {e : Endian} {ty flags : UInt8} {serial : Nat} {fs : List Field}
  {body : Bytes}

/-- A written message reads as what it was written from. -/
theorem readsAs_messageBytes (hv : ValidFields e 16 fs)
    (hserial : serial < 2 ^ 32) (hbody : body.length < 2 ^ 32)
    (hlen : (marshalFields e 16 fs).length < 2 ^ 32) :
    ReadsAs e (messageBytes e ty flags serial fs body) fs body := by
  have hfixed := fixedHeader_length e ty flags body.length serial
  have hstored : readU32At e (messageBytes e ty flags serial fs body) 12
      = .ok (marshalFields e 16 fs).length :=
    readU32At_of_at (layout_at_arrayLen e _ _ _ hfixed) hlen
  have hbodyLen : readU32At e (messageBytes e ty flags serial fs body) 4
      = .ok body.length := by
    refine readU32At_of_at ⟨[marker e, ty, flags, 1], ?_, ?_, rfl⟩ hbody
    · exact e.bytes 4 serial ++ (e.bytes 4 (marshalFields e 16 fs).length
        ++ (marshalFields e 16 fs
        ++ (zeros (padTo8 (16 + (marshalFields e 16 fs).length)) ++ body)))
    · simp [messageBytes, layout, fixedHeader]
  have htotal : ∀ p : Prologue, p.bodyLen = body.length →
      p.arrayLen = (marshalFields e 16 fs).length →
      p.totalLen = (messageBytes e ty flags serial fs body).length := by
    intro p hb ha
    unfold messageBytes
    rw [layout_length e _ _ _ hfixed, zeros_length]
    unfold Prologue.totalLen Prologue.padding Prologue.headerEnd padTo8
      minHeaderSize
    rw [hb, ha]
  refine ⟨hstored, ?_, ?_, ?_, ?_, ?_⟩
  · have harray := (layout_at_array e (marshalFields e 16 fs)
      (zeros (padTo8 (16 + (marshalFields e 16 fs).length))) body
      hfixed).take_drop
    unfold messageBytes
    rw [harray]
    exact decodeFields_eq_some.mpr ⟨hv, rfl⟩
  · refine ⟨_, bodyStartOf_layout e hfixed hlen, ?_, ?_⟩
    · rw [add_padTo8]
      exact Nat.dvd_of_mod_eq_zero (alignUp_mod isAlign_eight _)
    · have hdrop := layout_drop_body e (marshalFields e 16 fs)
        (zeros (padTo8 (16 + (marshalFields e 16 fs).length))) body hfixed
      rw [zeros_length] at hdrop
      exact hdrop
  · intro p hb ha
    rw [hbodyLen] at hb
    rw [hstored] at ha
    exact htotal p (Outcome.ok.inj hb).symm (Outcome.ok.inj ha).symm
  · intro p hp
    exact htotal p (bodyLen_of_parse hbody hp).1
      (parse_layout_eq_ok hlen hp).2.2.1
  · intro ha hb
    exact ⟨_, (Frame.mk e ty flags serial (marshalFields e 16 fs)
      (zeros (padTo8 (16 + (marshalFields e 16 fs).length))) body hserial ha
      hb (zeros_length _)).parse_bytes⟩

end layout

-- ================================================================= the splice

/-- The header splice changes one field and nothing else. In a message of
known fields, in any order, the value of SENDER, of DESTINATION or of any
other string field is replaced: the first 12 bytes and the body stay, the
fields decode to the same ones with the one string replaced, every length
fits, and putting the old string back gives the old bytes. -/
theorem splice_changes_one_field {e : Endian} {ty flags : UInt8}
    {serial : Nat} {fs : List Field} {body : Bytes} {code : UInt8}
    {old new : Text} (hserial : serial < 2 ^ 32)
    (hbody : body.length < 2 ^ 32) (hfields : KnownFields e fs)
    (hlen : (marshalFields e 16 fs).length < 2 ^ 32)
    (hmem : (code, .str old) ∈ fs) (hnew : IsStr new)
    (hroom : (marshalFields e 16 (replaced code new fs)).length < 2 ^ 32) :
    ∃ out, rewriteHeaderField (messageBytes e ty flags serial fs body) e code
        new = .ok out
      ∧ out.take 12 = (messageBytes e ty flags serial fs body).take 12
      ∧ ReadsAs e out (replaced code new fs) body
      ∧ rewriteHeaderField out e code old
        = .ok (messageBytes e ty flags serial fs body) := by
  obtain ⟨hfields', hmem', hback⟩ := hfields.replaced hmem hnew
  have hfixed := fixedHeader_length e ty flags body.length serial
  refine ⟨_, rewriteHeaderField_messageBytes hfields hmem hbody hlen hroom,
    ?_, readsAs_messageBytes hfields'.valid hserial hbody hroom, ?_⟩
  · unfold messageBytes layout
    rw [List.take_left' hfixed, List.take_left' hfixed]
  · have hrewrite : rewriteHeaderField
        (messageBytes e ty flags serial (replaced code new fs) body) e code
        old = .ok (messageBytes e ty flags serial
          (replaced code old (replaced code new fs)) body) :=
      rewriteHeaderField_messageBytes hfields' hmem' hbody hroom
        (by rw [hback]; exact hlen)
    rw [hback] at hrewrite
    exact hrewrite

/-- A signal with its sender between other fields. -/
def inTheMiddle : List Field :=
  [(3, .str (utf8 "Open")), (7, .str (utf8 ":1.5")),
   (1, .objectPath (utf8 "/")), (8, .signature [.fixed .uint32]),
   (2, .str (utf8 "org.a"))]

theorem splice_in_the_middle :
    ∃ out, rewriteHeaderField (messageBytes .big 4 0 1 inTheMiddle
        [0, 0, 0, 7]) .big 7 (utf8 ":h.1.5") = .ok out
      ∧ out.take 12
        = (messageBytes .big 4 0 1 inTheMiddle [0, 0, 0, 7]).take 12
      ∧ ReadsAs .big out (replaced 7 (utf8 ":h.1.5") inTheMiddle)
        [0, 0, 0, 7]
      ∧ rewriteHeaderField out .big 7 (utf8 ":1.5")
        = .ok (messageBytes .big 4 0 1 inTheMiddle [0, 0, 0, 7]) :=
  splice_changes_one_field (by decide) (by decide)
    ⟨by decide +kernel, by decide, by decide +kernel⟩ (by decide +kernel)
    (by simp [inTheMiddle]) (by decide) (by decide +kernel)

end DbusRouter.Model
