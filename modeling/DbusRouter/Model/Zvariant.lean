/-
The zvariant crate, as far as the router calls it, is a parameter: three
decoders and three encoders, each at a byte order and an offset. What the
router relies on is `FollowsSpec`: a header-field array decodes exactly
when it is the marshalling of valid fields, and encodes to it. There is one
exception. A value of type `h` is an index into the descriptors that come with
the bytes; the router passes none to the crate, and without them it decodes no
array that has such a value in it (`descriptors`, `Takes`).

`reference` is one such crate, built on the wire format's own reader and
writer. It is what the concrete runs are evaluated with.
-/
import DbusRouter.Wire.Decide

namespace DbusRouter.Model

open Wire

/-- The zvariant functions the router calls. -/
structure Zvariant where
  /-- whether values of type `h` are decoded; the crate needs the descriptors
  for it, which it is not given -/
  descriptors : Bool
  /-- `deserialize::<Vec<(u8, Value)>>` -/
  fields : Endian → Nat → Bytes → Option (List Field)
  /-- `deserialize::<Vec<String>>` -/
  strings : Endian → Nat → Bytes → Option (List Text)
  /-- `deserialize::<(String, String, String)>` -/
  triple : Endian → Nat → Bytes → Option (Text × Text × Text)
  /-- `to_bytes` of a `Vec<(u8, Value)>` -/
  encodeFields : Endian → Nat → List Field → Option Bytes
  /-- `to_bytes` of a `Vec<String>` -/
  encodeStrings : Endian → Nat → List Text → Option Bytes
  /-- `to_bytes` of a `(String, String, String)` -/
  encodeTriple : Endian → Nat → Text × Text × Text → Option Bytes

/-- A header-field array with its length, as it stands at offset 12. -/
def fieldArray (e : Endian) (buf : Bytes) : Bytes :=
  e.bytes 4 buf.length ++ buf

/-- The fields have no value of type `h`, or such values are decoded. -/
def Zvariant.Takes (z : Zvariant) (fs : List Field) : Prop :=
  z.descriptors = true ∨ ∀ f ∈ fs, f.2.hasFd = false

instance (z : Zvariant) : DecidablePred z.Takes := fun fs =>
  inferInstanceAs (Decidable (_ ∨ ∀ f ∈ fs, _))

/-- The crate follows the D-Bus specification on header-field arrays. -/
structure Zvariant.FollowsSpec (z : Zvariant) : Prop where
  fields_iff : ∀ (e : Endian) (buf : Bytes) (fs : List Field),
    buf.length ≤ 2 ^ 26 →
      (z.fields e 12 (fieldArray e buf) = some fs
        ↔ (ValidFields e 16 fs ∧ marshalFields e 16 fs = buf) ∧ z.Takes fs)
  encodeFields_eq : ∀ (e : Endian) (fs : List Field),
    ValidFields e 16 fs → (marshalFields e 16 fs).length ≤ 2 ^ 26 →
      z.Takes fs →
      z.encodeFields e 12 fs
        = some (fieldArray e (marshalFields e 16 fs))

/-- A string in the place of a value takes no descriptor. -/
theorem Zvariant.Takes.set {z : Zvariant} {pre post : List Field}
    {code : UInt8} {v : Value} (h : z.Takes (pre ++ (code, v) :: post))
    (new : Text) : z.Takes (pre ++ (code, .str new) :: post) := by
  rcases h with h | h
  · exact Or.inl h
  · right
    simp only [List.forall_mem_append, List.forall_mem_cons] at h ⊢
    exact ⟨h.1, rfl, h.2.2⟩

/-- A list of strings as one value. -/
def namesValue (ss : List Text) : Value :=
  .array .str (ss.map .str)

/-- The crate follows the specification on arrays of strings, where the
array is the whole body. -/
structure Zvariant.StringsFollowSpec (z : Zvariant) : Prop where
  strings_eq : ∀ (e : Endian) (p : Nat) (ss : List Text),
    Valid e ⟨0, 0, 0⟩ p (namesValue ss) →
      z.strings e p (marshal e p (namesValue ss)) = some ss
  encodeStrings_eq : ∀ (e : Endian) (p : Nat) (ss : List Text),
    Valid e ⟨0, 0, 0⟩ p (namesValue ss) →
      z.encodeStrings e p ss = some (marshal e p (namesValue ss))

/-- Three strings as one value. A message whose body is three strings has
the same bytes: the struct starts at a multiple of 8. -/
def tripleValue (t : Text × Text × Text) : Value :=
  .struct [.str t.1, .str t.2.1, .str t.2.2]

/-- Three strings that the format allows. -/
def AreStrs (t : Text × Text × Text) : Prop :=
  IsStr t.1 ∧ IsStr t.2.1 ∧ IsStr t.2.2

instance : DecidablePred AreStrs := fun t =>
  inferInstanceAs (Decidable (IsStr t.1 ∧ IsStr t.2.1 ∧ IsStr t.2.2))

/-- The crate follows the specification on three strings. -/
structure Zvariant.TriplesFollowSpec (z : Zvariant) : Prop where
  triple_eq : ∀ (e : Endian) (p : Nat) (t : Text × Text × Text),
    AreStrs t → z.triple e p (marshal e p (tripleValue t)) = some t
  encodeTriple_eq : ∀ (e : Endian) (p : Nat) (t : Text × Text × Text),
    AreStrs t →
      z.encodeTriple e p t = some (marshal e p (tripleValue t))

namespace Zvariant

-- ============================================================== reference

/-- Reads a string at an offset. -/
def readText (e : Endian) (p : Nat) (bs : Bytes) :
    Option (Text × Nat × Bytes) := do
  let bs ← skipPad 4 p bs
  let (s, bs) ← readStr e bs
  some (s, alignUp 4 p + (s.length + 5), bs)

/-- Reads a header-field array at an offset. -/
def readFieldArray (e : Endian) (p : Nat) (data : Bytes) :
    Option (List Field) := do
  let bs ← skipPad 4 p data
  let (len, bs) ← readN 4 bs
  let bs ← skipPad 8 (alignUp 4 p + 4) bs
  let (body, _) ← if e.nat len ≤ 2 ^ 26 then readN (e.nat len) bs else none
  decodeFields e (alignUp 8 (alignUp 4 p + 4)) body

/-- The wire format's own reader and writer as a crate that is given no
descriptors. -/
def reference : Zvariant where
  descriptors := false
  fields e p data := (readFieldArray e p data).filter fun fs =>
    fs.all fun f => !f.2.hasFd
  strings := readStrings
  triple e p data := do
    let bs ← skipPad 8 p data
    let (a, p, bs) ← readText e (alignUp 8 p) bs
    let (b, p, bs) ← readText e p bs
    let (c, _, _) ← readText e p bs
    some (a, b, c)
  encodeFields e p fs :=
    let body := marshalFields e (alignUp 8 (alignUp 4 p + 4)) fs
    some (pad 4 p ++ (e.bytes 4 body.length
      ++ (pad 8 (alignUp 4 p + 4) ++ body)))
  encodeStrings e p ss := some (marshal e p (.array .str (ss.map .str)))
  encodeTriple e p t :=
    some (marshal e p (.struct [.str t.1, .str t.2.1, .str t.2.2]))

/-- An array that stands at offset 12 needs no padding. -/
theorem readFieldArray_fieldArray (e : Endian) {buf : Bytes}
    (h : buf.length ≤ 2 ^ 26) :
    readFieldArray e 12 (fieldArray e buf) = decodeFields e 16 buf := by
  have hnat : e.nat (e.bytes 4 buf.length) = buf.length := by
    refine e.nat_bytes ?_
    norm_num
    omega
  have hskip : skipPad 4 12 (fieldArray e buf) = some (fieldArray e buf) :=
    skipPad_pad 4 12 (fieldArray e buf)
  have hskip' : skipPad 8 (alignUp 4 12 + 4) buf = some buf :=
    skipPad_pad 8 16 buf
  have hlen : readN 4 (fieldArray e buf)
      = some (e.bytes 4 buf.length, buf) :=
    readN_append (e.bytes_length 4 _)
  have hbody : readN buf.length buf = some (buf, []) := by
    have hn : readN buf.length (buf ++ []) = some (buf, []) :=
      readN_append rfl
    rwa [List.append_nil] at hn
  simp only [readFieldArray, hskip, hlen, hskip', hnat, if_pos h, hbody,
    Option.bind_eq_bind, Option.bind_some]
  rfl

/-- The reference follows the specification on header-field arrays. -/
theorem reference_followsSpec : reference.FollowsSpec where
  fields_iff := by
    intro e buf fs hlen
    show (readFieldArray e 12 (fieldArray e buf)).filter _ = some fs ↔ _
    rw [readFieldArray_fieldArray e hlen, Option.filter_eq_some_iff,
      decodeFields_eq_some]
    simp [Takes, reference]
  encodeFields_eq := by
    intro e fs _ _ _
    rfl

/-- So it does on arrays of strings. -/
theorem reference_stringsFollowSpec : reference.StringsFollowSpec where
  strings_eq := by
    intro e p ss hvalid
    have hread := unmarshalWith_marshal e (namesValue ss) ⟨0, 0, 0⟩ p 64 []
      hvalid (Nat.le_refl 64)
    rw [List.append_nil] at hread
    have hty : (namesValue ss).typeOf = .array .str := by
      unfold namesValue
      rw [Value.typeOf]
    rw [hty] at hread
    show readStrings e p _ = _
    unfold readStrings
    rw [hread]
    show (ss.map Value.str).mapM _ = some ss
    clear hread hty hvalid
    induction ss with
    | nil => rfl
    | cons s ss ih =>
        rw [List.map_cons, List.mapM_cons, ih]
        rfl
  encodeStrings_eq := by
    intro e p ss _
    rfl

/-- A marshalled string is read back, with whatever follows it. -/
theorem readText_marshal (e : Endian) (p : Nat) {s : Text} (h : IsStr s)
    (rest : Bytes) :
    readText e p (marshal e p (.str s) ++ rest)
      = some (s, p + (marshal e p (.str s)).length, rest) := by
  have hup := le_alignUp isAlign_four p
  rw [marshal, List.append_assoc]
  simp only [readText, skipPad_pad, readStr_strBytes e h,
    Option.bind_eq_bind, Option.bind_some, List.length_append, pad_length,
    strBytes_length, Option.some.injEq, Prod.mk.injEq, true_and, and_true]
  omega

/-- So it does on three strings. -/
theorem reference_triplesFollowSpec : reference.TriplesFollowSpec where
  triple_eq := by
    rintro e p ⟨a, b, c⟩ ⟨ha, hb, hc⟩
    unfold tripleValue
    rw [marshal, marshalAll, marshalAll, marshalAll, marshalAll]
    simp only [reference, skipPad_pad, Option.bind_eq_bind, Option.bind_some,
      readText_marshal e _ ha, readText_marshal e _ hb,
      readText_marshal e _ hc]
  encodeTriple_eq := by
    intro e p t _
    rfl

end Zvariant

end DbusRouter.Model
