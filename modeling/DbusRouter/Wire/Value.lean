/-
The D-Bus type system and its wire format: types, signatures, values, and
the marshalling of a value at an offset.

A marshalled value depends on the offset it starts at, through alignment
padding, and only on that offset modulo 8 (`marshal_shift`). That is the
one fact that makes splicing a string inside a header sound: whatever
follows the string moves by a multiple of 8 and keeps its bytes.

`Valid` collects what the format demands of a value: integers in range,
strings that are NUL-free UTF-8, signatures of at most 255 bytes, arrays
whose elements all have the element type and whose contents take at most
64 MiB, dict entries only inside arrays, and bounded nesting. `Fields` at
the end is the shape of a message header, an array of structs of a byte
and a variant.
-/
import DbusRouter.Wire.Text

namespace DbusRouter.Wire

-- ================================================================== types

/-- The basic types of fixed width. -/
inductive Fixed where
  | byte
  | boolean
  | int16
  | uint16
  | int32
  | uint32
  | unixFd
  | int64
  | uint64
  | double
  deriving DecidableEq, Repr

/-- Width in bytes, which is also the alignment. -/
def Fixed.size : Fixed → Nat
  | .byte => 1
  | .int16 | .uint16 => 2
  | .boolean | .int32 | .uint32 | .unixFd => 4
  | .int64 | .uint64 | .double => 8

/-- The type's letter in a signature. -/
def Fixed.code : Fixed → UInt8
  | .byte => 'y'.toUInt8
  | .boolean => 'b'.toUInt8
  | .int16 => 'n'.toUInt8
  | .uint16 => 'q'.toUInt8
  | .int32 => 'i'.toUInt8
  | .uint32 => 'u'.toUInt8
  | .unixFd => 'h'.toUInt8
  | .int64 => 'x'.toUInt8
  | .uint64 => 't'.toUInt8
  | .double => 'd'.toUInt8

/-- A single complete type. -/
inductive Ty where
  | fixed (k : Fixed)
  | str
  | objectPath
  | signature
  | variant
  | array (elem : Ty)
  | struct (fields : List Ty)
  | dictEntry (key val : Ty)
  deriving Repr

/-- Alignment of a type's values. -/
def Ty.align : Ty → Nat
  | .fixed k => k.size
  | .str | .objectPath | .array _ => 4
  | .signature | .variant => 1
  | .struct _ | .dictEntry _ _ => 8

mutual

/-- The signature of a type. -/
def Ty.render : Ty → Bytes
  | .fixed k => [k.code]
  | .str => ['s'.toUInt8]
  | .objectPath => ['o'.toUInt8]
  | .signature => ['g'.toUInt8]
  | .variant => ['v'.toUInt8]
  | .array t => 'a'.toUInt8 :: t.render
  | .struct ts => '('.toUInt8 :: (Ty.renderAll ts ++ [')'.toUInt8])
  | .dictEntry k v =>
      '{'.toUInt8 :: (k.render ++ (v.render ++ ['}'.toUInt8]))

/-- The concatenated signatures of a list of types. -/
def Ty.renderAll : List Ty → Bytes
  | [] => []
  | t :: ts => t.render ++ Ty.renderAll ts

end

/-- A basic type, allowed as the key of a dict entry. -/
def Ty.IsBasic : Ty → Prop
  | .fixed _ | .str | .objectPath | .signature => True
  | _ => False

/-- Open containers: arrays, structs, and all of them with variants. -/
structure Nest where
  arrays : Nat
  structs : Nat
  containers : Nat
  deriving DecidableEq, Repr

def Nest.inArray (n : Nest) : Nest :=
  ⟨n.arrays + 1, n.structs, n.containers + 1⟩

def Nest.inStruct (n : Nest) : Nest :=
  ⟨n.arrays, n.structs + 1, n.containers + 1⟩

def Nest.inVariant (n : Nest) : Nest :=
  ⟨n.arrays, n.structs, n.containers + 1⟩

/-- At most 32 arrays, 32 structs and 64 containers deep. -/
def Nest.Ok (n : Nest) : Prop :=
  n.arrays ≤ 32 ∧ n.structs ≤ 32 ∧ n.containers ≤ 64

mutual

/-- A well-formed type: structs have fields, dict entries stand only as
array elements (`elem`) and have basic keys. -/
def Ty.WF (elem : Bool) : Ty → Prop
  | .array t => t.WF true
  | .struct ts => ts ≠ [] ∧ Ty.AllWF ts
  | .dictEntry k v => elem = true ∧ k.IsBasic ∧ v.WF false
  | _ => True

def Ty.AllWF : List Ty → Prop
  | [] => True
  | t :: ts => t.WF false ∧ Ty.AllWF ts

end

-- ================================================================= values

/-- A value. A fixed-width value is the number its bytes denote; a
signature value is the list of types it spells. -/
inductive Value where
  | fixed (k : Fixed) (n : Nat)
  | str (s : Text)
  | objectPath (s : Text)
  | signature (ts : List Ty)
  | variant (v : Value)
  | array (elem : Ty) (vs : List Value)
  | struct (vs : List Value)
  | dictEntry (key val : Value)
  deriving Repr

mutual

/-- The type of a value. -/
def Value.typeOf : Value → Ty
  | .fixed k _ => .fixed k
  | .str _ => .str
  | .objectPath _ => .objectPath
  | .signature _ => .signature
  | .variant _ => .variant
  | .array t _ => .array t
  | .struct vs => .struct (Value.typesOf vs)
  | .dictEntry k v => .dictEntry k.typeOf v.typeOf

def Value.typesOf : List Value → List Ty
  | [] => []
  | v :: vs => v.typeOf :: Value.typesOf vs

end

mutual

/-- A file descriptor is in the value. -/
def Value.hasFd : Value → Bool
  | .fixed k _ => k == .unixFd
  | .str _ => false
  | .objectPath _ => false
  | .signature _ => false
  | .variant v => v.hasFd
  | .array _ vs => Value.anyFd vs
  | .struct vs => Value.anyFd vs
  | .dictEntry k v => k.hasFd || v.hasFd

def Value.anyFd : List Value → Bool
  | [] => false
  | v :: vs => v.hasFd || Value.anyFd vs

end

/-- The bytes of a signature: length, letters, NUL. -/
def sigBytes (sig : Bytes) : Bytes :=
  UInt8.ofNat sig.length :: (sig ++ [0])

/-- The bytes of a string: length, text, NUL. -/
def strBytes (e : Endian) (s : Text) : Bytes :=
  e.bytes 4 s.length ++ (s ++ [0])

/-- A signature has a length byte and a NUL around its text. -/
@[simp] theorem sigBytes_length (sig : Bytes) :
    (sigBytes sig).length = sig.length + 2 := by
  simp [sigBytes]

/-- A string has four length bytes and a NUL around its text. -/
@[simp] theorem strBytes_length (e : Endian) (s : Text) :
    (strBytes e s).length = s.length + 5 := by
  simp [strBytes]
  omega

mutual

/-- The bytes of a value that starts at offset `p`, leading padding
included. -/
def marshal (e : Endian) : Nat → Value → Bytes
  | p, .fixed k n => pad k.size p ++ e.bytes k.size n
  | p, .str s => pad 4 p ++ strBytes e s
  | p, .objectPath s => pad 4 p ++ strBytes e s
  | _, .signature ts => sigBytes (Ty.renderAll ts)
  | p, .variant v =>
      sigBytes v.typeOf.render
        ++ marshal e (p + (v.typeOf.render.length + 2)) v
  | p, .array t vs =>
      let body := marshalAll e (alignUp t.align (alignUp 4 p + 4)) vs
      pad 4 p ++ (e.bytes 4 body.length
        ++ (pad t.align (alignUp 4 p + 4) ++ body))
  | p, .struct vs => pad 8 p ++ marshalAll e (alignUp 8 p) vs
  | p, .dictEntry k v =>
      let key := marshal e (alignUp 8 p) k
      pad 8 p ++ (key ++ marshal e (alignUp 8 p + key.length) v)

/-- Values one after the other. -/
def marshalAll (e : Endian) : Nat → List Value → Bytes
  | _, [] => []
  | p, v :: vs =>
      let b := marshal e p v
      b ++ marshalAll e (p + b.length) vs

end

/-- The size of a fixed type is its alignment. -/
theorem Fixed.isAlign (k : Fixed) : IsAlign k.size := by
  cases k <;> simp [IsAlign, Fixed.size]

theorem isAlign_one : IsAlign 1 := Or.inl rfl

theorem isAlign_four : IsAlign 4 := Or.inr (Or.inr (Or.inl rfl))

theorem isAlign_eight : IsAlign 8 := Or.inr (Or.inr (Or.inr rfl))

/-- Every type has one of the alignments of the format. -/
theorem Ty.isAlign (t : Ty) : IsAlign t.align := by
  cases t with
  | fixed k => exact k.isAlign
  | str => exact isAlign_four
  | objectPath => exact isAlign_four
  | array t => exact isAlign_four
  | signature => exact isAlign_one
  | variant => exact isAlign_one
  | struct ts => exact isAlign_eight
  | dictEntry k v => exact isAlign_eight

mutual

/-- Moving a value by a multiple of 8 keeps its bytes. -/
theorem marshal_shift (e : Endian) (c : Nat) :
    ∀ (v : Value) (p : Nat), marshal e (p + 8 * c) v = marshal e p v
  | .fixed k n, p => by
      rw [marshal, marshal, pad_add_mul k.isAlign]
  | .str s, p => by
      rw [marshal, marshal, pad_add_mul isAlign_four]
  | .objectPath s, p => by
      rw [marshal, marshal, pad_add_mul isAlign_four]
  | .signature ts, p => by
      rw [marshal, marshal]
  | .variant v, p => by
      rw [marshal, marshal, Nat.add_right_comm,
        marshal_shift e c v]
  | .array t vs, p => by
      have hpos : alignUp 4 (p + 8 * c) + 4
          = (alignUp 4 p + 4) + 8 * c := by
        rw [alignUp_add_mul isAlign_four]
        omega
      simp only [marshal]
      rw [hpos, alignUp_add_mul t.isAlign, pad_add_mul t.isAlign,
        pad_add_mul isAlign_four, marshalAll_shift e c vs]
  | .struct vs, p => by
      rw [marshal, marshal, pad_add_mul isAlign_eight,
        alignUp_add_mul isAlign_eight, marshalAll_shift e c vs]
  | .dictEntry k v, p => by
      simp only [marshal]
      rw [pad_add_mul isAlign_eight, alignUp_add_mul isAlign_eight,
        marshal_shift e c k, Nat.add_right_comm, marshal_shift e c v]

theorem marshalAll_shift (e : Endian) (c : Nat) :
    ∀ (vs : List Value) (p : Nat),
      marshalAll e (p + 8 * c) vs = marshalAll e p vs
  | [], p => by
      rw [marshalAll, marshalAll]
  | v :: vs, p => by
      simp only [marshalAll]
      rw [marshal_shift e c v, Nat.add_right_comm, marshalAll_shift e c vs]

end

-- =============================================================== validity

/-- NUL-free UTF-8 whose length fits the length prefix. -/
def IsStr (s : Text) : Prop :=
  utf8Valid s = true ∧ (0 : UInt8) ∉ s ∧ s.length < 2 ^ 32

/-- `[A-Za-z0-9_]`. -/
def isPathChar (b : UInt8) : Bool :=
  ('A'.toUInt8 ≤ b && b ≤ 'Z'.toUInt8) || ('a'.toUInt8 ≤ b && b ≤ 'z'.toUInt8)
    || ('0'.toUInt8 ≤ b && b ≤ '9'.toUInt8) || b == '_'.toUInt8

/-- `/`, or slash-separated nonempty elements after a leading slash. -/
def isObjectPath : Text → Bool
  | [] => false
  | b :: s =>
      b == '/'.toUInt8 && (s.isEmpty ||
        (splitOn '/'.toUInt8 s).all fun part =>
          !part.isEmpty && part.all isPathChar)

mutual

/-- A value the format allows at offset `p` under `n` open containers. -/
def Valid (e : Endian) : Nest → Nat → Value → Prop
  | _, _, .fixed k n => n < 256 ^ k.size ∧ (k = .boolean → n ≤ 1)
  | _, _, .str s => IsStr s
  | _, _, .objectPath s => IsStr s ∧ isObjectPath s = true
  | _, _, .signature ts => Ty.AllWF ts ∧ (Ty.renderAll ts).length ≤ 255
  | n, p, .variant v =>
      n.inVariant.Ok ∧ v.typeOf.WF false ∧ v.typeOf.render.length ≤ 255
        ∧ Valid e n.inVariant (p + (v.typeOf.render.length + 2)) v
  | n, p, .array t vs =>
      n.inArray.Ok ∧ t.WF true ∧ (∀ v ∈ vs, v.typeOf = t)
        ∧ (marshalAll e (alignUp t.align (alignUp 4 p + 4)) vs).length
            ≤ 2 ^ 26
        ∧ ValidAll e n.inArray (alignUp t.align (alignUp 4 p + 4)) vs
  | n, p, .struct vs =>
      n.inStruct.Ok ∧ vs ≠ [] ∧ ValidAll e n.inStruct (alignUp 8 p) vs
  | n, p, .dictEntry k v =>
      n.inStruct.Ok ∧ k.typeOf.IsBasic
        ∧ Valid e n.inStruct (alignUp 8 p) k
        ∧ Valid e n.inStruct
            (alignUp 8 p + (marshal e (alignUp 8 p) k).length) v

def ValidAll (e : Endian) : Nest → Nat → List Value → Prop
  | _, _, [] => True
  | n, p, v :: vs =>
      Valid e n p v ∧ ValidAll e n (p + (marshal e p v).length) vs

end

mutual

/-- Validity, like the bytes, only depends on the offset modulo 8. -/
theorem valid_shift (e : Endian) (c : Nat) :
    ∀ (v : Value) (n : Nest) (p : Nat),
      Valid e n (p + 8 * c) v ↔ Valid e n p v
  | .fixed k m, n, p => by
      rw [Valid, Valid]
  | .str s, n, p => by
      rw [Valid, Valid]
  | .objectPath s, n, p => by
      rw [Valid, Valid]
  | .signature ts, n, p => by
      rw [Valid, Valid]
  | .variant v, n, p => by
      rw [Valid, Valid, Nat.add_right_comm, valid_shift e c v]
  | .array t vs, n, p => by
      have hpos : alignUp 4 (p + 8 * c) + 4
          = (alignUp 4 p + 4) + 8 * c := by
        rw [alignUp_add_mul isAlign_four]
        omega
      rw [Valid, Valid, hpos, alignUp_add_mul t.isAlign,
        marshalAll_shift e c vs, validAll_shift e c vs]
  | .struct vs, n, p => by
      rw [Valid, Valid, alignUp_add_mul isAlign_eight,
        validAll_shift e c vs]
  | .dictEntry k v, n, p => by
      rw [Valid, Valid, alignUp_add_mul isAlign_eight, valid_shift e c k,
        marshal_shift e c k, Nat.add_right_comm, valid_shift e c v]

theorem validAll_shift (e : Endian) (c : Nat) :
    ∀ (vs : List Value) (n : Nest) (p : Nat),
      ValidAll e n (p + 8 * c) vs ↔ ValidAll e n p vs
  | [], n, p => by
      rw [ValidAll, ValidAll]
  | v :: vs, n, p => by
      rw [ValidAll, ValidAll, valid_shift e c v, marshal_shift e c v,
        Nat.add_right_comm, validAll_shift e c vs]

end

-- ================================================================= fields

/-- A header field: its code and its value. -/
abbrev Field := UInt8 × Value

/-- The bytes of one header field at offset `p`: a struct of the code and
a variant. -/
def marshalField (e : Endian) (p : Nat) (f : Field) : Bytes :=
  pad 8 p ++ (f.1 :: (sigBytes f.2.typeOf.render
    ++ marshal e (alignUp 8 p + (f.2.typeOf.render.length + 3)) f.2))

/-- The bytes of a header-field array's contents from offset `p`. -/
def marshalFields (e : Endian) : Nat → List Field → Bytes
  | _, [] => []
  | p, f :: fs =>
      marshalField e p f
        ++ marshalFields e (p + (marshalField e p f).length) fs

/-- The nesting inside a header field's variant. -/
def fieldNest : Nest := ⟨1, 1, 3⟩

/-- A header field the format allows at offset `p`. -/
def ValidField (e : Endian) (p : Nat) (f : Field) : Prop :=
  f.2.typeOf.WF false ∧ f.2.typeOf.render.length ≤ 255
    ∧ Valid e fieldNest (alignUp 8 p + (f.2.typeOf.render.length + 3)) f.2

/-- Header fields the format allows from offset `p`. -/
def ValidFields (e : Endian) : Nat → List Field → Prop
  | _, [] => True
  | p, f :: fs =>
      ValidField e p f
        ∧ ValidFields e (p + (marshalField e p f).length) fs

/-- A field is marshalled alike at offsets that differ by a multiple of 8. -/
theorem marshalField_shift (e : Endian) (c p : Nat) (f : Field) :
    marshalField e (p + 8 * c) f = marshalField e p f := by
  unfold marshalField
  rw [pad_add_mul isAlign_eight, alignUp_add_mul isAlign_eight,
    Nat.add_right_comm, marshal_shift]

/-- Whether a field is allowed does not change in steps of eight bytes. -/
theorem validField_shift (e : Endian) (c p : Nat) (f : Field) :
    ValidField e (p + 8 * c) f ↔ ValidField e p f := by
  unfold ValidField
  rw [alignUp_add_mul isAlign_eight, Nat.add_right_comm, valid_shift]

/-- A field's bytes after its padding are those at the aligned offset. -/
theorem marshalField_align (e : Endian) (p : Nat) (f : Field) :
    marshalField e p f = pad 8 p ++ marshalField e (alignUp 8 p) f := by
  have hmod := alignUp_mod isAlign_eight p
  have hself := alignUp_eq_self isAlign_eight hmod
  unfold marshalField
  rw [pad_eq_nil isAlign_eight hmod, hself, List.nil_append]

/-- A field begins behind the padding to 8. -/
theorem validField_align (e : Endian) (p : Nat) (f : Field) :
    ValidField e p f ↔ ValidField e (alignUp 8 p) f := by
  unfold ValidField
  rw [alignUp_eq_self isAlign_eight (alignUp_mod isAlign_eight p)]

/-- Fields are marshalled one behind the other. -/
theorem marshalFields_append (e : Endian) (fs gs : List Field) (p : Nat) :
    marshalFields e p (fs ++ gs)
      = marshalFields e p fs
        ++ marshalFields e (p + (marshalFields e p fs).length) gs := by
  induction fs generalizing p with
  | nil => simp [marshalFields]
  | cons f fs ih =>
      simp only [List.cons_append, marshalFields, List.append_assoc,
        List.length_append]
      rw [ih, Nat.add_assoc]

/-- Fields are allowed when both parts are, each at its offset. -/
theorem validFields_append (e : Endian) (fs gs : List Field) (p : Nat) :
    ValidFields e p (fs ++ gs)
      ↔ ValidFields e p fs
        ∧ ValidFields e (p + (marshalFields e p fs).length) gs := by
  induction fs generalizing p with
  | nil => simp [ValidFields, marshalFields]
  | cons f fs ih =>
      simp only [List.cons_append, ValidFields, marshalFields,
        List.length_append]
      rw [ih, and_assoc, Nat.add_assoc]

/-- Fields are marshalled alike at offsets that differ by a multiple of 8. -/
theorem marshalFields_shift (e : Endian) (c : Nat) (fs : List Field)
    (p : Nat) :
    marshalFields e (p + 8 * c) fs = marshalFields e p fs := by
  induction fs generalizing p with
  | nil => rfl
  | cons f fs ih =>
      rw [marshalFields, marshalFields, marshalField_shift,
        Nat.add_right_comm, ih]

/-- Whether an array of fields is allowed does not change either. -/
theorem validFields_shift (e : Endian) (c : Nat) (fs : List Field)
    (p : Nat) : ValidFields e (p + 8 * c) fs ↔ ValidFields e p fs := by
  induction fs generalizing p with
  | nil => rfl
  | cons f fs ih =>
      rw [ValidFields, ValidFields, validField_shift, marshalField_shift,
        Nat.add_right_comm, ih]

/-- The fields after an unaligned offset: padding, then the fields at the
aligned offset. Only a nonempty rest is padded. -/
theorem marshalFields_align (e : Endian) (p : Nat) (f : Field)
    (fs : List Field) :
    marshalFields e p (f :: fs)
      = pad 8 p ++ marshalFields e (alignUp 8 p) (f :: fs) := by
  have hle := le_alignUp isAlign_eight p
  have hlen : p + (marshalField e p f).length
      = alignUp 8 p + (marshalField e (alignUp 8 p) f).length := by
    rw [marshalField_align, List.length_append, pad_length]
    omega
  rw [marshalFields, marshalFields, hlen]
  nth_rewrite 1 [marshalField_align]
  rw [List.append_assoc]

/-- The first field begins behind the padding to 8. -/
theorem validFields_align (e : Endian) (p : Nat) (f : Field)
    (fs : List Field) :
    ValidFields e p (f :: fs)
      ↔ ValidFields e (alignUp 8 p) (f :: fs) := by
  have hle := le_alignUp isAlign_eight p
  have hlen : p + (marshalField e p f).length
      = alignUp 8 p + (marshalField e (alignUp 8 p) f).length := by
    rw [marshalField_align, List.length_append, pad_length]
    omega
  rw [ValidFields, ValidFields, hlen, ← validField_align]

end DbusRouter.Wire
