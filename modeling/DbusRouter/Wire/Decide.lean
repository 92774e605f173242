/-
What the format demands can be checked: equality of types, well-formedness
and validity are decidable, and `decodeFields` is the decoder of a
header-field array that accepts exactly the valid ones
(`decodeFields_eq_some`).

The decoder reads, checks what it read, and writes it back to compare, so
that padding and every other redundant byte is checked by the writer's own
definition.
-/
import DbusRouter.Wire.Unmarshal

namespace DbusRouter.Wire

-- ================================================================== types

mutual

/-- Equality of types. -/
def Ty.beq : Ty → Ty → Bool
  | .fixed k, .fixed l => k == l
  | .str, .str => true
  | .objectPath, .objectPath => true
  | .signature, .signature => true
  | .variant, .variant => true
  | .array t, .array u => t.beq u
  | .struct ts, .struct us => Ty.beqAll ts us
  | .dictEntry k v, .dictEntry l w => k.beq l && v.beq w
  | _, _ => false

def Ty.beqAll : List Ty → List Ty → Bool
  | [], [] => true
  | t :: ts, u :: us => t.beq u && Ty.beqAll ts us
  | _, _ => false

end

mutual

/-- The check of equal types is right, type by type. -/
theorem Ty.beq_iff : ∀ t u : Ty, t.beq u = true ↔ t = u
  | .fixed k, u => by cases u <;> simp [Ty.beq]
  | .str, u => by cases u <;> simp [Ty.beq]
  | .objectPath, u => by cases u <;> simp [Ty.beq]
  | .signature, u => by cases u <;> simp [Ty.beq]
  | .variant, u => by cases u <;> simp [Ty.beq]
  | .array t, u => by cases u <;> simp [Ty.beq, Ty.beq_iff t]
  | .struct ts, u => by cases u <;> simp [Ty.beq, Ty.beqAll_iff ts]
  | .dictEntry k v, u => by
      cases u <;> simp [Ty.beq, Ty.beq_iff k, Ty.beq_iff v]

/-- So it is on lists of types. -/
theorem Ty.beqAll_iff : ∀ ts us : List Ty, Ty.beqAll ts us = true ↔ ts = us
  | [], us => by cases us <;> simp [Ty.beqAll]
  | t :: ts, us => by
      cases us <;> simp [Ty.beqAll, Ty.beq_iff t, Ty.beqAll_iff ts]

end

instance : DecidableEq Ty := fun t u => decidable_of_iff _ (Ty.beq_iff t u)

instance : DecidablePred Ty.IsBasic
  | .fixed _ | .str | .objectPath | .signature => isTrue trivial
  | .variant | .array _ | .struct _ | .dictEntry _ _ => isFalse id

mutual

/-- Well-formedness of a type is decidable. -/
def Ty.decWF : ∀ (t : Ty) (elem : Bool), Decidable (t.WF elem)
  | .array t, _ =>
      haveI := Ty.decWF t true
      decidable_of_iff (t.WF true) (by rw [Ty.WF])
  | .struct ts, _ =>
      haveI := Ty.decAllWF ts
      decidable_of_iff (ts ≠ [] ∧ Ty.AllWF ts) (by rw [Ty.WF])
  | .dictEntry k v, elem =>
      haveI := Ty.decWF v false
      decidable_of_iff (elem = true ∧ k.IsBasic ∧ v.WF false)
        (by rw [Ty.WF])
  | .fixed _, _ => isTrue (by simp [Ty.WF])
  | .str, _ => isTrue (by simp [Ty.WF])
  | .objectPath, _ => isTrue (by simp [Ty.WF])
  | .signature, _ => isTrue (by simp [Ty.WF])
  | .variant, _ => isTrue (by simp [Ty.WF])

def Ty.decAllWF : ∀ ts : List Ty, Decidable (Ty.AllWF ts)
  | [] => isTrue (by simp [Ty.AllWF])
  | t :: ts =>
      haveI := Ty.decWF t false
      haveI := Ty.decAllWF ts
      decidable_of_iff (t.WF false ∧ Ty.AllWF ts) (by rw [Ty.AllWF])

end

instance (t : Ty) (elem : Bool) : Decidable (t.WF elem) := t.decWF elem

instance (ts : List Ty) : Decidable (Ty.AllWF ts) := Ty.decAllWF ts

-- ================================================================= values

instance : DecidablePred Nest.Ok := fun n =>
  inferInstanceAs (Decidable (n.arrays ≤ 32 ∧ n.structs ≤ 32
    ∧ n.containers ≤ 64))

instance : DecidablePred IsStr := fun s =>
  inferInstanceAs (Decidable (utf8Valid s = true ∧ (0 : UInt8) ∉ s
    ∧ s.length < 2 ^ 32))

mutual

/-- Validity of a value is decidable. -/
def decValid (e : Endian) :
    ∀ (v : Value) (n : Nest) (p : Nat), Decidable (Valid e n p v)
  | .fixed k m, _, _ =>
      decidable_of_iff (m < 256 ^ k.size ∧ (k = .boolean → m ≤ 1))
        (by rw [Valid])
  | .str s, _, _ => decidable_of_iff (IsStr s) (by rw [Valid])
  | .objectPath s, _, _ =>
      decidable_of_iff (IsStr s ∧ isObjectPath s = true) (by rw [Valid])
  | .signature ts, _, _ =>
      decidable_of_iff (Ty.AllWF ts ∧ (Ty.renderAll ts).length ≤ 255)
        (by rw [Valid])
  | .variant v, n, p =>
      haveI := decValid e v n.inVariant (p + (v.typeOf.render.length + 2))
      decidable_of_iff (n.inVariant.Ok ∧ v.typeOf.WF false
        ∧ v.typeOf.render.length ≤ 255
        ∧ Valid e n.inVariant (p + (v.typeOf.render.length + 2)) v)
        (by rw [Valid])
  | .array t vs, n, p =>
      haveI := decValidAll e vs n.inArray
        (alignUp t.align (alignUp 4 p + 4))
      decidable_of_iff (n.inArray.Ok ∧ t.WF true ∧ (∀ v ∈ vs, v.typeOf = t)
        ∧ (marshalAll e (alignUp t.align (alignUp 4 p + 4)) vs).length
            ≤ 2 ^ 26
        ∧ ValidAll e n.inArray (alignUp t.align (alignUp 4 p + 4)) vs)
        (by rw [Valid])
  | .struct vs, n, p =>
      haveI := decValidAll e vs n.inStruct (alignUp 8 p)
      haveI : Decidable (vs ≠ []) := decidable_of_iff (vs.isEmpty = false)
        (by cases vs <;> simp)
      decidable_of_iff (n.inStruct.Ok ∧ vs ≠ []
        ∧ ValidAll e n.inStruct (alignUp 8 p) vs) (by rw [Valid])
  | .dictEntry k v, n, p =>
      haveI := decValid e k n.inStruct (alignUp 8 p)
      haveI := decValid e v n.inStruct
        (alignUp 8 p + (marshal e (alignUp 8 p) k).length)
      decidable_of_iff (n.inStruct.Ok ∧ k.typeOf.IsBasic
        ∧ Valid e n.inStruct (alignUp 8 p) k
        ∧ Valid e n.inStruct
            (alignUp 8 p + (marshal e (alignUp 8 p) k).length) v)
        (by rw [Valid])

def decValidAll (e : Endian) :
    ∀ (vs : List Value) (n : Nest) (p : Nat), Decidable (ValidAll e n p vs)
  | [], _, _ => isTrue (by simp [ValidAll])
  | v :: vs, n, p =>
      haveI := decValid e v n p
      haveI := decValidAll e vs n (p + (marshal e p v).length)
      decidable_of_iff (Valid e n p v
        ∧ ValidAll e n (p + (marshal e p v).length) vs) (by rw [ValidAll])

end

instance (e : Endian) (n : Nest) (p : Nat) (v : Value) :
    Decidable (Valid e n p v) := decValid e v n p

instance (e : Endian) (n : Nest) (p : Nat) (vs : List Value) :
    Decidable (ValidAll e n p vs) := decValidAll e vs n p

/-- Validity of header fields is decidable. -/
def decValidFields (e : Endian) :
    ∀ (fs : List Field) (p : Nat), Decidable (ValidFields e p fs)
  | [], _ => isTrue (by simp [ValidFields])
  | f :: fs, p =>
      haveI := decValidFields e fs (p + (marshalField e p f).length)
      haveI : Decidable (ValidField e p f) :=
        inferInstanceAs (Decidable (_ ∧ _ ∧ _))
      decidable_of_iff (ValidField e p f
        ∧ ValidFields e (p + (marshalField e p f).length) fs)
        (by rw [ValidFields])

instance (e : Endian) (p : Nat) (fs : List Field) :
    Decidable (ValidFields e p fs) := decValidFields e fs p

-- ================================================================= fields

/-- Decodes the contents of a header-field array at offset `p`. -/
def decodeFields (e : Endian) (p : Nat) (bs : Bytes) :
    Option (List Field) :=
  (readFields e p bs).filter fun fs =>
    decide (ValidFields e p fs) && decide (marshalFields e p fs = bs)

/-- The decoder accepts exactly what valid fields marshal to. -/
theorem decodeFields_eq_some {e : Endian} {p : Nat} {bs : Bytes}
    {fs : List Field} :
    decodeFields e p bs = some fs
      ↔ ValidFields e p fs ∧ marshalFields e p fs = bs := by
  unfold decodeFields
  rw [Option.filter_eq_some_iff]
  simp only [Bool.and_eq_true, decide_eq_true_eq]
  constructor
  · rintro ⟨-, h⟩
    exact h
  · rintro ⟨hv, rfl⟩
    exact ⟨readFields_marshalFields e p fs hv, hv, rfl⟩

end DbusRouter.Wire
