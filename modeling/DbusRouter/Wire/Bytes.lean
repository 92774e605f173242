/-
Byte strings: fixed-width integers in either byte order, alignment
padding, checked slices, and what stands at an offset.

Nothing here knows D-Bus. Lengths and offsets are `Nat`; a width-`k`
integer is the number below `256 ^ k` it denotes. The checked accesses
(`slice`, `sliceFrom`, `index`, `subUsize`, `addUsize`) end in a panic
exactly where a 64-bit Rust build with overflow checks does.

`At raw p bs` ("`bs` stands at offset `p` of `raw`") is how the scanner
proofs talk about a byte string they never take apart: each access at a
known offset is read off an `At`, and an `At` of a concatenation splits
into two.
-/
import DbusRouter.Lib.Outcome
import Mathlib.Data.List.Basic
import Mathlib.Tactic.Ring
import Mathlib.Tactic.NormNum

namespace DbusRouter.Wire

open Lib (Outcome Panic)

abbrev Bytes := List UInt8

/-- The bytes of a string literal. -/
def utf8 (s : String) : Bytes := s.toByteArray.data.toList

-- =============================================================== integers

/-- Byte order of a message. -/
inductive Endian where
  | little
  | big
  deriving DecidableEq, Repr

/-- The `k` low bytes of `n`, least significant first. -/
def leBytes : Nat → Nat → Bytes
  | 0, _ => []
  | k + 1, n => UInt8.ofNat (n % 256) :: leBytes k (n / 256)

/-- The number whose bytes, least significant first, are `bs`. -/
def leNat : Bytes → Nat
  | [] => 0
  | b :: bs => b.toNat + 256 * leNat bs

/-- The `k` low bytes of `n` in a byte order. -/
def Endian.bytes (e : Endian) (k n : Nat) : Bytes :=
  match e with
  | .little => leBytes k n
  | .big => (leBytes k n).reverse

/-- The number that bytes denote in a byte order. -/
def Endian.nat (e : Endian) (bs : Bytes) : Nat :=
  match e with
  | .little => leNat bs
  | .big => leNat bs.reverse

/-- A number is written in as many bytes as asked for. -/
@[simp] theorem leBytes_length (k n : Nat) : (leBytes k n).length = k := by
  induction k generalizing n with
  | zero => rfl
  | succ k ih => rw [leBytes, List.length_cons, ih]

/-- A number has its width in either byte order. -/
@[simp] theorem Endian.bytes_length (e : Endian) (k n : Nat) :
    (e.bytes k n).length = k := by
  cases e with
  | little => exact leBytes_length k n
  | big => rw [Endian.bytes, List.length_reverse, leBytes_length]

/-- A number that fits is read back. -/
theorem leNat_leBytes {k n : Nat} (h : n < 256 ^ k) :
    leNat (leBytes k n) = n := by
  induction k generalizing n with
  | zero =>
      rw [pow_zero] at h
      rw [leBytes, leNat]
      omega
  | succ k ih =>
      have hdiv : n / 256 < 256 ^ k := by
        rw [pow_succ] at h
        omega
      have hbyte : (UInt8.ofNat (n % 256)).toNat = n % 256 := by
        simp
      rw [leBytes, leNat, ih hdiv, hbyte]
      omega

/-- What is read fits the bytes it was read from. -/
theorem leNat_lt (bs : Bytes) : leNat bs < 256 ^ bs.length := by
  induction bs with
  | nil => simp [leNat]
  | cons b bs ih =>
      have hb : b.toNat < 256 := b.toNat_lt
      rw [leNat, List.length_cons, pow_succ]
      omega

/-- Reading back a written integer. -/
theorem Endian.nat_bytes (e : Endian) {k n : Nat} (h : n < 256 ^ k) :
    e.nat (e.bytes k n) = n := by
  cases e with
  | little => exact leNat_leBytes h
  | big =>
      rw [Endian.bytes, Endian.nat, List.reverse_reverse]
      exact leNat_leBytes h

/-- The number of some bytes is below the power of their count. -/
theorem Endian.nat_lt (e : Endian) (bs : Bytes) :
    e.nat bs < 256 ^ bs.length := by
  cases e with
  | little => exact leNat_lt bs
  | big =>
      have h := leNat_lt bs.reverse
      rw [List.length_reverse] at h
      exact h

/-- Bytes that are read as a number are written back. -/
theorem leBytes_leNat (bs : Bytes) : leBytes bs.length (leNat bs) = bs := by
  induction bs with
  | nil => rfl
  | cons b bs ih =>
      have hb : b.toNat < 256 := b.toNat_lt
      have hmod : (b.toNat + 256 * leNat bs) % 256 = b.toNat := by omega
      have hdiv : (b.toNat + 256 * leNat bs) / 256 = leNat bs := by omega
      rw [List.length_cons, leNat, leBytes, hmod, hdiv, ih]
      simp

/-- Writing back a read integer. -/
theorem Endian.bytes_nat (e : Endian) (bs : Bytes) :
    e.bytes bs.length (e.nat bs) = bs := by
  cases e with
  | little => exact leBytes_leNat bs
  | big =>
      have h := leBytes_leNat bs.reverse
      rw [List.length_reverse] at h
      rw [Endian.bytes, Endian.nat, h, List.reverse_reverse]

-- ============================================================== alignment

/-- The least multiple of `a` that is at least `n`. -/
def alignUp (a n : Nat) : Nat := (n + a - 1) / a * a

/-- `n` zero bytes. -/
def zeros (n : Nat) : Bytes := List.replicate n 0

/-- The zero padding from offset `p` to the next multiple of `a`. -/
def pad (a p : Nat) : Bytes := zeros (alignUp a p - p)

@[simp] theorem zeros_length (n : Nat) : (zeros n).length = n := by
  simp [zeros]

/-- Padding reaches to the next multiple. -/
@[simp] theorem pad_length (a p : Nat) :
    (pad a p).length = alignUp a p - p := by
  simp [pad]

/-- The alignments that occur. -/
def IsAlign (a : Nat) : Prop := a = 1 ∨ a = 2 ∨ a = 4 ∨ a = 8

/-- Aligning never goes back. -/
theorem le_alignUp {a : Nat} (ha : IsAlign a) (n : Nat) :
    n ≤ alignUp a n := by
  unfold alignUp
  rcases ha with rfl | rfl | rfl | rfl <;> omega

/-- An aligned offset is a multiple of the alignment. -/
theorem alignUp_mod {a : Nat} (ha : IsAlign a) (n : Nat) :
    alignUp a n % a = 0 := by
  unfold alignUp
  rcases ha with rfl | rfl | rfl | rfl <;> omega

/-- Alignment only looks at the offset modulo 8. -/
theorem alignUp_add_mul {a : Nat} (ha : IsAlign a) (n k : Nat) :
    alignUp a (n + 8 * k) = alignUp a n + 8 * k := by
  unfold alignUp
  rcases ha with rfl | rfl | rfl | rfl <;> omega

/-- Padding is the same at offsets that differ by a multiple of 8. -/
theorem pad_add_mul {a : Nat} (ha : IsAlign a) (n k : Nat) :
    pad a (n + 8 * k) = pad a n := by
  unfold pad
  rw [alignUp_add_mul ha]
  congr 1
  omega

/-- The padding expression of the source, `(8 - n % 8) % 8`. -/
theorem sub_mod_eq_alignUp (n : Nat) : n + (8 - n % 8) % 8 = alignUp 8 n := by
  unfold alignUp
  omega

/-- A multiple of the alignment is aligned. -/
theorem alignUp_eq_self {a n : Nat} (ha : IsAlign a) (h : n % a = 0) :
    alignUp a n = n := by
  unfold alignUp
  rcases ha with rfl | rfl | rfl | rfl <;> omega

/-- At a multiple no padding is needed. -/
theorem pad_eq_nil {a n : Nat} (ha : IsAlign a) (h : n % a = 0) :
    pad a n = [] := by
  unfold pad
  rw [alignUp_eq_self ha h, Nat.sub_self]
  rfl

-- ======================================================= checked accesses

variable {ε α : Type}

/-- `raw[a..b]`. -/
def slice (raw : List α) (a b : Nat) : Outcome ε (List α) :=
  if a ≤ b ∧ b ≤ raw.length then .ok ((raw.drop a).take (b - a))
  else .panic .slice

/-- `raw[a..]`. -/
def sliceFrom (raw : List α) (a : Nat) : Outcome ε (List α) :=
  if a ≤ raw.length then .ok (raw.drop a) else .panic .slice

/-- `raw[i]`. -/
def index (raw : List α) (i : Nat) : Outcome ε α :=
  match raw[i]? with
  | some b => .ok b
  | none => .panic .index

/-- `a + b` on `usize`. -/
def addUsize (a b : Nat) : Outcome ε Nat :=
  if a + b < 2 ^ 64 then .ok (a + b) else .panic .overflow

/-- `a - b` on `usize`. -/
def subUsize (a b : Nat) : Outcome ε Nat :=
  if b ≤ a then .ok (a - b) else .panic .overflow

/-- A slice within its list is no panic. -/
theorem slice_ok {raw : List α} {a b : Nat} (h : a ≤ b) (h' : b ≤ raw.length) :
    (slice raw a b : Outcome ε _) = .ok ((raw.drop a).take (b - a)) :=
  if_pos ⟨h, h'⟩

/-- An end of a sequence that is there is no panic. -/
theorem sliceFrom_ok {raw : List α} {a : Nat} (h : a ≤ raw.length) :
    (sliceFrom raw a : Outcome ε _) = .ok (raw.drop a) :=
  if_pos h

/-- A sum below 2^64 does not overflow. -/
theorem addUsize_ok {a b : Nat} (h : a + b < 2 ^ 64) :
    (addUsize a b : Outcome ε _) = .ok (a + b) :=
  if_pos h

/-- A sum that does not overflow is the sum. -/
theorem addUsize_eq_ok {a b c : Nat}
    (h : (addUsize a b : Outcome ε _) = .ok c) : c = a + b := by
  unfold addUsize at h
  split at h
  next =>
    cases h
    rfl
  next => cases h

/-- A difference that is no less than zero does not overflow. -/
theorem subUsize_ok {a b : Nat} (h : b ≤ a) :
    (subUsize a b : Outcome ε _) = .ok (a - b) :=
  if_pos h

-- ================================================= standing at an offset

/-- `bs` stands at offset `p` of `raw`. -/
def At (raw : List α) (p : Nat) (bs : List α) : Prop :=
  ∃ pre post, raw = pre ++ bs ++ post ∧ pre.length = p

/-- What stands between two parts stands behind the first. -/
theorem At.intro (pre bs post : List α) :
    At (pre ++ bs ++ post) pre.length bs :=
  ⟨pre, post, rfl, rfl⟩

/-- What stands somewhere ends within the whole. -/
theorem At.le {raw bs : List α} {p : Nat} (h : At raw p bs) :
    p + bs.length ≤ raw.length := by
  obtain ⟨pre, post, rfl, rfl⟩ := h
  simp only [List.length_append]
  omega

/-- The first part of what stands there stands there. -/
theorem At.left {raw bs cs : List α} {p : Nat} (h : At raw p (bs ++ cs)) :
    At raw p bs := by
  obtain ⟨pre, post, rfl, hp⟩ := h
  exact ⟨pre, cs ++ post, by simp only [List.append_assoc], hp⟩

/-- The second part stands behind the first. -/
theorem At.right {raw bs cs : List α} {p : Nat} (h : At raw p (bs ++ cs)) :
    At raw (p + bs.length) cs := by
  obtain ⟨pre, post, rfl, rfl⟩ := h
  exact ⟨pre ++ bs, post, by simp only [List.append_assoc],
    List.length_append⟩

/-- What stands behind the first element stands one further on. -/
theorem At.tail {raw bs : List α} {b : α} {p : Nat} (h : At raw p (b :: bs)) :
    At raw (p + 1) bs :=
  At.right (show At raw p ([b] ++ bs) from h)

/-- The first element is at the offset. -/
theorem At.getElem? {raw bs : List α} {b : α} {p : Nat}
    (h : At raw p (b :: bs)) : raw[p]? = some b := by
  obtain ⟨pre, post, rfl, rfl⟩ := h
  simp

/-- Indexing an element that is there is no panic. -/
theorem At.index {raw bs : List α} {b : α} {p : Nat}
    (h : At raw p (b :: bs)) : (Wire.index raw p : Outcome ε α) = .ok b := by
  unfold Wire.index
  rw [h.getElem?]

/-- What stands at the offset is what follows the elements in front of it. -/
theorem At.drop {raw bs : List α} {p : Nat} (h : At raw p bs) :
    ∃ post, raw.drop p = bs ++ post := by
  obtain ⟨pre, post, rfl, rfl⟩ := h
  exact ⟨post, by simp⟩

/-- As many elements from there are what stands there. -/
theorem At.take_drop {raw bs : List α} {p : Nat} (h : At raw p bs) :
    (raw.drop p).take bs.length = bs := by
  obtain ⟨post, hd⟩ := h.drop
  rw [hd, List.take_left]

/-- So is the slice between the offset and its end. -/
theorem At.slice {raw bs : List α} {p q : Nat} (h : At raw p bs)
    (hq : q = p + bs.length) :
    (Wire.slice raw p q : Outcome ε _) = .ok bs := by
  subst hq
  rw [slice_ok (by omega) h.le, Nat.add_sub_cancel_left, h.take_drop]

/-- A whole byte string stands at its own offset after a prefix. -/
theorem At.append_left {pre bs post : List α} {p : Nat}
    (hp : pre.length = p) : At (pre ++ (bs ++ post)) p bs :=
  ⟨pre, post, by rw [List.append_assoc], hp⟩

end DbusRouter.Wire
