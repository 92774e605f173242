/-
Frames: the bytes of a well-formed message, taken apart.

A `Frame` carries the bounds the reader checks, so its bytes always parse
back to it (`parse_bytes`), and the raw bytes of every accepted message
are those of a frame (`Accepted.exists_frame`). The rewriters are then
functions on frames: `rebuildMessageWithBody` replaces the body
(`rebuild_bytes`), and everything else of the frame stays.
-/
import DbusRouter.Model.Session

namespace DbusRouter.Model

open Wire Lib

-- ================================================================= layout

/-- The marker byte of a byte order. -/
def marker (e : Endian) : UInt8 :=
  match e with
  | .little => 'l'.toUInt8
  | .big => 'B'.toUInt8

/-- The bytes of a message: its fixed header, its header-field array with
the length, the padding and the body. -/
def layout (e : Endian) (fixed array padding body : Bytes) : Bytes :=
  fixed ++ (e.bytes 4 array.length ++ (array ++ (padding ++ body)))

/-- The fixed header. -/
def fixedHeader (e : Endian) (ty flags : UInt8) (bodyLen serial : Nat) :
    Bytes :=
  [marker e, ty, flags, 1] ++ (e.bytes 4 bodyLen ++ e.bytes 4 serial)

/-- A message's parts, within the limits of the format. -/
structure Frame where
  endian : Endian
  ty : UInt8
  flags : UInt8
  serial : Nat
  array : Bytes
  padding : Bytes
  body : Bytes
  serial_lt : serial < 2 ^ 32
  array_le : array.length ≤ 2 ^ 26
  body_le : body.length ≤ 2 ^ 26
  padding_eq : padding.length = padTo8 (16 + array.length)

namespace Frame

def fixed (f : Frame) : Bytes :=
  fixedHeader f.endian f.ty f.flags f.body.length f.serial

def bytes (f : Frame) : Bytes :=
  layout f.endian f.fixed f.array f.padding f.body

/-- What the prologue of the frame's bytes parses to. -/
def prologue (f : Frame) : Prologue where
  endian := f.endian
  msgType := .ofByte f.ty
  flags := f.flags
  serial := f.serial
  bodyLen := f.body.length
  arrayLen := f.array.length

def header (z : Zvariant) (f : Frame) : MessageHeader :=
  f.prologue.intoHeader (parseHeaderFields z f.array f.endian)

def bodyStart (f : Frame) : Nat :=
  16 + f.array.length + padTo8 (16 + f.array.length)

end Frame

/-- Padding to 8 takes seven bytes at most. -/
theorem padTo8_le (n : Nat) : padTo8 n ≤ 7 := by
  unfold padTo8
  omega

/-- Padding to 8 leads to the next multiple. -/
theorem add_padTo8 (n : Nat) : n + padTo8 n = alignUp 8 n :=
  sub_mod_eq_alignUp n

/-- The fixed part of a header has twelve bytes. -/
@[simp] theorem fixedHeader_length (e : Endian) (ty flags : UInt8)
    (bodyLen serial : Nat) :
    (fixedHeader e ty flags bodyLen serial).length = 12 := by
  simp [fixedHeader]

@[simp] theorem Frame.fixed_length (f : Frame) : f.fixed.length = 12 :=
  fixedHeader_length ..

/-- The length of a frame is that of its parts. -/
theorem layout_length (e : Endian) {fixed : Bytes}
    (array padding body : Bytes) (h : fixed.length = 12) :
    (layout e fixed array padding body).length
      = 16 + array.length + padding.length + body.length := by
  simp only [layout, List.length_append, h, Endian.bytes_length]
  omega

/-- Behind the header there is the body and nothing else. -/
theorem Frame.bytes_length (f : Frame) :
    f.bytes.length = f.bodyStart + f.body.length := by
  rw [Frame.bytes, layout_length _ _ _ _ f.fixed_length, f.padding_eq]
  rfl

/-- No header is longer than the limit of its array allows. -/
theorem Frame.bodyStart_le (f : Frame) : f.bodyStart ≤ 2 ^ 26 + 23 := by
  have hpad := padTo8_le (16 + f.array.length)
  have harr := f.array_le
  unfold Frame.bodyStart
  omega

/-- So no frame is longer than both limits allow. -/
theorem Frame.bytes_length_le (f : Frame) :
    f.bytes.length ≤ 2 ^ 27 + 23 := by
  have hb := f.body_le
  have hs := f.bodyStart_le
  rw [f.bytes_length]
  omega

/-- The prologue of a frame announces its length. -/
theorem Frame.totalLen_prologue (f : Frame) :
    f.prologue.totalLen = f.bytes.length := by
  rw [f.bytes_length]
  rfl

-- ================================================================ reading

/-- Four bytes are read as a number. -/
theorem readU32_of_length {e : Endian} {bs : Bytes} (h : bs.length = 4) :
    readU32 e bs = .ok (e.nat bs) := by
  unfold readU32
  rw [slice_ok (Nat.zero_le 4) (by omega)]
  show Outcome.ok (e.nat (bs.take 4)) = _
  rw [List.take_of_length_le (by omega)]

/-- A written `u32` is read back where it stands. -/
theorem readU32At_of_at {e : Endian} {raw : Bytes} {p n : Nat}
    (h : At raw p (e.bytes 4 n)) (hn : n < 2 ^ 32) :
    readU32At e raw p = .ok n := by
  have hle := h.le
  rw [Endian.bytes_length] at hle
  have hnat : e.nat (e.bytes 4 n) = n := e.nat_bytes (by norm_num; omega)
  have htake := h.take_drop
  rw [Endian.bytes_length] at htake
  unfold readU32At readU32
  rw [sliceFrom_ok (by omega)]
  show (slice (raw.drop p) 0 4 >>= _) = _
  rw [slice_ok (Nat.zero_le 4) (by rw [List.length_drop]; omega)]
  show Outcome.ok (e.nat ((raw.drop p).take 4)) = _
  rw [htake, hnat]

section layout

variable (e : Endian) {fixed : Bytes} (array padding body : Bytes)

/-- The array stands at offset 16. -/
theorem layout_at_array (h : fixed.length = 12) :
    At (layout e fixed array padding body) 16 array :=
  ⟨fixed ++ e.bytes 4 array.length, padding ++ body,
    by simp [layout], by simp [h]⟩

/-- Its length stands at offset 12. -/
theorem layout_at_arrayLen (h : fixed.length = 12) :
    At (layout e fixed array padding body) 12 (e.bytes 4 array.length) :=
  ⟨fixed, array ++ (padding ++ body), by simp [layout], h⟩

/-- The body is what is left behind the padding. -/
theorem layout_drop_body (h : fixed.length = 12) :
    (layout e fixed array padding body).drop
      (16 + array.length + padding.length) = body := by
  have hd : layout e fixed array padding body
      = (fixed ++ (e.bytes 4 array.length ++ (array ++ padding))) ++ body := by
    simp [layout]
  rw [hd, List.drop_left']
  simp [h]
  omega

end layout

/-- The mark of a byte order is read as that order. -/
theorem endianOf_marker (e : Endian) :
    Prologue.endianOf (marker e) = .ok e := by
  cases e <;> rfl

/-- A frame's bytes parse back to its prologue. -/
theorem Frame.parse_bytes (f : Frame) :
    Prologue.parse (f.bytes.take minHeaderSize) = .ok f.prologue := by
  have hhead : f.bytes.take minHeaderSize
      = [marker f.endian, f.ty, f.flags, 1]
        ++ (f.endian.bytes 4 f.body.length
        ++ (f.endian.bytes 4 f.serial
        ++ f.endian.bytes 4 f.array.length)) := by
    have hsplit : f.bytes = ([marker f.endian, f.ty, f.flags, 1]
        ++ (f.endian.bytes 4 f.body.length
        ++ (f.endian.bytes 4 f.serial
        ++ f.endian.bytes 4 f.array.length)))
        ++ (f.array ++ (f.padding ++ f.body)) := by
      simp [Frame.bytes, layout, Frame.fixed, fixedHeader]
    rw [hsplit, List.take_left']
    simp [minHeaderSize]
  rw [hhead]
  have hbl := f.body_le
  have hal := f.array_le
  have hsl := f.serial_lt
  have hnat : ∀ n, n < 2 ^ 32 →
      readU32 f.endian (f.endian.bytes 4 n) = .ok n := by
    intro n hn
    rw [readU32_of_length (f.endian.bytes_length 4 n),
      f.endian.nat_bytes (by norm_num; omega)]
  have h4 : At ([marker f.endian, f.ty, f.flags, 1]
      ++ (f.endian.bytes 4 f.body.length ++ (f.endian.bytes 4 f.serial
      ++ f.endian.bytes 4 f.array.length))) 4
      (f.endian.bytes 4 f.body.length) := At.append_left rfl
  have h8 : At ([marker f.endian, f.ty, f.flags, 1]
      ++ (f.endian.bytes 4 f.body.length ++ (f.endian.bytes 4 f.serial
      ++ f.endian.bytes 4 f.array.length))) 8
      (f.endian.bytes 4 f.serial) :=
    ⟨[marker f.endian, f.ty, f.flags, 1] ++ f.endian.bytes 4 f.body.length,
      f.endian.bytes 4 f.array.length, by simp, by simp⟩
  have h12 : At ([marker f.endian, f.ty, f.flags, 1]
      ++ (f.endian.bytes 4 f.body.length ++ (f.endian.bytes 4 f.serial
      ++ f.endian.bytes 4 f.array.length))) 12
      (f.endian.bytes 4 f.array.length) :=
    ⟨[marker f.endian, f.ty, f.flags, 1] ++ (f.endian.bytes 4 f.body.length
      ++ f.endian.bytes 4 f.serial), [], by simp, by simp⟩
  have hb : ¬f.body.length > maxMessageSize := by
    unfold maxMessageSize
    omega
  have ha : ¬f.array.length > maxMessageSize := by
    unfold maxMessageSize
    omega
  unfold Prologue.parse
  rw [h4.slice (by simp), h8.slice (by simp), h12.slice (by simp)]
  simp only [List.cons_append, index, List.getElem?_cons_zero,
    List.getElem?_cons_succ, Outcome.ok_bind, endianOf_marker,
    ne_eq, not_true_eq_false, if_false, hnat _ hsl,
    hnat f.body.length (by omega), hnat f.array.length (by omega),
    if_neg hb, if_neg ha]
  rfl

/-- What is indexed without a panic is there. -/
theorem index_eq_ok {ε α : Type} {raw : List α} {i : Nat} {b : α}
    (h : (index raw i : Outcome ε α) = .ok b) : raw[i]? = some b := by
  unfold index at h
  split at h
  next b' hb =>
    cases h
    exact hb
  next => cases h

/-- What is sliced without a panic is there. -/
theorem slice_eq_ok {ε α : Type} {raw bs : List α} {a b : Nat}
    (h : (slice raw a b : Outcome ε _) = .ok bs) :
    b ≤ raw.length ∧ bs = (raw.drop a).take (b - a) := by
  unfold slice at h
  split at h
  next hab =>
    cases h
    exact ⟨hab.2, rfl⟩
  next => cases h

/-- A byte that is read as a byte order is its mark. -/
theorem endianOf_eq_ok {b : UInt8} {e : Endian}
    (h : Prologue.endianOf b = .ok e) : b = marker e := by
  unfold Prologue.endianOf at h
  split at h
  next hb =>
    cases h
    exact hb
  next =>
    split at h
    next hb =>
      cases h
      exact hb
    next => cases h

/-- Sixteen bytes parse or are refused. -/
theorem Prologue.parse_noPanic {head : Bytes} (h : head.length = 16) :
    (Prologue.parse head).NoPanic := by
  have hindex : ∀ i, i < 16 → (index head i : Result UInt8).NoPanic := by
    intro i hi
    unfold index
    rw [List.getElem?_eq_getElem (by omega)]
    exact Outcome.noPanic_ok _
  have hslice : ∀ i, i + 4 ≤ 16 →
      (slice head i (i + 4) : Result Bytes).NoPanic := by
    intro i hi
    rw [slice_ok (by omega) (by omega)]
    exact Outcome.noPanic_ok _
  have hword : ∀ (e : Endian) (i : Nat) (bs : Bytes), i + 4 ≤ 16 →
      (slice head i (i + 4) : Result Bytes) = .ok bs →
      (readU32 e bs).NoPanic := by
    intro e i bs hi hbs
    obtain ⟨-, rfl⟩ := slice_eq_ok hbs
    rw [readU32_of_length (by
      rw [List.length_take, List.length_drop]
      omega)]
    exact Outcome.noPanic_ok _
  have hendian : ∀ b, (Prologue.endianOf b).NoPanic := by
    intro b
    unfold Prologue.endianOf
    split
    next => exact Outcome.noPanic_ok _
    next =>
      split
      next => exact Outcome.noPanic_ok _
      next => exact Outcome.noPanic_err _
  unfold Prologue.parse
  refine (hindex 0 (by omega)).bind fun b _ => ?_
  refine (hendian b).bind fun e _ => ?_
  refine (hindex 3 (by omega)).bind fun version _ => ?_
  split
  next => exact Outcome.noPanic_err _
  next =>
    refine (hslice 4 (by omega)).bind fun bs hbs => ?_
    refine (hword e 4 bs (by omega) hbs).bind fun bodyLen _ => ?_
    split
    next => exact Outcome.noPanic_err _
    next =>
      refine (hslice 12 (by omega)).bind fun bs hbs => ?_
      refine (hword e 12 bs (by omega) hbs).bind fun arrayLen _ => ?_
      split
      next => exact Outcome.noPanic_err _
      next =>
        refine (hindex 1 (by omega)).bind fun ty _ => ?_
        refine (hindex 2 (by omega)).bind fun flags _ => ?_
        refine (hslice 8 (by omega)).bind fun bs hbs => ?_
        refine (hword e 8 bs (by omega) hbs).bind fun serial _ => ?_
        exact Outcome.noPanic_ok _

/-- Writing back the `u32` read from a slice of four bytes. -/
private theorem bytes_readU32 {e : Endian} {bs : Bytes} {n : Nat}
    (hlen : bs.length = 4) (h : readU32 e bs = .ok n) :
    e.bytes 4 n = bs ∧ n < 2 ^ 32 := by
  rw [readU32_of_length hlen] at h
  cases h
  have hb := e.bytes_nat bs
  have hlt := e.nat_lt bs
  rw [hlen] at hb hlt
  norm_num at hlt ⊢
  exact ⟨hb, hlt⟩

/-- What a head is that parses. -/
theorem parse_eq_ok {head : Bytes} {p : Prologue} (hlen : head.length ≤ 16)
    (h : Prologue.parse head = .ok p) :
    ∃ ty, p.msgType = .ofByte ty ∧ p.serial < 2 ^ 32
      ∧ p.bodyLen ≤ 2 ^ 26 ∧ p.arrayLen ≤ 2 ^ 26
      ∧ head = fixedHeader p.endian ty p.flags p.bodyLen p.serial
          ++ p.endian.bytes 4 p.arrayLen := by
  unfold Prologue.parse at h
  obtain ⟨b0, h0, h⟩ := Outcome.bind_eq_ok h
  obtain ⟨e, he, h⟩ := Outcome.bind_eq_ok h
  obtain ⟨b3, h3, h⟩ := Outcome.bind_eq_ok h
  split at h
  next => cases h
  next hv =>
    obtain ⟨x4, hx4, h⟩ := Outcome.bind_eq_ok h
    obtain ⟨bodyLen, hbl, h⟩ := Outcome.bind_eq_ok h
    split at h
    next => cases h
    next hbmax =>
      obtain ⟨x12, hx12, h⟩ := Outcome.bind_eq_ok h
      obtain ⟨arrayLen, hal, h⟩ := Outcome.bind_eq_ok h
      split at h
      next => cases h
      next hamax =>
        obtain ⟨ty, hty, h⟩ := Outcome.bind_eq_ok h
        obtain ⟨flags, hflags, h⟩ := Outcome.bind_eq_ok h
        obtain ⟨x8, hx8, h⟩ := Outcome.bind_eq_ok h
        obtain ⟨serial, hsl, h⟩ := Outcome.bind_eq_ok h
        cases h
        have h0' := index_eq_ok h0
        have h1' := index_eq_ok hty
        have h2' := index_eq_ok hflags
        have h3' := index_eq_ok h3
        obtain ⟨-, rfl⟩ := slice_eq_ok hx4
        obtain ⟨-, rfl⟩ := slice_eq_ok hx8
        obtain ⟨h16, rfl⟩ := slice_eq_ok hx12
        have hlen16 : head.length = 16 := by omega
        have hw : ∀ q, q + 4 ≤ 16 →
            ((head.drop q).take (q + 4 - q)).length = 4 := by
          intro q hq
          rw [List.length_take, List.length_drop]
          omega
        obtain ⟨hb4, -⟩ := bytes_readU32 (hw 4 (by omega)) hbl
        obtain ⟨hb8, hs8⟩ := bytes_readU32 (hw 8 (by omega)) hsl
        obtain ⟨hb12, -⟩ := bytes_readU32 (hw 12 (by omega)) hal
        have hv1 : b3 = 1 := by
          by_contra hne
          exact hv hne
        refine ⟨ty, rfl, hs8, ?_, ?_, ?_⟩
        · unfold maxMessageSize at hbmax
          show bodyLen ≤ 2 ^ 26
          omega
        · unfold maxMessageSize at hamax
          show arrayLen ≤ 2 ^ 26
          omega
        · show head = fixedHeader e ty flags bodyLen serial
            ++ e.bytes 4 arrayLen
          rw [fixedHeader, hb4, hb8, hb12, ← endianOf_eq_ok he, ← hv1]
          -- the sixteen bytes, four at a time
          have hfirst : head.take 4 = [b0, ty, flags, b3] := by
            apply List.ext_getElem?
            intro i
            match i with
            | 0 => simpa using h0'
            | 1 => simpa using h1'
            | 2 => simpa using h2'
            | 3 => simpa using h3'
            | i + 4 => simp
          have hlast : (head.drop 12).take 4 = head.drop 12 := by
            rw [List.take_of_length_le]
            rw [List.length_drop]
            omega
          rw [← hfirst]
          show head = head.take 4 ++ ((head.drop 4).take 4
            ++ (head.drop 8).take 4) ++ (head.drop 12).take 4
          rw [hlast]
          have hd8 : head.drop 8 = (head.drop 8).take 4 ++ head.drop 12 := by
            rw [show 12 = 8 + 4 from rfl, ← List.drop_drop,
              List.take_append_drop]
          have hd4 : head.drop 4 = (head.drop 4).take 4 ++ head.drop 8 := by
            rw [show 8 = 4 + 4 from rfl, ← List.drop_drop,
              List.take_append_drop]
          rw [List.append_assoc, List.append_assoc, ← hd8, ← hd4,
            List.take_append_drop]

/-- The two marks differ. -/
theorem marker_injective {e e' : Endian} (h : marker e = marker e') :
    e = e' := by
  cases e <;> cases e' <;> first | rfl | (revert h; decide)

/-- The prologue of a message. -/
theorem layout_take (e : Endian) (ty flags : UInt8) (bodyLen serial : Nat)
    (array padding body : Bytes) :
    (layout e (fixedHeader e ty flags bodyLen serial) array padding
        body).take minHeaderSize
      = fixedHeader e ty flags bodyLen serial ++ e.bytes 4 array.length := by
  unfold layout minHeaderSize
  rw [← List.append_assoc, List.take_left']
  simp

/-- What a prologue in front of anything says, if it parses. -/
theorem parse_layout_eq_ok {e : Endian} {ty flags : UInt8}
    {bodyLen serial : Nat} {array padding body : Bytes} {p : Prologue}
    (ha : array.length < 2 ^ 32)
    (h : Prologue.parse ((layout e (fixedHeader e ty flags bodyLen serial)
      array padding body).take minHeaderSize) = .ok p) :
    p.endian = e ∧ p.msgType = .ofByte ty ∧ p.arrayLen = array.length
      ∧ array.length ≤ 2 ^ 26 := by
  rw [layout_take] at h
  obtain ⟨ty', hty, -, -, hle, hhead⟩ := parse_eq_ok (by simp) h
  obtain ⟨hfixed, hlen⟩ := List.append_inj hhead (by simp)
  unfold fixedHeader at hfixed
  simp only [List.cons_append, List.nil_append, List.cons.injEq] at hfixed
  obtain ⟨hmarker, htype, -⟩ := hfixed
  have he := marker_injective hmarker
  subst he
  have hnat := congrArg p.endian.nat hlen
  rw [p.endian.nat_bytes (by norm_num; omega),
    p.endian.nat_bytes (by norm_num; omega)] at hnat
  refine ⟨rfl, ?_, hnat.symm, ?_⟩
  · rw [hty, htype]
  · rw [hnat]
    exact hle

/-- A prologue that parses has the body length that is stated, which is
then within the limit. -/
theorem bodyLen_of_parse {e : Endian} {ty flags : UInt8}
    {bodyLen serial : Nat} {array padding body : Bytes} {p : Prologue}
    (hb : bodyLen < 2 ^ 32)
    (h : Prologue.parse ((layout e (fixedHeader e ty flags bodyLen serial)
      array padding body).take minHeaderSize) = .ok p) :
    p.bodyLen = bodyLen ∧ bodyLen ≤ 2 ^ 26 := by
  rw [layout_take] at h
  obtain ⟨ty', -, -, hle, -, hhead⟩ := parse_eq_ok (by simp) h
  obtain ⟨hfixed, -⟩ := List.append_inj hhead (by simp)
  unfold fixedHeader at hfixed
  obtain ⟨hfour, hwords⟩ := List.append_inj hfixed rfl
  have he := marker_injective (List.head_eq_of_cons_eq hfour)
  subst he
  obtain ⟨hlen, -⟩ := List.append_inj hwords (by simp)
  have hnat := congrArg p.endian.nat hlen
  rw [p.endian.nat_bytes (by norm_num; omega),
    p.endian.nat_bytes (by norm_num; omega)] at hnat
  rw [hnat]
  exact ⟨rfl, hle⟩

/-- Bytes whose prologue parses to their own length are a frame's. -/
theorem exists_frame {raw : Bytes} {p : Prologue}
    (hp : Prologue.parse (raw.take minHeaderSize) = .ok p)
    (hlen : raw.length = p.totalLen) :
    ∃ f : Frame, raw = f.bytes ∧ f.prologue = p
      ∧ f.array = (raw.drop minHeaderSize).take p.arrayLen := by
  have htake : (raw.take minHeaderSize).length ≤ 16 := by
    rw [List.length_take]
    exact Nat.min_le_left ..
  obtain ⟨ty, hty, hserial, hbody, harray, hhead⟩ := parse_eq_ok htake hp
  have htot : raw.length
      = 16 + p.arrayLen + padTo8 (16 + p.arrayLen) + p.bodyLen := hlen
  have halen : ((raw.drop 16).take p.arrayLen).length = p.arrayLen := by
    rw [List.length_take, List.length_drop]
    omega
  have hplen : ((raw.drop (16 + p.arrayLen)).take
      (padTo8 (16 + p.arrayLen))).length = padTo8 (16 + p.arrayLen) := by
    rw [List.length_take, List.length_drop]
    omega
  have hblen : (raw.drop (16 + p.arrayLen
      + padTo8 (16 + p.arrayLen))).length = p.bodyLen := by
    rw [List.length_drop]
    omega
  refine ⟨{
    endian := p.endian
    ty := ty
    flags := p.flags
    serial := p.serial
    array := (raw.drop 16).take p.arrayLen
    padding := (raw.drop (16 + p.arrayLen)).take (padTo8 (16 + p.arrayLen))
    body := raw.drop (16 + p.arrayLen + padTo8 (16 + p.arrayLen))
    serial_lt := hserial
    array_le := by rw [halen]; exact harray
    body_le := by rw [hblen]; exact hbody
    padding_eq := by rw [hplen, halen] }, ?_, ?_, rfl⟩
  · have hdrop : ∀ a b, raw.drop (a + b) = (raw.drop a).drop b := by
      intro a b
      rw [List.drop_drop]
    have hrest : raw.drop 16 = (raw.drop 16).take p.arrayLen
        ++ ((raw.drop (16 + p.arrayLen)).take (padTo8 (16 + p.arrayLen))
        ++ raw.drop (16 + p.arrayLen + padTo8 (16 + p.arrayLen))) := by
      rw [hdrop (16 + p.arrayLen), List.take_append_drop, hdrop 16,
        List.take_append_drop]
    show raw = fixedHeader p.endian ty p.flags
        (raw.drop (16 + p.arrayLen + padTo8 (16 + p.arrayLen))).length
        p.serial
      ++ (p.endian.bytes 4 ((raw.drop 16).take p.arrayLen).length
      ++ ((raw.drop 16).take p.arrayLen
      ++ ((raw.drop (16 + p.arrayLen)).take (padTo8 (16 + p.arrayLen))
      ++ raw.drop (16 + p.arrayLen + padTo8 (16 + p.arrayLen)))))
    rw [hblen, halen, ← hrest, ← List.append_assoc, ← hhead]
    exact (List.take_append_drop 16 raw).symm
  · show Prologue.mk p.endian (.ofByte ty) p.flags p.serial
      (raw.drop (16 + p.arrayLen + padTo8 (16 + p.arrayLen))).length
      ((raw.drop 16).take p.arrayLen).length = p
    rw [hblen, halen, ← hty]

/-- The raw bytes and the header of an accepted message come from one
frame. -/
theorem Message.Accepted.exists_frame {z : Zvariant} {msg : Message}
    (h : msg.Accepted z) :
    ∃ f : Frame, msg.raw = f.bytes ∧ msg.header = f.header z := by
  obtain ⟨p, hp, hlen, hheader⟩ := h.framed
  obtain ⟨f, hraw, hpro, harr⟩ := Model.exists_frame hp hlen
  refine ⟨f, hraw, ?_⟩
  rw [hheader, Frame.header, hpro, harr, ← hpro]
  rfl

/-- The message a frame is. -/
def Frame.message (z : Zvariant) (f : Frame) (fds : List Fd) : Message :=
  ⟨f.header z, f.bytes, fds⟩

/-- Every accepted message is a frame's. -/
theorem Message.Accepted.eq_message {z : Zvariant} {msg : Message}
    (h : msg.Accepted z) : ∃ f : Frame, msg = f.message z msg.fds := by
  obtain ⟨f, hraw, hheader⟩ := h.exists_frame
  refine ⟨f, ?_⟩
  rw [Frame.message, ← hraw, ← hheader]

-- ================================================================== bodies

/-- The body starts where the frame says. -/
theorem bodyStartOf_layout (e : Endian) {fixed array padding body : Bytes}
    (hf : fixed.length = 12) (ha : array.length < 2 ^ 32) :
    bodyStartOf e (layout e fixed array padding body)
      = .ok (16 + array.length + padTo8 (16 + array.length)) := by
  have hpad := padTo8_le (16 + array.length)
  unfold bodyStartOf fixedHeaderSize minHeaderSize
  rw [readU32At_of_at (layout_at_arrayLen e _ _ _ hf) ha]
  show (addUsize 16 array.length >>= _) = _
  rw [addUsize_ok (by omega)]
  show addUsize (16 + array.length) (padTo8 (16 + array.length)) = _
  rw [addUsize_ok (by omega)]

/-- The body of a frame is found. -/
theorem Frame.bodyStartOf_bytes (f : Frame) :
    bodyStartOf f.endian f.bytes = .ok f.bodyStart := by
  have ha := f.array_le
  exact bodyStartOf_layout f.endian f.fixed_length (by omega)

/-- What stands behind the body's start is the body. -/
theorem Frame.drop_bodyStart (f : Frame) :
    f.bytes.drop f.bodyStart = f.body := by
  rw [Frame.bytes, Frame.bodyStart, ← f.padding_eq]
  exact layout_drop_body f.endian _ _ _ f.fixed_length

/-- The frame with another body. -/
def Frame.withBody (f : Frame) (body : Bytes) (h : body.length ≤ 2 ^ 26) :
    Frame :=
  { f with body := body, body_le := h }

/-- Rebuilding a message around a new body touches nothing else but the
body length, whatever the array and the body. -/
theorem rebuildMessageWithBody_layout (e : Endian) (ty flags : UInt8)
    (bodyLen serial : Nat) {array padding : Bytes} (old new : Bytes)
    (ha : array.length < 2 ^ 32)
    (hpad : padding.length = padTo8 (16 + array.length)) :
    rebuildMessageWithBody (layout e (fixedHeader e ty flags bodyLen serial)
        array padding old) e new
      = .ok (layout e (fixedHeader e ty flags (new.length % 2 ^ 32) serial)
          array padding new) := by
  have hstart : bodyStartOf e (layout e (fixedHeader e ty flags bodyLen serial)
      array padding old)
        = .ok (16 + array.length + padTo8 (16 + array.length)) :=
    bodyStartOf_layout e (fixedHeader_length e ty flags bodyLen serial) ha
  have hsum : 16 + array.length + padTo8 (16 + array.length)
      = 8 + (4 + (4 + (array.length + padding.length))) := by
    rw [hpad]
    omega
  have h0 : At (layout e (fixedHeader e ty flags bodyLen serial) array
      padding old) 0 [marker e, ty, flags, 1] :=
    ⟨[], _, by
      simp only [List.nil_append, layout, fixedHeader, List.append_assoc]
      rfl, rfl⟩
  have h8 : At (layout e (fixedHeader e ty flags bodyLen serial) array
      padding old) 8 (e.bytes 4 serial
      ++ (e.bytes 4 array.length ++ (array ++ padding))) :=
    ⟨[marker e, ty, flags, 1] ++ e.bytes 4 bodyLen, old,
      by simp [layout, fixedHeader], by simp⟩
  unfold rebuildMessageWithBody
  rw [hstart, Outcome.ok_bind, h0.slice (by simp), Outcome.ok_bind,
    h8.slice (by simp; omega), Outcome.ok_bind]
  simp [layout, fixedHeader]

/-- A frame with another body differs in that and in its length. -/
theorem Frame.rebuild_layout (f : Frame) (body : Bytes) :
    rebuildMessageWithBody f.bytes f.endian body
      = .ok (layout f.endian
          (fixedHeader f.endian f.ty f.flags (body.length % 2 ^ 32) f.serial)
          f.array f.padding body) := by
  have ha := f.array_le
  exact rebuildMessageWithBody_layout f.endian f.ty f.flags _ _ _ _ (by omega)
    f.padding_eq

/-- Rebuilding a message around a body within the limits gives a frame. -/
theorem Frame.rebuild_bytes (f : Frame) {body : Bytes}
    (h : body.length ≤ 2 ^ 26) :
    rebuildMessageWithBody f.bytes f.endian body
      = .ok (f.withBody body h).bytes := by
  have hmod : body.length % 2 ^ 32 = body.length :=
    Nat.mod_eq_of_lt (by omega)
  rw [f.rebuild_layout, hmod]
  rfl

end DbusRouter.Model
