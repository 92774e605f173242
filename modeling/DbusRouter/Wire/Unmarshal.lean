/-
A reference decoder for the wire format, and the proof that it inverts
`marshal` on valid values.

The decoder is type-directed and structural: `unmarshalWith` recurses on
the type it is asked to read, an array's loop recurses on the number of
bytes left (an element takes at least one, `marshal_length_pos`), and only
a variant, whose type comes out of the data, needs a depth budget
(`unmarshal`). The format allows 64 open containers, so a budget that
covers the rest of them never runs out on a valid value.
-/
import DbusRouter.Wire.Value

namespace DbusRouter.Wire

-- ============================================================= signatures

/-- The fixed-width type with a letter. -/
def Fixed.ofCode (c : UInt8) : Option Fixed :=
  [Fixed.byte, .boolean, .int16, .uint16, .int32, .uint32, .unixFd, .int64,
    .uint64, .double].find? (·.code == c)

/-- The type spelled by one letter. -/
def letterTy (c : UInt8) : Option Ty :=
  if c = 's'.toUInt8 then some .str
  else if c = 'o'.toUInt8 then some .objectPath
  else if c = 'g'.toUInt8 then some .signature
  else if c = 'v'.toUInt8 then some .variant
  else (Fixed.ofCode c).map .fixed

/-- Reads a closing bracket. -/
def closing (c : UInt8) : Bytes → Option Bytes
  | b :: bs => if b = c then some bs else none
  | [] => none

mutual

/-- Reads one complete type off the front of a signature. -/
def parseTy : Nat → Bytes → Option (Ty × Bytes)
  | 0, _ => none
  | _ + 1, [] => none
  | fuel + 1, c :: rest =>
      if c = 'a'.toUInt8 then
        (parseTy fuel rest).map fun (t, rest) => (.array t, rest)
      else if c = '('.toUInt8 then
        (parseTys fuel rest).bind fun (ts, rest) =>
          if ts.isEmpty then none
          else (closing ')'.toUInt8 rest).map fun rest => (.struct ts, rest)
      else if c = '{'.toUInt8 then
        (parseTys fuel rest).bind fun (ts, rest) =>
          match ts with
          | [k, v] =>
              (closing '}'.toUInt8 rest).map fun rest =>
                (.dictEntry k v, rest)
          | _ => none
      else (letterTy c).map fun t => (t, rest)

/-- Reads complete types up to a closing bracket or the end. -/
def parseTys : Nat → Bytes → Option (List Ty × Bytes)
  | 0, _ => none
  | _ + 1, [] => some ([], [])
  | fuel + 1, c :: rest =>
      if c = ')'.toUInt8 ∨ c = '}'.toUInt8 then some ([], c :: rest)
      else
        (parseTy fuel (c :: rest)).bind fun (t, rest) =>
          (parseTys fuel rest).map fun (ts, rest) => (t :: ts, rest)

end

/-- The single complete type a signature spells. -/
def parseSingle (sig : Bytes) : Option Ty :=
  match parseTy sig.length sig with
  | some (t, []) => some t
  | _ => none

/-- The types a signature spells. -/
def parseSignature (sig : Bytes) : Option (List Ty) :=
  match parseTys (sig.length + 1) sig with
  | some (ts, []) => some ts
  | _ => none

-- ================================================================= reading

/-- Passes over zero padding. -/
def skipPad (a p : Nat) (bs : Bytes) : Option Bytes :=
  if (pad a p).isPrefixOf bs then some (bs.drop (alignUp a p - p)) else none

/-- Reads `n` bytes. -/
def readN (n : Nat) (bs : Bytes) : Option (Bytes × Bytes) :=
  if n ≤ bs.length then some (bs.take n, bs.drop n) else none

/-- Reads a NUL. -/
def readNul : Bytes → Option Bytes
  | b :: bs => if b = 0 then some bs else none
  | [] => none

/-- Reads a string after its padding. -/
def readStr (e : Endian) (bs : Bytes) : Option (Text × Bytes) := do
  let (len, bs) ← readN 4 bs
  let (s, bs) ← readN (e.nat len) bs
  let bs ← readNul bs
  if utf8Valid s && !s.contains 0 then some (s, bs) else none

/-- Reads a signature's letters. -/
def readSig : Bytes → Option (Bytes × Bytes)
  | [] => none
  | len :: bs => do
      let (sig, bs) ← readN len.toNat bs
      let bs ← readNul bs
      some (sig, bs)

/-- Reads elements until the bytes are used up, `fuel` of them at most. -/
def readElems (elem : Nat → Bytes → Option (Value × Bytes)) :
    Nat → Nat → Bytes → Option (List Value)
  | _, _, [] => some []
  | 0, _, _ :: _ => none
  | fuel + 1, p, b :: bs => do
      let (v, rest) ← elem p (b :: bs)
      let vs ← readElems elem fuel (p + ((b :: bs).length - rest.length)) rest
      some (v :: vs)

mutual

/-- Reads a value of a type at offset `p`; `inner` reads what stands in
variants. -/
def unmarshalWith (e : Endian)
    (inner : Ty → Nat → Bytes → Option (Value × Bytes)) :
    Ty → Nat → Bytes → Option (Value × Bytes)
  | .fixed k, p, bs => do
      let bs ← skipPad k.size p bs
      let (n, bs) ← readN k.size bs
      if k = .boolean && 1 < e.nat n then none
      else some (.fixed k (e.nat n), bs)
  | .str, p, bs => do
      let bs ← skipPad 4 p bs
      let (s, bs) ← readStr e bs
      some (.str s, bs)
  | .objectPath, p, bs => do
      let bs ← skipPad 4 p bs
      let (s, bs) ← readStr e bs
      if isObjectPath s then some (.objectPath s, bs) else none
  | .signature, _, bs => do
      let (sig, bs) ← readSig bs
      let ts ← parseSignature sig
      some (.signature ts, bs)
  | .variant, p, bs => do
      let (sig, bs) ← readSig bs
      let t ← parseSingle sig
      let (v, bs) ← inner t (p + (sig.length + 2)) bs
      some (.variant v, bs)
  | .array t, p, bs => do
      let bs ← skipPad 4 p bs
      let (len, bs) ← readN 4 bs
      let bs ← skipPad t.align (alignUp 4 p + 4) bs
      let (body, bs) ← readN (e.nat len) bs
      let vs ← readElems (fun p bs => unmarshalWith e inner t p bs)
        body.length (alignUp t.align (alignUp 4 p + 4)) body
      some (.array t vs, bs)
  | .struct ts, p, bs => do
      let bs ← skipPad 8 p bs
      let (vs, bs) ← unmarshalSeq e inner ts (alignUp 8 p) bs
      some (.struct vs, bs)
  | .dictEntry k v, p, bs => do
      let bs ← skipPad 8 p bs
      let (key, rest) ← unmarshalWith e inner k (alignUp 8 p) bs
      let (val, rest) ← unmarshalWith e inner v
        (alignUp 8 p + (bs.length - rest.length)) rest
      some (.dictEntry key val, rest)

/-- Reads values of a list of types one after the other. -/
def unmarshalSeq (e : Endian)
    (inner : Ty → Nat → Bytes → Option (Value × Bytes)) :
    List Ty → Nat → Bytes → Option (List Value × Bytes)
  | [], _, bs => some ([], bs)
  | t :: ts, p, bs => do
      let (v, rest) ← unmarshalWith e inner t p bs
      let (vs, rest) ← unmarshalSeq e inner ts
        (p + (bs.length - rest.length)) rest
      some (v :: vs, rest)

end

/-- Reads a value of a type at offset `p`, variants at most `depth` deep. -/
def unmarshal (e : Endian) : Nat → Ty → Nat → Bytes → Option (Value × Bytes)
  | 0, _, _, _ => none
  | depth + 1, t, p, bs => unmarshalWith e (unmarshal e depth) t p bs

/-- Reads one header field: a struct of a byte and a variant. -/
def readField (e : Endian) (p : Nat) (bs : Bytes) :
    Option (Field × Bytes) := do
  let (v, rest) ← unmarshalWith e (unmarshal e 63)
    (.struct [.fixed .byte, .variant]) p bs
  match v with
  | .struct [.fixed .byte c, .variant v] => some ((UInt8.ofNat c, v), rest)
  | _ => none

/-- Reads header fields until the bytes are used up. -/
def readFieldsFrom (e : Endian) : Nat → Nat → Bytes → Option (List Field)
  | _, _, [] => some []
  | 0, _, _ :: _ => none
  | fuel + 1, p, b :: bs => do
      let (f, rest) ← readField e p (b :: bs)
      let fs ← readFieldsFrom e fuel (p + ((b :: bs).length - rest.length))
        rest
      some (f :: fs)

/-- Reads the contents of a header-field array that starts at offset
`p`. -/
def readFields (e : Endian) (p : Nat) (bs : Bytes) : Option (List Field) :=
  readFieldsFrom e bs.length p bs

/-- Reads an array of strings at offset `p`, whatever follows it. -/
def readStrings (e : Endian) (p : Nat) (bs : Bytes) :
    Option (List Text) := do
  let (v, _) ← unmarshalWith e (unmarshal e 64) (.array .str) p bs
  match v with
  | .array _ vs =>
      vs.mapM fun v =>
        match v with
        | .str s => some s
        | _ => none
  | _ => none

-- =================================================== signatures round trip

/-- The letter of a fixed type is read as that type. -/
theorem letterTy_code (k : Fixed) : letterTy k.code = some (.fixed k) := by
  cases k <;> rfl

/-- The letters that are neither a bracket nor the array letter. -/
private def IsLetter (c : UInt8) : Prop :=
  c ≠ 'a'.toUInt8 ∧ c ≠ '('.toUInt8 ∧ c ≠ ')'.toUInt8 ∧ c ≠ '{'.toUInt8
    ∧ c ≠ '}'.toUInt8

private theorem isLetter_code (k : Fixed) : IsLetter k.code := by
  cases k <;> (unfold IsLetter; decide)

/-- One letter is read as its type. -/
private theorem parseTy_letter {c : UInt8} {t : Ty} (hc : IsLetter c)
    (ht : letterTy c = some t) (rest : Bytes) {fuel : Nat} (hf : 1 ≤ fuel) :
    parseTy fuel (c :: rest) = some (t, rest) := by
  obtain ⟨h1, h2, -, h4, -⟩ := hc
  obtain ⟨fuel, rfl⟩ : ∃ m, fuel = m + 1 := ⟨fuel - 1, by omega⟩
  simp only [parseTy, if_neg h1, if_neg h2, if_neg h4, ht, Option.map_some]

/-- A type's signature starts with no closing bracket. -/
theorem render_head (t : Ty) :
    ∃ c r, t.render = c :: r ∧ c ≠ ')'.toUInt8 ∧ c ≠ '}'.toUInt8 := by
  cases t with
  | fixed k =>
      obtain ⟨-, -, h3, -, h5⟩ := isLetter_code k
      exact ⟨k.code, [], by rw [Ty.render], h3, h5⟩
  | str => exact ⟨_, _, by rw [Ty.render], by decide, by decide⟩
  | objectPath => exact ⟨_, _, by rw [Ty.render], by decide, by decide⟩
  | signature => exact ⟨_, _, by rw [Ty.render], by decide, by decide⟩
  | variant => exact ⟨_, _, by rw [Ty.render], by decide, by decide⟩
  | array t => exact ⟨_, _, by rw [Ty.render], by decide, by decide⟩
  | struct ts => exact ⟨_, _, by rw [Ty.render], by decide, by decide⟩
  | dictEntry k v => exact ⟨_, _, by rw [Ty.render], by decide, by decide⟩

/-- No type is written without a letter. -/
theorem render_length_pos (t : Ty) : 1 ≤ t.render.length := by
  obtain ⟨c, r, hr, -⟩ := render_head t
  rw [hr]
  simp

/-- What may follow a list of types: nothing, or a closing bracket. -/
private def Closed (rest : Bytes) : Prop :=
  rest = [] ∨ ∃ c r, rest = c :: r ∧ (c = ')'.toUInt8 ∨ c = '}'.toUInt8)

private theorem parseTys_nil {rest : Bytes} (h : Closed rest) {fuel : Nat}
    (hf : 1 ≤ fuel) : parseTys fuel rest = some ([], rest) := by
  obtain ⟨fuel, rfl⟩ : ∃ m, fuel = m + 1 := ⟨fuel - 1, by omega⟩
  rcases h with rfl | ⟨c, r, rfl, hc⟩
  · simp only [parseTys]
  · simp only [parseTys, if_pos hc]

/-- Reading a list of types off its first type. -/
private theorem parseTys_cons {t : Ty} {ts : List Ty} {more rest : Bytes}
    {fuel : Nat} (ht : parseTy fuel (t.render ++ more) = some (t, more))
    (hts : parseTys fuel more = some (ts, rest)) :
    parseTys (fuel + 1) (t.render ++ more) = some (t :: ts, rest) := by
  obtain ⟨c, r, hr, h1, h2⟩ := render_head t
  rw [hr, List.cons_append] at ht ⊢
  have hc : ¬(c = ')'.toUInt8 ∨ c = '}'.toUInt8) := by
    rintro (h | h)
    · exact h1 h
    · exact h2 h
  simp only [parseTys, if_neg hc, ht, hts, Option.bind_some, Option.map_some]

mutual

/-- A rendered type is read back, whatever follows it. -/
theorem parseTy_render :
    ∀ (t : Ty) (elem : Bool) (rest : Bytes) (fuel : Nat), t.WF elem →
      t.render.length ≤ fuel →
      parseTy fuel (t.render ++ rest) = some (t, rest)
  | .fixed k, _, rest, fuel, _, hf => by
      rw [Ty.render] at hf ⊢
      exact parseTy_letter (isLetter_code k) (letterTy_code k) rest hf
  | .str, _, rest, fuel, _, hf => by
      rw [Ty.render] at hf ⊢
      exact parseTy_letter (by unfold IsLetter; decide) rfl rest hf
  | .objectPath, _, rest, fuel, _, hf => by
      rw [Ty.render] at hf ⊢
      exact parseTy_letter (by unfold IsLetter; decide) rfl rest hf
  | .signature, _, rest, fuel, _, hf => by
      rw [Ty.render] at hf ⊢
      exact parseTy_letter (by unfold IsLetter; decide) rfl rest hf
  | .variant, _, rest, fuel, _, hf => by
      rw [Ty.render] at hf ⊢
      exact parseTy_letter (by unfold IsLetter; decide) rfl rest hf
  | .array t, _, rest, fuel, hwf, hf => by
      rw [Ty.WF] at hwf
      simp only [Ty.render, List.length_cons] at hf
      obtain ⟨fuel, rfl⟩ : ∃ m, fuel = m + 1 := ⟨fuel - 1, by omega⟩
      have ht := parseTy_render t true rest fuel hwf (by omega)
      simp only [Ty.render, List.cons_append, parseTy, if_true, ht,
        Option.map_some]
  | .struct ts, _, rest, fuel, hwf, hf => by
      rw [Ty.WF] at hwf
      simp only [Ty.render, List.length_cons, List.length_append,
        List.length_nil] at hf
      obtain ⟨fuel, rfl⟩ : ∃ m, fuel = m + 1 := ⟨fuel - 1, by omega⟩
      have hts := parseTys_renderAll ts (')'.toUInt8 :: rest) fuel hwf.2
        (Or.inr ⟨_, _, rfl, Or.inl rfl⟩) (by omega)
      have hemp : ts.isEmpty = false := by
        rw [List.isEmpty_eq_false_iff]
        exact hwf.1
      have hc : ('('.toUInt8 = 'a'.toUInt8) = False := by decide
      simp only [Ty.render, List.cons_append, List.append_assoc,
        List.nil_append, parseTy, hc, if_false, if_true, hts,
        Option.bind_some, hemp, Bool.false_eq_true, closing,
        Option.map_some]
  | .dictEntry k v, _, rest, fuel, hwf, hf => by
      rw [Ty.WF] at hwf
      simp only [Ty.render, List.length_cons, List.length_append,
        List.length_nil] at hf
      have hklen := render_length_pos k
      have hvlen := render_length_pos v
      have hkwf : k.WF false := by
        have hb := hwf.2.1
        cases k with
        | fixed k => simp only [Ty.WF]
        | str => simp only [Ty.WF]
        | objectPath => simp only [Ty.WF]
        | signature => simp only [Ty.WF]
        | variant => exact absurd hb id
        | array t => exact absurd hb id
        | struct ts => exact absurd hb id
        | dictEntry k v => exact absurd hb id
      obtain ⟨fuel, rfl⟩ : ∃ m, fuel = m + 3 := ⟨fuel - 3, by omega⟩
      have hkp := parseTy_render k false
        (v.render ++ '}'.toUInt8 :: rest) (fuel + 1) hkwf (by omega)
      have hvp := parseTy_render v false ('}'.toUInt8 :: rest) fuel hwf.2.2
        (by omega)
      have hnil : parseTys fuel ('}'.toUInt8 :: rest)
          = some ([], '}'.toUInt8 :: rest) :=
        parseTys_nil (Or.inr ⟨_, _, rfl, Or.inr rfl⟩) (by omega)
      have hkvs := parseTys_cons hkp (parseTys_cons hvp hnil)
      have h1 : ('{'.toUInt8 = 'a'.toUInt8) = False := by decide
      have h2 : ('{'.toUInt8 = '('.toUInt8) = False := by decide
      simp only [Ty.render, List.cons_append, List.append_assoc,
        List.nil_append, parseTy, h1, h2, if_false, if_true, hkvs,
        Option.bind_some, closing, Option.map_some]

/-- Rendered types are read back up to a closing bracket or the end. -/
theorem parseTys_renderAll :
    ∀ (ts : List Ty) (rest : Bytes) (fuel : Nat), Ty.AllWF ts →
      Closed rest → (Ty.renderAll ts).length + 1 ≤ fuel →
      parseTys fuel (Ty.renderAll ts ++ rest) = some (ts, rest)
  | [], rest, fuel, _, hend, hf => by
      rw [Ty.renderAll] at hf ⊢
      exact parseTys_nil hend hf
  | t :: ts, rest, fuel, hwf, hend, hf => by
      rw [Ty.AllWF] at hwf
      simp only [Ty.renderAll, List.length_append] at hf
      have hlen := render_length_pos t
      obtain ⟨fuel, rfl⟩ : ∃ m, fuel = m + 1 := ⟨fuel - 1, by omega⟩
      have ht := parseTy_render t false (Ty.renderAll ts ++ rest) fuel hwf.1
        (by omega)
      have hts := parseTys_renderAll ts rest fuel hwf.2 hend (by omega)
      rw [Ty.renderAll, List.append_assoc]
      exact parseTys_cons ht hts

end

/-- A type that is written is read back. -/
theorem parseSingle_render {t : Ty} (h : t.WF false) :
    parseSingle t.render = some t := by
  have ht := parseTy_render t false [] t.render.length h (Nat.le_refl _)
  rw [List.append_nil] at ht
  rw [parseSingle, ht]

/-- The types of a signature are read back from it. -/
theorem parseSignature_renderAll {ts : List Ty} (h : Ty.AllWF ts) :
    parseSignature (Ty.renderAll ts) = some ts := by
  have hts := parseTys_renderAll ts [] ((Ty.renderAll ts).length + 1) h
    (Or.inl rfl) (Nat.le_refl _)
  rw [List.append_nil] at hts
  rw [parseSignature, hts]

-- ======================================================== values round trip

/-- Padding is skipped. -/
theorem skipPad_pad (a p : Nat) (bs : Bytes) :
    skipPad a p (pad a p ++ bs) = some bs := by
  have hp : (pad a p).isPrefixOf (pad a p ++ bs) = true := by
    rw [List.isPrefixOf_iff_prefix]
    exact List.prefix_append _ _
  rw [skipPad, if_pos hp, ← pad_length, List.drop_left]

/-- As many bytes as asked for are read off the front. -/
theorem readN_append {n : Nat} {bs rest : Bytes} (h : bs.length = n) :
    readN n (bs ++ rest) = some (bs, rest) := by
  subst h
  rw [readN, if_pos (by simp), List.take_left, List.drop_left]

/-- A string that is written is read back, with whatever follows it. -/
theorem readStr_strBytes (e : Endian) {s : Text} (h : IsStr s)
    (rest : Bytes) : readStr e (strBytes e s ++ rest) = some (s, rest) := by
  obtain ⟨hutf, hnul, hlen⟩ := h
  have hnat : e.nat (e.bytes 4 s.length) = s.length := by
    refine e.nat_bytes ?_
    norm_num
    omega
  have hc : s.contains 0 = false := by
    rw [List.contains_eq_mem, decide_eq_false_iff_not]
    exact hnul
  simp only [readStr, strBytes, List.append_assoc]
  rw [readN_append (e.bytes_length 4 s.length)]
  simp only [Option.bind_eq_bind, Option.bind_some, hnat]
  rw [readN_append rfl]
  simp only [Option.bind_some, List.cons_append, List.nil_append, readNul,
    if_true, hutf, hc, Bool.not_false, Bool.and_self]

/-- A signature is read back from its bytes. -/
theorem readSig_sigBytes {sig : Bytes} (h : sig.length ≤ 255)
    (rest : Bytes) : readSig (sigBytes sig ++ rest) = some (sig, rest) := by
  have hn : (UInt8.ofNat sig.length).toNat = sig.length := by
    rw [UInt8.toNat_ofNat']
    omega
  simp only [sigBytes, List.cons_append, List.append_assoc, readSig, hn]
  rw [readN_append rfl]
  simp only [Option.bind_eq_bind, Option.bind_some, List.nil_append,
    readNul, if_true]

/-- A valid value takes at least one byte, wherever it stands. -/
theorem marshal_length_pos (e : Endian) :
    ∀ (v : Value) (n : Nest) (p q : Nat), Valid e n p v →
      1 ≤ (marshal e q v).length
  | .fixed k m, _, _, q, _ => by
      have hk : 1 ≤ k.size := by
        cases k <;> decide
      simp only [marshal, List.length_append, Endian.bytes_length]
      omega
  | .str s, _, _, q, _ => by
      simp only [marshal, List.length_append, strBytes_length]
      omega
  | .objectPath s, _, _, q, _ => by
      simp only [marshal, List.length_append, strBytes_length]
      omega
  | .signature ts, _, _, q, _ => by
      simp only [marshal, sigBytes_length]
      omega
  | .variant v, _, _, q, _ => by
      simp only [marshal, List.length_append, sigBytes_length]
      omega
  | .array t vs, _, _, q, _ => by
      simp only [marshal, List.length_append, Endian.bytes_length]
      omega
  | .struct [], _, _, q, h => by
      rw [Valid] at h
      exact absurd rfl h.2.1
  | .struct (v :: vs), n, p, q, h => by
      rw [Valid, ValidAll] at h
      have hv := marshal_length_pos e v _ _ (alignUp 8 q) h.2.2.1
      simp only [marshal, marshalAll, List.length_append]
      omega
  | .dictEntry k v, n, p, q, h => by
      rw [Valid] at h
      have hk := marshal_length_pos e k _ _ (alignUp 8 q) h.2.2.1
      simp only [marshal, List.length_append]
      omega

mutual

/-- A valid value is read back, whatever follows it. The budget `d` for
variants covers the containers still allowed below `n`. -/
theorem unmarshalWith_marshal (e : Endian) :
    ∀ (v : Value) (n : Nest) (p d : Nat) (rest : Bytes), Valid e n p v →
      64 ≤ n.containers + d →
      unmarshalWith e (unmarshal e d) v.typeOf p (marshal e p v ++ rest)
        = some (v, rest)
  | .fixed k m, n, p, d, rest, h, _ => by
      rw [Valid] at h
      have hn := e.nat_bytes h.1
      have hb : (decide (k = .boolean) && decide (1 < m)) = false := by
        by_cases hk : k = .boolean
        · have := h.2 hk
          simp [hk]
          omega
        · simp [hk]
      simp only [Value.typeOf, unmarshalWith, marshal, List.append_assoc,
        skipPad_pad, Option.bind_eq_bind, Option.bind_some,
        readN_append (e.bytes_length k.size m), hn, hb, Bool.false_eq_true,
        if_false]
  | .str s, n, p, d, rest, h, _ => by
      rw [Valid] at h
      simp only [Value.typeOf, unmarshalWith, marshal, List.append_assoc,
        skipPad_pad, Option.bind_eq_bind, Option.bind_some,
        readStr_strBytes e h]
  | .objectPath s, n, p, d, rest, h, _ => by
      rw [Valid] at h
      simp only [Value.typeOf, unmarshalWith, marshal, List.append_assoc,
        skipPad_pad, Option.bind_eq_bind, Option.bind_some,
        readStr_strBytes e h.1, h.2, if_true]
  | .signature ts, n, p, d, rest, h, _ => by
      rw [Valid] at h
      simp only [Value.typeOf, unmarshalWith, marshal,
        readSig_sigBytes h.2, Option.bind_eq_bind, Option.bind_some,
        parseSignature_renderAll h.1]
  | .variant v, n, p, d, rest, h, hd => by
      rw [Valid] at h
      obtain ⟨hok, hwf, hlen, hv⟩ := h
      have hc : n.containers + 1 ≤ 64 := hok.2.2
      obtain ⟨d, rfl⟩ : ∃ m, d = m + 1 := ⟨d - 1, by omega⟩
      have hd' : 64 ≤ n.inVariant.containers + d := by
        show 64 ≤ n.containers + 1 + d
        omega
      have hin := unmarshalWith_marshal e v n.inVariant _ d rest hv hd'
      simp only [Value.typeOf, unmarshalWith, marshal, List.append_assoc,
        readSig_sigBytes hlen, Option.bind_eq_bind, Option.bind_some,
        parseSingle_render hwf, unmarshal, hin]
  | .array t vs, n, p, d, rest, h, hd => by
      rw [Valid] at h
      obtain ⟨-, -, hty, hlen, hvs⟩ := h
      have hd' : 64 ≤ n.inArray.containers + d := by
        show 64 ≤ n.containers + 1 + d
        omega
      have hin := readElems_marshalAll e vs n.inArray _ d t _ hvs hd' hty
        (Nat.le_refl _)
      have hn := e.nat_bytes (k := 4) (n := (marshalAll e
        (alignUp t.align (alignUp 4 p + 4)) vs).length) (by
          norm_num
          omega)
      simp only [Value.typeOf, unmarshalWith, marshal, List.append_assoc,
        skipPad_pad, Option.bind_eq_bind, Option.bind_some,
        readN_append (e.bytes_length 4 _), hn, readN_append rfl, hin]
  | .struct vs, n, p, d, rest, h, hd => by
      rw [Valid] at h
      have hd' : 64 ≤ n.inStruct.containers + d := by
        show 64 ≤ n.containers + 1 + d
        omega
      have hin := unmarshalSeq_marshalAll e vs n.inStruct _ d rest h.2.2 hd'
      simp only [Value.typeOf, unmarshalWith, marshal, List.append_assoc,
        skipPad_pad, Option.bind_eq_bind, Option.bind_some, hin]
  | .dictEntry k v, n, p, d, rest, h, hd => by
      rw [Valid] at h
      obtain ⟨-, -, hk, hv⟩ := h
      have hd' : 64 ≤ n.inStruct.containers + d := by
        show 64 ≤ n.containers + 1 + d
        omega
      have hkr := unmarshalWith_marshal e k n.inStruct _ d
        (marshal e (alignUp 8 p + (marshal e (alignUp 8 p) k).length) v
          ++ rest) hk hd'
      have hvr := unmarshalWith_marshal e v n.inStruct _ d rest hv hd'
      have hpos : ∀ a b : Bytes, (a ++ b).length - b.length = a.length := by
        intro a b
        simp
      simp only [Value.typeOf, unmarshalWith, marshal, List.append_assoc,
        skipPad_pad, Option.bind_eq_bind, Option.bind_some, hkr, hpos, hvr]

/-- Valid values are read back one after the other. -/
theorem unmarshalSeq_marshalAll (e : Endian) :
    ∀ (vs : List Value) (n : Nest) (p d : Nat) (rest : Bytes),
      ValidAll e n p vs → 64 ≤ n.containers + d →
      unmarshalSeq e (unmarshal e d) (Value.typesOf vs) p
        (marshalAll e p vs ++ rest) = some (vs, rest)
  | [], n, p, d, rest, _, _ => by
      simp only [Value.typesOf, unmarshalSeq, marshalAll, List.nil_append]
  | v :: vs, n, p, d, rest, h, hd => by
      rw [ValidAll] at h
      have hv := unmarshalWith_marshal e v n p d
        (marshalAll e (p + (marshal e p v).length) vs ++ rest) h.1 hd
      have hvs := unmarshalSeq_marshalAll e vs n _ d rest h.2 hd
      have hpos : ∀ a b : Bytes, (a ++ b).length - b.length = a.length := by
        intro a b
        simp
      simp only [Value.typesOf, unmarshalSeq, marshalAll, List.append_assoc,
        hv, Option.bind_eq_bind, Option.bind_some, hpos, hvs]

/-- The elements of an array are read back. -/
theorem readElems_marshalAll (e : Endian) :
    ∀ (vs : List Value) (n : Nest) (p d : Nat) (t : Ty) (fuel : Nat),
      ValidAll e n p vs → 64 ≤ n.containers + d →
      (∀ v ∈ vs, v.typeOf = t) → (marshalAll e p vs).length ≤ fuel →
      readElems (fun p bs => unmarshalWith e (unmarshal e d) t p bs) fuel p
        (marshalAll e p vs) = some vs
  | [], n, p, d, t, fuel, _, _, _, _ => by
      rw [marshalAll]
      cases fuel <;> rfl
  | v :: vs, n, p, d, t, fuel, h, hd, hty, hf => by
      rw [ValidAll] at h
      have hpos := marshal_length_pos e v n p p h.1
      simp only [marshalAll, List.length_append] at hf
      obtain ⟨fuel, rfl⟩ : ∃ m, fuel = m + 1 := ⟨fuel - 1, by omega⟩
      have hv := unmarshalWith_marshal e v n p d
        (marshalAll e (p + (marshal e p v).length) vs) h.1 hd
      rw [hty v List.mem_cons_self] at hv
      have hvs := readElems_marshalAll e vs n _ d t fuel h.2 hd
        (fun w hw => hty w (List.mem_cons_of_mem _ hw)) (by omega)
      simp only [marshalAll]
      obtain ⟨b, bs, hb⟩ : ∃ b bs, marshal e p v = b :: bs := by
        cases hm : marshal e p v with
        | nil =>
            rw [hm] at hpos
            simp at hpos
        | cons b bs => exact ⟨b, bs, rfl⟩
      rw [hb] at hv hvs ⊢
      simp only [List.cons_append] at hv ⊢
      have hlen : (b :: (bs ++ marshalAll e (p + (b :: bs).length) vs)).length
          - (marshalAll e (p + (b :: bs).length) vs).length
          = (b :: bs).length := by
        simp only [List.length_cons, List.length_append]
        omega
      simp only [readElems, hv, Option.bind_eq_bind, Option.bind_some, hlen,
        hvs]

end

-- ======================================================== fields round trip

/-- A header field is a struct of a byte and a variant. -/
theorem marshalField_eq_marshal (e : Endian) (p : Nat) (f : Field) :
    marshalField e p f
      = marshal e p (.struct [.fixed .byte f.1.toNat, .variant f.2]) := by
  have hone : ∀ q, pad 1 q = [] := fun q =>
    pad_eq_nil isAlign_one (Nat.mod_one q)
  have hbyte : e.bytes 1 f.1.toNat = [f.1] := by
    cases e <;> simp [Endian.bytes, leBytes]
  have hq : alignUp 8 p + 1 + (f.2.typeOf.render.length + 2)
      = alignUp 8 p + (f.2.typeOf.render.length + 3) := by omega
  simp only [marshalField, marshal, marshalAll, Fixed.size, hone,
    List.nil_append, hbyte, List.length_singleton, List.append_nil, hq,
    List.cons_append]

/-- A valid header field is read back. -/
theorem readField_marshalField (e : Endian) (p : Nat) (f : Field)
    (h : ValidField e p f) (rest : Bytes) :
    readField e p (marshalField e p f ++ rest) = some (f, rest) := by
  obtain ⟨hwf, hlen, hv⟩ := h
  have hbyte : (marshal e (alignUp 8 p)
      (.fixed .byte f.1.toNat)).length = 1 := by
    simp only [marshal, List.length_append, pad_length, Endian.bytes_length,
      Fixed.size]
    rw [alignUp_eq_self isAlign_one (Nat.mod_one _)]
    omega
  have hpos : alignUp 8 p + 1 + (f.2.typeOf.render.length + 2)
      = alignUp 8 p + (f.2.typeOf.render.length + 3) := by omega
  have hvalid : Valid e ⟨1, 0, 1⟩ p
      (.struct [.fixed .byte f.1.toNat, .variant f.2]) := by
    simp only [Valid, ValidAll, hbyte, hpos, and_true]
    refine ⟨by simp [Nest.inStruct, Nest.Ok], by simp, ⟨?_, by simp⟩,
      by simp [Nest.inStruct, Nest.inVariant, Nest.Ok], hwf, hlen, hv⟩
    exact f.1.toNat_lt
  have hread := unmarshalWith_marshal e _ ⟨1, 0, 1⟩ p 63 rest hvalid
    (by decide)
  rw [← marshalField_eq_marshal] at hread
  simp only [Value.typeOf, Value.typesOf] at hread
  simp only [readField, hread, Option.bind_eq_bind,
    Option.bind_some, UInt8.ofNat_toNat]

/-- Fields that are written are read back, given fuel for their bytes. -/
theorem readFieldsFrom_marshalFields (e : Endian) (fs : List Field) :
    ∀ (p fuel : Nat), ValidFields e p fs →
      (marshalFields e p fs).length ≤ fuel →
      readFieldsFrom e fuel p (marshalFields e p fs) = some fs := by
  induction fs with
  | nil =>
      intro p fuel _ _
      rw [marshalFields]
      cases fuel <;> rfl
  | cons f fs ih =>
      intro p fuel h hf
      rw [ValidFields] at h
      simp only [marshalFields, List.length_append] at hf
      obtain ⟨b, bs, hb⟩ : ∃ b bs, marshalField e p f = b :: bs := by
        cases hm : marshalField e p f with
        | nil =>
            have hlen := congrArg List.length hm
            simp only [marshalField, List.length_append, List.length_cons,
              List.length_nil] at hlen
            omega
        | cons b bs => exact ⟨b, bs, rfl⟩
      have hlen : (marshalField e p f).length = bs.length + 1 := by
        rw [hb, List.length_cons]
      obtain ⟨fuel, rfl⟩ : ∃ m, fuel = m + 1 := ⟨fuel - 1, by omega⟩
      have hread := readField_marshalField e p f h.1
        (marshalFields e (p + (marshalField e p f).length) fs)
      have hrest := ih _ fuel h.2 (by omega)
      have hpos : (marshalField e p f ++ marshalFields e
          (p + (marshalField e p f).length) fs).length
          - (marshalFields e (p + (marshalField e p f).length) fs).length
          = (marshalField e p f).length := by
        rw [List.length_append, Nat.add_sub_cancel]
      rw [marshalFields]
      generalize marshalFields e (p + (marshalField e p f).length) fs = tl
        at hread hrest hpos ⊢
      rw [hb, List.cons_append] at hread hpos ⊢
      rw [hb] at hrest
      simp only [readFieldsFrom, hread, Option.bind_eq_bind,
        Option.bind_some, hpos, hrest]

/-- Valid header fields are read back. -/
theorem readFields_marshalFields (e : Endian) (p : Nat) (fs : List Field)
    (h : ValidFields e p fs) :
    readFields e p (marshalFields e p fs) = some fs :=
  readFieldsFrom_marshalFields e fs p _ h (Nat.le_refl _)

end DbusRouter.Wire
