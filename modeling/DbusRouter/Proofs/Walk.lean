/-
One turn of the walk of `rewriteHeaderField`, over the bytes of valid header
fields.

A turn reads the letter of a field's type a second time, as many bytes
behind the first letter of the signature as the value has padding
(`second_letter`). Where the value needs none, that is the first letter
again; otherwise it is another letter of the signature, or a zero. So a turn
gets past the values that are `passable` (`walkField_pass`), ends at those
that the walk `stops` at (`walkField_stop`), and takes the others for values
of another type.

# One and two letters

The value of a one-letter signature starts four bytes into its field, so
only an 8-aligned one is padded, and so is the value of a two-letter
signature. The padding is longer than the signature, and the second reading
finds a zero. With signatures of one or two letters (`Plain`) no value is
taken for another, and `locate` is what the walk does on decoded fields.
-/
import Mathlib.Data.List.GetD
import DbusRouter.Proofs.Frame

namespace DbusRouter.Model

open Wire Lib

-- ============================================================= on fields

/-- A value of a basic type. -/
def isBasic : Value → Bool
  | .fixed _ _ | .str _ | .objectPath _ | .signature _ => true
  | _ => false

/-- A value the walk gets past. -/
def skippable : Value → Bool
  | .fixed k _ => k.size != 8
  | .str _ | .objectPath _ | .signature _ => true
  | .variant v => isBasic v
  | _ => false

/-- The letter read for a value of a type: as many bytes behind the first
letter of the signature as the value has padding. -/
def secondLetter (t : Ty) : UInt8 :=
  t.render.getD (alignUp t.align (t.render.length + 3)
    - (t.render.length + 3)) 0

/-- A value behind which the walk finds the next field. It reads an array
right when no padding stands before its length, and skips the length and as
many bytes, so it falls short of elements that are aligned to 8 by the
padding before the first. -/
def passable (e : Endian) : Value → Bool
  | .array t vs =>
      t.render.length % 4 == 0
        && (t.align != 8 || t.render.length % 8 == 0
          || (marshalAll e 0 vs).length % 8 == 0
          || decide (4 < (marshalAll e 0 vs).length % 8))
  | v => skippable v

/-- The letters the walk can skip a value by. -/
def skipLetters : Bytes := utf8 "sogavuibhnqxtdy"

/-- A value at which the walk ends. -/
def stops : Value → Bool
  | .variant v => !isBasic v
  | v => !skipLetters.contains (secondLetter v.typeOf)

/-- The walk over decoded fields: the first field with a code, between
what stands before and after it. -/
def locate (code : UInt8) :
    List Field → Option (List Field × Value × List Field)
  | [] => none
  | f :: fs =>
      if f.1 = code then some ([], f.2, fs)
      else if skippable f.2 then
        (locate code fs).map fun (pre, v, post) => (f :: pre, v, post)
      else none

/-- Fields the walk reads right: on the way to the wanted field it meets
one-letter and two-letter signatures only, and that field is a string. -/
def Plain (code : UInt8) : List Field → Prop
  | [] => True
  | f :: fs =>
      if f.1 = code then ∃ s, f.2 = .str s
      else f.2.typeOf.render.length ≤ 2 ∧ (skippable f.2 → Plain code fs)

/-- The walk finds the first field with the code. -/
theorem locate_eq_some {code : UInt8} {fs pre post : List Field} {v : Value}
    (h : locate code fs = some (pre, v, post)) :
    fs = pre ++ (code, v) :: post ∧ ∀ f ∈ pre, f.1 ≠ code := by
  induction fs generalizing pre with
  | nil => cases h
  | cons f fs ih =>
      unfold locate at h
      split at h
      next hc =>
        cases h
        exact ⟨by rw [← hc]; rfl, by simp⟩
      next hc =>
        split at h
        next =>
          rw [Option.map_eq_some_iff] at h
          obtain ⟨⟨pre', v', post'⟩, hl, heq⟩ := h
          cases heq
          obtain ⟨rfl, hpre⟩ := ih hl
          refine ⟨rfl, ?_⟩
          intro g hg
          rcases List.mem_cons.mp hg with rfl | hg
          · exact hc
          · exact hpre g hg
        next => cases h

/-- What a plain walk finds is a string. -/
theorem Plain.locate_str {code : UInt8} {fs pre post : List Field}
    {v : Value} (hp : Plain code fs)
    (h : locate code fs = some (pre, v, post)) : ∃ s, v = .str s := by
  induction fs generalizing pre with
  | nil => cases h
  | cons f fs ih =>
      unfold locate at h
      unfold Plain at hp
      split at h
      next hc =>
        rw [if_pos hc] at hp
        cases h
        exact hp
      next hc =>
        rw [if_neg hc] at hp
        split at h
        next hs =>
          rw [Option.map_eq_some_iff] at h
          obtain ⟨⟨pre', v', post'⟩, hl, heq⟩ := h
          cases heq
          exact ih (hp.2 hs) hl
        next => cases h

/-- What stands before the field found is skippable. -/
theorem locate_pre {code : UInt8} {fs pre post : List Field} {v : Value}
    (h : locate code fs = some (pre, v, post)) :
    ∀ f ∈ pre, skippable f.2 = true := by
  induction fs generalizing pre with
  | nil => cases h
  | cons f fs ih =>
      unfold locate at h
      split at h
      next =>
        cases h
        simp
      next =>
        split at h
        next hs =>
          rw [Option.map_eq_some_iff] at h
          obtain ⟨⟨pre', v', post'⟩, hl, heq⟩ := h
          cases heq
          intro g hg
          rcases List.mem_cons.mp hg with rfl | hg
          · exact hs
          · exact ih hl g hg
        next => cases h

theorem passable_of_skippable {e : Endian} {v : Value}
    (h : skippable v = true) : passable e v = true := by
  cases v with
  | array t vs => cases h
  | fixed k m | str s | objectPath s | signature ts | variant v | struct vs
    | dictEntry k v => exact h

/-- With a signature of one or two letters, what is not skippable stops the
walk: its padding is longer than the signature. -/
theorem stops_of_short {e : Endian} {p : Nat} {f : Field}
    (hv : ValidField e p f) (hs : skippable f.2 = false)
    (hshort : f.2.typeOf.render.length ≤ 2) : stops f.2 = true := by
  have hzero : secondLetter f.2.typeOf = 0 → ¬(0 : UInt8) ∈ skipLetters →
      skipLetters.contains (secondLetter f.2.typeOf) = false := by
    intro h0 hnot
    rw [h0, List.contains_eq_mem, decide_eq_false hnot]
  have hnot : ¬(0 : UInt8) ∈ skipLetters := by decide
  obtain ⟨code', v⟩ := f
  simp only at hs hshort hzero
  cases v with
  | fixed k m =>
      have hk : k.size = 8 := by
        simpa [skippable] using hs
      have h0 : secondLetter (Value.fixed k m).typeOf = 0 := by
        rw [Value.typeOf, secondLetter, Ty.render]
        show [k.code].getD (alignUp k.size 4 - 4) 0 = 0
        rw [hk]
        rfl
      show (!skipLetters.contains _) = true
      rw [hzero h0 hnot]
      rfl
  | variant v =>
      show (!isBasic v) = true
      rw [show isBasic v = false from hs]
      rfl
  | array t vs =>
      have hpos := render_length_pos t
      have h0 : secondLetter (Value.array t vs).typeOf = 0 := by
        rw [Value.typeOf, Ty.render, List.length_cons] at hshort
        rw [Value.typeOf, secondLetter, Ty.render, List.length_cons]
        have hone : t.render.length = 1 := by omega
        rw [hone]
        show ('a'.toUInt8 :: t.render).getD (alignUp 4 5 - 5) 0 = 0
        refine List.getD_eq_default _ _ ?_
        rw [List.length_cons, hone]
        decide
      show (!skipLetters.contains _) = true
      rw [hzero h0 hnot]
      rfl
  | struct vs =>
      have hwf := hv.1
      rw [Value.typeOf, Ty.WF] at hwf
      rw [Value.typeOf, Ty.render, List.length_cons, List.length_append]
        at hshort
      cases hts : Value.typesOf vs with
      | nil => exact absurd hts hwf.1
      | cons t ts =>
          have hpos := render_length_pos t
          rw [hts, Ty.renderAll, List.length_append] at hshort
          simp only [List.length_singleton] at hshort
          omega
  | dictEntry k v =>
      have hwf := hv.1
      rw [Value.typeOf, Ty.WF] at hwf
      cases hwf.1
  | str s | objectPath s | signature ts => cases hs

/-- Where nothing is found in plain fields, all are skippable and none has
the code, or one stops the walk. -/
theorem Plain.locate_none {e : Endian} {code : UInt8} {fs : List Field}
    {p : Nat} (hp : Plain code fs) (hv : ValidFields e p fs)
    (h : locate code fs = none) :
    (∀ f ∈ fs, f.1 ≠ code ∧ skippable f.2 = true)
      ∨ ∃ pre f post, fs = pre ++ f :: post
        ∧ (∀ g ∈ pre, g.1 ≠ code ∧ skippable g.2 = true)
        ∧ f.1 ≠ code ∧ stops f.2 = true := by
  induction fs generalizing p with
  | nil => exact Or.inl (by simp)
  | cons f fs ih =>
      unfold locate at h
      unfold Plain at hp
      rw [ValidFields] at hv
      by_cases hc : f.1 = code
      · rw [if_pos hc] at h
        cases h
      · rw [if_neg hc] at h hp
        by_cases hs : skippable f.2 = true
        · rw [if_pos hs, Option.map_eq_none_iff] at h
          rcases ih (hp.2 hs) hv.2 h with hall | ⟨pre, g, post, rfl, hpre, hg⟩
          · refine Or.inl fun g hg => ?_
            rcases List.mem_cons.mp hg with rfl | hg
            · exact ⟨hc, hs⟩
            · exact hall g hg
          · refine Or.inr ⟨f :: pre, g, post, rfl, fun k hk => ?_, hg⟩
            rcases List.mem_cons.mp hk with rfl | hk
            · exact ⟨hc, hs⟩
            · exact hpre k hk
        · exact Or.inr ⟨[], f, fs, rfl, by simp, hc,
            stops_of_short hv.1 (by simpa using hs) hp.1⟩

-- ============================================================== on bytes

section walk

variable {raw : Bytes} {e : Endian} {fieldsEnd : Nat}

theorem alignPos_ok {a n : Nat} (ha : IsAlign a) (hn : n < 2 ^ 63) :
    alignPos a n = .ok (alignUp a n) := by
  have hpos : n + (a - 1) = n + a - 1 := by
    rcases ha with rfl | rfl | rfl | rfl <;> omega
  have hlt : n + (a - 1) < 2 ^ 64 := by
    rcases ha with rfl | rfl | rfl | rfl <;> omega
  unfold alignPos alignUp
  rw [addUsize_ok hlt, hpos]
  rfl

/-- The first letter of a signature tells the alignment. -/
theorem valueAlign_render {t : Ty} {c : UInt8} {r : Bytes}
    (h : t.render = c :: r) : valueAlign c = t.align := by
  cases t with
  | fixed k =>
      rw [Ty.render] at h
      cases h
      cases k <;> rfl
  | str | objectPath | signature | variant | array | struct | dictEntry =>
      rw [Ty.render] at h
      cases h
      rfl

theorem isAlign_valueAlign (c : UInt8) : IsAlign (valueAlign c) := by
  unfold valueAlign IsAlign
  split_ifs <;> simp

theorem skipString_at {s : Text} {p : Nat} (h : At raw p (strBytes e s))
    (hs : s.length < 2 ^ 32) (hend : p + (s.length + 5) ≤ fieldsEnd)
    (hraw : raw.length < 2 ^ 62) :
    skipString raw e fieldsEnd p = .ok (.next (p + (s.length + 5))) := by
  have hle := h.le
  rw [strBytes_length] at hle
  unfold skipString
  rw [addUsize_ok (by omega), Outcome.ok_bind, if_neg (by omega),
    readU32At_of_at h.left hs, Outcome.ok_bind, addUsize_ok (by omega),
    Outcome.ok_bind]
  congr 2
  omega

theorem skipSignature_at {sig : Bytes} {p : Nat}
    (h : At raw p (sigBytes sig)) (hs : sig.length ≤ 255)
    (hend : p + (sig.length + 2) ≤ fieldsEnd) (hraw : raw.length < 2 ^ 62) :
    skipSignature raw fieldsEnd p = .ok (.next (p + (sig.length + 2))) := by
  have hle := h.le
  rw [sigBytes_length] at hle
  have hn : (UInt8.ofNat sig.length).toNat = sig.length := by
    rw [UInt8.toNat_ofNat']
    omega
  unfold skipSignature
  rw [if_neg (by omega), At.index h, Outcome.ok_bind, hn,
    addUsize_ok (by omega), Outcome.ok_bind]
  congr 2
  omega

theorem skipBytes_ok {n p : Nat} (h : p + n < 2 ^ 64) :
    skipBytes n p = .ok (.next (p + n)) := by
  unfold skipBytes
  rw [addUsize_ok h]
  rfl

theorem fixedWidth_code (k : Fixed) : fixedWidth k.code = some k.size := by
  cases k <;> rfl

theorem code_not_text (k : Fixed) :
    ¬(k.code = 's'.toUInt8 ∨ k.code = 'o'.toUInt8) ∧ k.code ≠ 'g'.toUInt8
      := by
  cases k <;> decide

/-- A basic value is skipped by its letter. -/
theorem skipBasic_at {v : Value} {c : UInt8} {n : Nest} {p : Nat}
    (hb : isBasic v = true) (hc : v.typeOf.render = [c])
    (hv : Valid e n p v) (h : At raw p (marshal e p v))
    (hend : p + (marshal e p v).length ≤ fieldsEnd)
    (hraw : raw.length < 2 ^ 62) :
    skipVariantValue raw e fieldsEnd c (alignUp (valueAlign c) p)
      = .ok (.next (p + (marshal e p v).length)) := by
  have hle := h.le
  rw [valueAlign_render hc]
  cases v with
  | fixed k m =>
      rw [Value.typeOf, Ty.render] at hc
      cases hc
      rw [marshal] at h hend hle
      rw [List.length_append, pad_length, Endian.bytes_length] at hend hle
      have hup := le_alignUp k.isAlign p
      unfold skipVariantValue
      rw [if_neg (code_not_text k).1, if_neg (code_not_text k).2,
        fixedWidth_code]
      show skipBytes k.size (alignUp k.size p) = _
      rw [skipBytes_ok (by omega), marshal, List.length_append, pad_length,
        Endian.bytes_length]
      congr 2
      omega
  | str s | objectPath s =>
      rw [Value.typeOf, Ty.render] at hc
      cases hc
      have hs : s.length < 2 ^ 32 := by
        rw [Valid] at hv
        first | exact hv.2.2 | exact hv.1.2.2
      have hup := le_alignUp isAlign_four p
      rw [marshal] at h hend hle
      have hstr := h.right
      rw [pad_length, Nat.add_sub_cancel' hup] at hstr
      rw [List.length_append, pad_length, strBytes_length] at hend hle
      show skipString raw e fieldsEnd (alignUp 4 p) = _
      rw [skipString_at hstr hs (by omega) hraw, marshal,
        List.length_append, pad_length, strBytes_length]
      congr 2
      omega
  | signature ts =>
      rw [Value.typeOf, Ty.render] at hc
      cases hc
      rw [Valid] at hv
      rw [marshal] at h hend
      rw [sigBytes_length] at hend
      have hself : alignUp 1 p = p :=
        alignUp_eq_self isAlign_one (Nat.mod_one p)
      show skipSignature raw fieldsEnd (alignUp 1 p) = _
      rw [hself, skipSignature_at h hv.2 hend hraw, marshal, sigBytes_length]
  | variant v | array t vs | struct vs | dictEntry k v => cases hb

/-- Outside a variant a basic value is skipped the same way. -/
theorem skipValue_basic {v : Value} {c : UInt8} (hb : isBasic v = true)
    (hc : v.typeOf.render = [c]) (pos : Nat) :
    skipValue raw e fieldsEnd c pos
      = skipVariantValue raw e fieldsEnd c pos := by
  cases v with
  | fixed k m =>
      rw [Value.typeOf, Ty.render] at hc
      cases hc
      unfold skipValue skipVariantValue
      rw [fixedWidth_code]
  | str s | objectPath s | signature ts =>
      rw [Value.typeOf, Ty.render] at hc
      cases hc
      rfl
  | variant v | array t vs | struct vs | dictEntry k v => cases hb

theorem isBasic_render {v : Value} (hb : isBasic v = true) :
    ∃ c, v.typeOf.render = [c] := by
  cases v with
  | fixed k m => exact ⟨k.code, by rw [Value.typeOf, Ty.render]⟩
  | str s => exact ⟨_, by rw [Value.typeOf, Ty.render]⟩
  | objectPath s => exact ⟨_, by rw [Value.typeOf, Ty.render]⟩
  | signature ts => exact ⟨_, by rw [Value.typeOf, Ty.render]⟩
  | variant v | array t vs | struct vs | dictEntry k v => cases hb

/-- What a variant's bytes give the walk: the letter of what it holds and
where the signature ends. -/
theorem skipVariant_at {v : Value} {c : UInt8} {r : Bytes} {p : Nat}
    (hc : v.typeOf.render = c :: r) (hlen : v.typeOf.render.length ≤ 255)
    (h : At raw p (sigBytes v.typeOf.render))
    (hend : p + (v.typeOf.render.length + 2) ≤ fieldsEnd)
    (hraw : raw.length < 2 ^ 62) :
    skipVariant raw e fieldsEnd p
      = skipVariantValue raw e fieldsEnd c
          (alignUp (valueAlign c) (p + (v.typeOf.render.length + 2))) := by
  have hle := h.le
  rw [sigBytes_length] at hle
  have hn : (UInt8.ofNat v.typeOf.render.length).toNat
      = v.typeOf.render.length := by
    rw [UInt8.toNat_ofNat']
    omega
  have hpos : 0 < v.typeOf.render.length := by
    rw [hc]
    simp
  have hletter : At raw (p + 1) (c :: (r ++ [0])) := by
    have ht := At.tail h
    rw [hc] at ht
    exact ht
  have hsum : p + (1 + v.typeOf.render.length + 1)
      = p + (v.typeOf.render.length + 2) := by omega
  unfold skipVariant
  rw [if_neg (by omega), At.index h, Outcome.ok_bind, hn,
    addUsize_ok (by omega), Outcome.ok_bind, hsum, if_neg (by omega),
    if_pos hpos, At.index hletter, Outcome.ok_bind]
  show (alignPos (valueAlign c) (p + (v.typeOf.render.length + 2)) >>= _) = _
  rw [alignPos_ok (isAlign_valueAlign c) (by omega), Outcome.ok_bind]

theorem sigLetter_ok {sigLen pos : Nat} (h0 : 0 < sigLen)
    (hlen : sigLen ≤ 255) (hle : sigLen + 1 ≤ pos) :
    sigLetter raw (UInt8.ofNat sigLen) pos = index raw (pos - (sigLen + 1))
      := by
  have hn : (UInt8.ofNat sigLen).toNat = sigLen := by
    rw [UInt8.toNat_ofNat']
    omega
  unfold sigLetter
  rw [hn, if_pos h0, subUsize_ok hle, Outcome.ok_bind]

/-- Where the value of a field starts. -/
def valueStart (p : Nat) (f : Field) : Nat :=
  alignUp f.2.typeOf.align (alignUp 8 p + (f.2.typeOf.render.length + 3))

/-- The start of a turn: code, signature and the first reading of its
letter. -/
theorem walkField_head {code c : UInt8} {f : Field} {r rest : Bytes}
    {p : Nat} (hc : f.2.typeOf.render = c :: r)
    (hlen : f.2.typeOf.render.length ≤ 255)
    (h : At raw (alignUp 8 p)
      (f.1 :: (sigBytes f.2.typeOf.render ++ rest)))
    (hend : alignUp 8 p + (f.2.typeOf.render.length + 3) ≤ fieldsEnd)
    (hraw : raw.length < 2 ^ 62) :
    walkField raw e fieldsEnd code p
      = if f.1 = code then .ok (.found (valueStart p f))
        else index raw (valueStart p f - (f.2.typeOf.render.length + 1))
          >>= fun sig => skipValue raw e fieldsEnd sig (valueStart p f) := by
  have hle := h.le
  simp only [List.length_cons, List.length_append, sigBytes_length] at hle
  have hp := le_alignUp isAlign_eight p
  have hn : (UInt8.ofNat f.2.typeOf.render.length).toNat
      = f.2.typeOf.render.length := by
    rw [UInt8.toNat_ofNat']
    omega
  have hpos : 0 < f.2.typeOf.render.length := by
    rw [hc]
    simp
  have hsig := (At.tail h).left
  have hletter : At raw (alignUp 8 p + 1 + 1) (c :: (r ++ [0])) := by
    have ht := At.tail hsig
    rw [hc] at ht
    exact ht
  have hup := le_alignUp f.2.typeOf.isAlign
    (alignUp 8 p + (f.2.typeOf.render.length + 3))
  have hsum : alignUp 8 p + 1 + (1 + f.2.typeOf.render.length + 1)
      = alignUp 8 p + (f.2.typeOf.render.length + 3) := by omega
  have hback : alignUp 8 p + (f.2.typeOf.render.length + 3)
      - (f.2.typeOf.render.length + 1) = alignUp 8 p + 1 + 1 := by omega
  unfold walkField valueStart
  rw [alignPos_ok isAlign_eight (by omega), Outcome.ok_bind,
    if_neg (by omega), At.index h, Outcome.ok_bind, addUsize_ok (by omega),
    Outcome.ok_bind, if_neg (by omega), At.index hsig, Outcome.ok_bind, hn,
    addUsize_ok (by omega), Outcome.ok_bind, hsum,
    sigLetter_ok hpos hlen (by omega), hback, At.index hletter,
    Outcome.ok_bind, alignPos_ok (isAlign_valueAlign c) (by omega),
    Outcome.ok_bind, valueAlign_render hc, sigLetter_ok hpos hlen (by omega)]

/-- A field is its padding, its code, its signature and its value. -/
theorem field_at {f : Field} {p : Nat} (h : At raw p (marshalField e p f)) :
    At raw (alignUp 8 p) (f.1 :: (sigBytes f.2.typeOf.render
      ++ marshal e (alignUp 8 p + (f.2.typeOf.render.length + 3)) f.2)) := by
  have hup := le_alignUp isAlign_eight p
  have hr := At.right h
  rwa [pad_length, Nat.add_sub_cancel' hup] at hr

theorem value_at {f : Field} {p : Nat} (h : At raw p (marshalField e p f)) :
    At raw (alignUp 8 p + (f.2.typeOf.render.length + 3))
      (marshal e (alignUp 8 p + (f.2.typeOf.render.length + 3)) f.2) := by
  have hr := At.right (At.tail (field_at h))
  rw [sigBytes_length] at hr
  have hsum : alignUp 8 p + 1 + (f.2.typeOf.render.length + 2)
      = alignUp 8 p + (f.2.typeOf.render.length + 3) := by omega
  rwa [hsum] at hr

theorem field_end (f : Field) (p : Nat) :
    p + (marshalField e p f).length
      = alignUp 8 p + (f.2.typeOf.render.length + 3)
        + (marshal e (alignUp 8 p + (f.2.typeOf.render.length + 3))
            f.2).length := by
  have hup := le_alignUp isAlign_eight p
  simp only [marshalField, List.length_append, List.length_cons, pad_length,
    sigBytes_length]
  omega

/-- A value begins with its padding. -/
theorem marshal_eq_pad (e : Endian) (v : Value) (p : Nat) :
    ∃ bs, marshal e p v = pad v.typeOf.align p ++ bs := by
  cases v with
  | fixed k n => exact ⟨_, by rw [marshal]; rfl⟩
  | str s | objectPath s => exact ⟨_, by rw [marshal]; rfl⟩
  | array t vs => exact ⟨_, by rw [marshal]; rfl⟩
  | struct vs => exact ⟨_, by rw [marshal]; rfl⟩
  | dictEntry k v => exact ⟨_, by rw [marshal]; rfl⟩
  | signature ts | variant v =>
      exact ⟨_, by
        rw [Value.typeOf, show Ty.align _ = 1 from rfl,
          pad_eq_nil isAlign_one (Nat.mod_one p), List.nil_append]⟩

/-- Letters and zeros at an index. -/
theorem split_letters (sig : Bytes) (k : Nat) (bs : Bytes) :
    ∃ us vs, sig ++ (0 :: (zeros k ++ bs)) = us ++ (sig.getD k 0 :: vs)
      ∧ us.length = k := by
  by_cases hk : k < sig.length
  · refine ⟨sig.take k, sig.drop (k + 1) ++ (0 :: (zeros k ++ bs)), ?_, ?_⟩
    · have hsig : sig = sig.take k ++ sig[k] :: sig.drop (k + 1) := by
        rw [← List.drop_eq_getElem_cons hk, List.take_append_drop]
      rw [List.getD_eq_getElem _ _ hk]
      conv_lhs => rw [hsig]
      rw [List.append_assoc, List.cons_append]
    · rw [List.length_take]
      omega
  · have hzero : sig.getD k 0 = 0 := by
      rw [List.getD_eq_default _ _ (by omega)]
    have hsplit : (0 : UInt8) :: zeros k
        = zeros (k - sig.length) ++ (0 :: zeros sig.length) := by
      unfold zeros
      rw [← List.replicate_succ, ← List.replicate_succ,
        List.replicate_append_replicate]
      congr 1
      omega
    refine ⟨sig ++ zeros (k - sig.length), zeros sig.length ++ bs, ?_, ?_⟩
    · rw [hzero, List.append_assoc, ← List.cons_append, hsplit,
        List.append_assoc, List.cons_append]
    · rw [List.length_append, zeros_length]
      omega

/-- A field's value starts behind the padding that `secondLetter` counts. -/
theorem valueStart_eq (p : Nat) (f : Field) :
    valueStart p f = alignUp 8 p + (f.2.typeOf.render.length + 3)
      + (alignUp f.2.typeOf.align (f.2.typeOf.render.length + 3)
        - (f.2.typeOf.render.length + 3)) := by
  have hup := le_alignUp f.2.typeOf.isAlign (f.2.typeOf.render.length + 3)
  have hq := alignUp_mod isAlign_eight p
  have hshift := alignUp_add_mul f.2.typeOf.isAlign
    (f.2.typeOf.render.length + 3) (alignUp 8 p / 8)
  rw [Nat.mul_div_cancel' (Nat.dvd_of_mod_eq_zero hq)] at hshift
  unfold valueStart
  rw [Nat.add_comm (alignUp 8 p), hshift]
  omega

/-- The second reading. -/
theorem second_letter {f : Field} {p : Nat}
    (h : At raw p (marshalField e p f)) :
    (index raw (valueStart p f - (f.2.typeOf.render.length + 1)) :
      Result UInt8) = .ok (secondLetter f.2.typeOf) := by
  obtain ⟨bs, hbs⟩ := marshal_eq_pad e f.2
    (alignUp 8 p + (f.2.typeOf.render.length + 3))
  have hstart := valueStart_eq p f
  have hvalue : valueStart p f = alignUp f.2.typeOf.align
    (alignUp 8 p + (f.2.typeOf.render.length + 3)) := rfl
  have hfield := At.tail (At.tail (field_at h))
  rw [hbs, pad, ← hvalue, hstart, Nat.add_sub_cancel_left] at hfield
  unfold secondLetter
  generalize alignUp f.2.typeOf.align (f.2.typeOf.render.length + 3)
    - (f.2.typeOf.render.length + 3) = k at *
  obtain ⟨us, vs, hsplit, hlen⟩ := split_letters f.2.typeOf.render k bs
  have hletters : At raw (alignUp 8 p + 1 + 1)
      (us ++ (f.2.typeOf.render.getD k 0 :: vs)) := by
    rw [← hsplit]
    simpa using hfield
  have hat := At.right hletters
  rw [hlen] at hat
  have hsum : valueStart p f - (f.2.typeOf.render.length + 1)
      = alignUp 8 p + 1 + 1 + k := by omega
  rw [hsum]
  exact At.index hat

/-- A turn at a field with another code skips by the second letter. -/
theorem walkField_other {code : UInt8} {f : Field} {p : Nat}
    (hv : ValidField e p f) (hcode : f.1 ≠ code)
    (h : At raw p (marshalField e p f))
    (hend : p + (marshalField e p f).length ≤ fieldsEnd)
    (hraw : raw.length < 2 ^ 62) :
    walkField raw e fieldsEnd code p
      = skipValue raw e fieldsEnd (secondLetter f.2.typeOf)
          (valueStart p f) := by
  obtain ⟨c, r, hc, -⟩ := render_head f.2.typeOf
  have hle := field_end (e := e) f p
  rw [walkField_head hc hv.2.1 (field_at h) (by omega) hraw, if_neg hcode,
    second_letter h, Outcome.ok_bind]

/-- Without padding the second reading finds the first letter again. -/
theorem secondLetter_of_aligned {t : Ty} {c : UInt8} {r : Bytes}
    (hc : t.render = c :: r) (h : (t.render.length + 3) % t.align = 0) :
    secondLetter t = c := by
  unfold secondLetter
  rw [alignUp_eq_self t.isAlign h, Nat.sub_self, hc]
  rfl

theorem valueStart_of_aligned {f : Field} (p : Nat)
    (h : (f.2.typeOf.render.length + 3) % f.2.typeOf.align = 0) :
    valueStart p f = alignUp 8 p + (f.2.typeOf.render.length + 3) := by
  rw [valueStart_eq, alignUp_eq_self f.2.typeOf.isAlign h]
  omega

/-- A four-byte step keeps alignments up to 4. -/
theorem alignUp_self_of_le {a q : Nat} (ha : IsAlign a) (h8 : a ≠ 8)
    (hq : q % 8 = 0) : alignUp a (q + 4) = q + 4 := by
  refine alignUp_eq_self ha ?_
  rcases ha with rfl | rfl | rfl | rfl <;> omega

/-- A field with a skippable value is passed. -/
theorem walkField_skip {code : UInt8} {f : Field} {p : Nat}
    (hv : ValidField e p f) (hs : skippable f.2 = true) (hcode : f.1 ≠ code)
    (h : At raw p (marshalField e p f))
    (hend : p + (marshalField e p f).length ≤ fieldsEnd)
    (hraw : raw.length < 2 ^ 62) :
    walkField raw e fieldsEnd code p
      = .ok (.next (p + (marshalField e p f).length)) := by
  rw [walkField_other hv hcode h hend hraw]
  have hvalue := value_at h
  have hq := alignUp_mod isAlign_eight p
  obtain ⟨code', v⟩ := f
  obtain ⟨-, hlen, hval⟩ := hv
  rw [field_end] at hend ⊢
  by_cases hb : isBasic v = true
  · obtain ⟨c, hc⟩ := isBasic_render hb
    have hlen1 : v.typeOf.render.length = 1 := by rw [hc]; rfl
    have h8 : v.typeOf.align ≠ 8 := by
      cases v with
      | fixed k m =>
          intro h8
          simp only [skippable, bne_iff_ne] at hs
          exact hs h8
      | str s | objectPath s | signature ts =>
          rw [Value.typeOf]
          decide
      | variant v | array t vs | struct vs | dictEntry k v => cases hb
    have hfour : (v.typeOf.render.length + 3) % v.typeOf.align = 0 := by
      rw [hlen1]
      rcases v.typeOf.isAlign with ha | ha | ha | ha
      · rw [ha]
      · rw [ha]
      · rw [ha]
      · exact absurd ha h8
    have hstart := valueStart_of_aligned (f := (code', v)) p hfour
    have hself : alignUp (valueAlign c)
        (alignUp 8 p + (v.typeOf.render.length + 3))
          = alignUp 8 p + (v.typeOf.render.length + 3) := by
      rw [valueAlign_render hc]
      exact hstart
    have hskip := skipBasic_at hb hc hval hvalue hend hraw
    rw [hself] at hskip
    rw [secondLetter_of_aligned hc hfour, hstart, skipValue_basic hb hc]
    exact hskip
  · -- only a variant is skippable without being basic
    cases v with
    | variant v =>
        have hbv : isBasic v = true := hs
        obtain ⟨c, hc⟩ := isBasic_render hbv
        have hsig : (Value.variant v).typeOf.render = ['v'.toUInt8] := by
          rw [Value.typeOf, Ty.render]
        have hone : ((Value.variant v).typeOf.render.length + 3)
            % (Value.variant v).typeOf.align = 0 := Nat.mod_one _
        have hwhole := hvalue
        rw [marshal] at hwhole
        rw [Valid] at hval
        obtain ⟨-, -, hilen, hinner⟩ := hval
        have hend' := hend
        rw [marshal, List.length_append, sigBytes_length] at hend'
        have hin := hwhole.right
        rw [sigBytes_length] at hin
        rw [secondLetter_of_aligned hsig hone,
          valueStart_of_aligned (f := (code', .variant v)) p hone]
        show skipVariant raw e fieldsEnd _ = _
        rw [skipVariant_at hc hilen hwhole.left (by simp only at hend' ⊢; omega)
          hraw, skipBasic_at hbv hc hinner hin (by simp only at hend' ⊢; omega)
          hraw, marshal, List.length_append, sigBytes_length]
        congr 2
        omega
    | fixed k m | str s | objectPath s | signature ts =>
        exact absurd rfl hb
    | array t vs | struct vs | dictEntry k v => cases hs

/-- Skipping an array by its length. -/
theorem skipArray_at {n p : Nat} (h : At raw p (e.bytes 4 n))
    (hn : n < 2 ^ 32) (hend : p + 4 ≤ fieldsEnd)
    (hraw : raw.length < 2 ^ 62) :
    skipValue raw e fieldsEnd 'a'.toUInt8 p = .ok (.next (p + 4 + n)) := by
  have hle := h.le
  rw [Endian.bytes_length] at hle
  show (addUsize p 4 >>= _) = _
  rw [addUsize_ok (by omega), Outcome.ok_bind, if_neg (by omega),
    readU32At_of_at h hn, Outcome.ok_bind, addUsize_ok (by omega)]
  rfl

/-- An array that stands at a multiple of 4. -/
theorem marshal_array (e : Endian) (t : Ty) (vs : List Value) {p : Nat}
    (hp : p % 4 = 0) :
    marshal e p (.array t vs)
      = e.bytes 4 (marshalAll e (alignUp t.align (p + 4)) vs).length
        ++ (pad t.align (p + 4)
          ++ marshalAll e (alignUp t.align (p + 4)) vs) := by
  have hself := alignUp_eq_self isAlign_four hp
  simp only [marshal, hself, pad_eq_nil isAlign_four hp, List.nil_append]

/-- What skipping an array by its length leaves out ends before the next
multiple of 8. -/
theorem array_end {t : Ty} {vs : List Value} {p : Nat}
    (hmod : p % 4 = 0) (height : p % 8 = (t.render.length + 4) % 8)
    (hfour : t.render.length % 4 = 0)
    (hpadding : ((¬t.align = 8 ∨ t.render.length % 8 = 0)
      ∨ (marshalAll e 0 vs).length % 8 = 0)
      ∨ 4 < (marshalAll e 0 vs).length % 8) :
    alignUp 8 (p + 4 + (marshalAll e (alignUp t.align (p + 4)) vs).length)
      = alignUp 8 (p + (4 + ((alignUp t.align (p + 4) - (p + 4))
        + (marshalAll e (alignUp t.align (p + 4)) vs).length))) := by
  by_cases hpad : (p + 4) % t.align = 0
  · rw [alignUp_eq_self t.isAlign hpad, Nat.sub_self, Nat.zero_add,
      Nat.add_assoc]
  · -- four bytes of padding, which stand at a multiple of 8
    have h8 : t.align = 8 := by
      rcases t.isAlign with ha | ha | ha | ha
      · exact absurd (by rw [ha]; omega) hpad
      · exact absurd (by rw [ha]; omega) hpad
      · exact absurd (by rw [ha]; omega) hpad
      · exact ha
    rw [h8] at hpad ⊢
    have hup : alignUp 8 (p + 4) = p + 8 := by
      unfold alignUp
      omega
    have hshift := marshalAll_shift e ((p + 8) / 8) vs 0
    rw [Nat.zero_add, Nat.mul_div_cancel' (by omega)] at hshift
    rw [hup, hshift]
    have hn : (marshalAll e 0 vs).length % 8 = 0
        ∨ 4 < (marshalAll e 0 vs).length % 8 := by
      rcases hpadding with ((hne | hr) | hz) | hgt
      · exact absurd h8 hne
      · omega
      · exact Or.inl hz
      · exact Or.inr hgt
    generalize (marshalAll e 0 vs).length = n at *
    unfold alignUp
    omega

/-- Behind a passable value the walk stands at the end of the field, or in
its last bytes before the next multiple of 8. -/
theorem walkField_pass {code : UInt8} {f : Field} {p : Nat}
    (hv : ValidField e p f) (hs : passable e f.2 = true) (hcode : f.1 ≠ code)
    (h : At raw p (marshalField e p f))
    (hend : p + (marshalField e p f).length ≤ fieldsEnd)
    (hraw : raw.length < 2 ^ 62) :
    ∃ p', walkField raw e fieldsEnd code p = .ok (.next p')
      ∧ alignUp 8 p' = alignUp 8 (p + (marshalField e p f).length) := by
  by_cases hskip : skippable f.2 = true
  · exact ⟨_, walkField_skip hv hskip hcode h hend hraw, rfl⟩
  · have hother := walkField_other hv hcode h hend hraw
    have hvalue := value_at h
    have hq := alignUp_mod isAlign_eight p
    rw [hother]
    rw [field_end] at hend ⊢
    obtain ⟨code', v⟩ := f
    cases v with
    | array t vs =>
        obtain ⟨-, -, hval⟩ := hv
        rw [Valid] at hval
        obtain ⟨-, -, -, hmost, -⟩ := hval
        have hsig : (Value.array t vs).typeOf.render
            = 'a'.toUInt8 :: t.render := by
          rw [Value.typeOf, Ty.render]
        have hlen : (Value.array t vs).typeOf.render.length
            = t.render.length + 1 := by
          rw [hsig, List.length_cons]
        simp only [passable, Bool.and_eq_true, Bool.or_eq_true, beq_iff_eq,
          bne_iff_ne, ne_eq, decide_eq_true_eq] at hs
        obtain ⟨hfour, hpadding⟩ := hs
        have haligned : ((Value.array t vs).typeOf.render.length + 3)
            % (Value.array t vs).typeOf.align = 0 := by
          show ((Value.array t vs).typeOf.render.length + 3) % 4 = 0
          rw [hlen]
          omega
        have hstart := valueStart_of_aligned (f := (code', .array t vs)) p
          haligned
        rw [secondLetter_of_aligned hsig haligned, hstart]
        simp only at hstart hvalue hend hmost ⊢
        have hmod : (alignUp 8 p
            + ((Value.array t vs).typeOf.render.length + 3)) % 4 = 0 := by
          omega
        have height : (alignUp 8 p
            + ((Value.array t vs).typeOf.render.length + 3)) % 8
              = (t.render.length + 4) % 8 := by
          omega
        generalize alignUp 8 p + ((Value.array t vs).typeOf.render.length + 3)
          = start at *
        have hself := alignUp_eq_self isAlign_four hmod
        rw [marshal_array e t vs hmod] at hvalue hend ⊢
        rw [hself] at hmost
        simp only [List.length_append, Endian.bytes_length, pad_length]
          at hend ⊢
        refine ⟨_, skipArray_at hvalue.left (by omega) (by omega) hraw, ?_⟩
        exact array_end hmod height hfour hpadding
    | variant v => exact absurd hs hskip
    | fixed k m | str s | objectPath s | signature ts | struct vs
      | dictEntry k v => exact absurd hs hskip

/-- A letter the walk does not know ends the turn. -/
theorem skipValue_stop {c : UInt8} {pos : Nat}
    (hc : c ∉ skipLetters) (h : pos ≤ raw.length + 16)
    (hraw : raw.length < 2 ^ 62) :
    skipValue raw e fieldsEnd c pos = .ok .stop := by
  have hletters : skipLetters = ['s'.toUInt8, 'o'.toUInt8, 'g'.toUInt8,
      'a'.toUInt8, 'v'.toUInt8, 'u'.toUInt8, 'i'.toUInt8, 'b'.toUInt8,
      'h'.toUInt8, 'n'.toUInt8, 'q'.toUInt8, 'x'.toUInt8, 't'.toUInt8,
      'd'.toUInt8, 'y'.toUInt8] := by decide
  rw [hletters] at hc
  simp only [List.mem_cons, List.not_mem_nil, or_false, not_or] at hc
  obtain ⟨hs, ho, hg, ha, hv, hu, hi, hb, hh, hn, hq, hx, ht, hd, hy⟩ := hc
  have hwidth : fixedWidth c = none := by
    unfold fixedWidth
    rw [if_neg (by simp only [hu, hi, hb, hh, or_self, not_false_iff]),
      if_neg (by simp only [hn, hq, or_self, not_false_iff]),
      if_neg (by simp only [hx, ht, hd, or_self, not_false_iff]), if_neg hy]
  unfold skipValue
  rw [if_neg (by simp only [hs, ho, or_self, not_false_iff]), if_neg hg,
    hwidth]
  simp only [ha, hv, if_false]
  rw [addUsize_ok (by omega), Outcome.ok_bind, slice_ok (by omega)
    (by omega)]
  rfl

/-- A value the walk stops at ends it. -/
theorem walkField_stop {code : UInt8} {f : Field} {p : Nat}
    (hv : ValidField e p f) (hs : stops f.2 = true) (hcode : f.1 ≠ code)
    (h : At raw p (marshalField e p f))
    (hend : p + (marshalField e p f).length ≤ fieldsEnd)
    (hraw : raw.length < 2 ^ 62) :
    walkField raw e fieldsEnd code p = .ok .stop := by
  rw [walkField_other hv hcode h hend hraw]
  have hvalue := value_at h
  have hstart : valueStart p f ≤ raw.length := by
    obtain ⟨bs, hbs⟩ := marshal_eq_pad e f.2
      (alignUp 8 p + (f.2.typeOf.render.length + 3))
    have hle := hvalue.le
    have hup := le_alignUp f.2.typeOf.isAlign
      (alignUp 8 p + (f.2.typeOf.render.length + 3))
    rw [hbs, List.length_append, pad_length] at hle
    unfold valueStart
    omega
  have hletter : secondLetter f.2.typeOf ∉ skipLetters →
      skipValue raw e fieldsEnd (secondLetter f.2.typeOf) (valueStart p f)
        = .ok .stop := fun hc => skipValue_stop hc (by omega) hraw
  obtain ⟨code', v⟩ := f
  cases v with
  | variant v =>
      -- a container inside: the variant's own table refuses its letter
      obtain ⟨-, -, hval⟩ := hv
      have hsig : (Value.variant v).typeOf.render = ['v'.toUInt8] := by
        rw [Value.typeOf, Ty.render]
      have hone : ((Value.variant v).typeOf.render.length + 3)
          % (Value.variant v).typeOf.align = 0 := Nat.mod_one _
      rw [Valid] at hval
      obtain ⟨-, hwf, hilen, -⟩ := hval
      rw [marshal] at hvalue
      rw [field_end] at hend
      simp only [marshal, List.length_append, sigBytes_length] at hend
      obtain ⟨c, r, hc, -⟩ := render_head v.typeOf
      rw [secondLetter_of_aligned hsig hone,
        valueStart_of_aligned (f := (code', .variant v)) p hone]
      show skipVariant raw e fieldsEnd _ = _
      rw [skipVariant_at hc hilen hvalue.left (by simp only; omega) hraw]
      cases v with
      | fixed k m | str s | objectPath s | signature ts => cases hs
      | variant v | array t vs | struct vs =>
          rw [Value.typeOf, Ty.render] at hc
          cases hc
          rfl
      | dictEntry k v =>
          rw [Value.typeOf, Ty.WF] at hwf
          cases hwf.1
  | fixed k m | str s | objectPath s | signature ts | array t vs | struct vs
    | dictEntry k v =>
      exact hletter (by simpa [stops] using hs)

/-- The wanted field ends the walk at its value. -/
theorem walkField_found {code : UInt8} {f : Field} {p : Nat}
    (hv : ValidField e p f) (hcode : f.1 = code)
    (h : At raw p (marshalField e p f))
    (hend : p + (marshalField e p f).length ≤ fieldsEnd)
    (hraw : raw.length < 2 ^ 62) :
    walkField raw e fieldsEnd code p = .ok (.found (valueStart p f)) := by
  obtain ⟨c, r, hc, -⟩ := render_head f.2.typeOf
  have hle := field_end (e := e) f p
  rw [walkField_head hc hv.2.1 (field_at h) (by omega) hraw, if_pos hcode]

end walk

end DbusRouter.Model
