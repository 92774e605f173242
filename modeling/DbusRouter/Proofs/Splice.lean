/-
Rewriting a header field, on decoded fields.

`rewriteHeaderField_layout`: where the walk reads the fields right, the
rewritten bytes are those of the same message with the string in the first
field with the code replaced, or the same bytes when the walk does not get
there. Everything behind the string moves by a multiple of 8, so it keeps
its bytes (`marshalFields_aligned`), and the array length, the padding and
the start of the body are recomputed to fit.
-/
import DbusRouter.Proofs.Scan

namespace DbusRouter.Model

open Wire Lib

-- =========================================================== array around it

/-- The array up to the bytes of the string of the field after `pre`. -/
def arrayBefore (e : Endian) (pre : List Field) (code : UInt8) : Bytes :=
  marshalFields e 16 pre
    ++ (pad 8 (16 + (marshalFields e 16 pre).length)
      ++ (code :: sigBytes ['s'.toUInt8]))

/-- What follows a string that ends at `p`: nothing, or padding and the
other fields, which stand at a multiple of 8. -/
def arrayAfter (p : Nat) (rest : Bytes) : Bytes :=
  if rest = [] then [] else pad 8 p ++ rest

/-- At a multiple of 8 fields have the bytes they have at 0. -/
theorem marshalFields_aligned (e : Endian) (p : Nat) (fs : List Field) :
    marshalFields e (alignUp 8 p) fs = marshalFields e 0 fs := by
  have hmod := alignUp_mod isAlign_eight p
  have hshift := marshalFields_shift e (alignUp 8 p / 8) fs 0
  rw [Nat.zero_add, Nat.mul_div_cancel' (Nat.dvd_of_mod_eq_zero hmod)]
    at hshift
  exact hshift

theorem marshalFields_ne_nil (e : Endian) (p : Nat) (f : Field)
    (fs : List Field) : marshalFields e p (f :: fs) ≠ [] := by
  simp [marshalFields, marshalField]

theorem marshalFields_eq_arrayAfter (e : Endian) (p : Nat)
    (fs : List Field) :
    marshalFields e p fs = arrayAfter p (marshalFields e 0 fs) := by
  cases fs with
  | nil => rfl
  | cons f fs =>
      rw [arrayAfter, if_neg (marshalFields_ne_nil e 0 f fs),
        marshalFields_align, marshalFields_aligned]

/-- The array around a string field. -/
theorem marshalFields_string (e : Endian) (pre post : List Field)
    (code : UInt8) (s : Text) :
    marshalFields e 16 (pre ++ (code, .str s) :: post)
      = arrayBefore e pre code ++ (strBytes e s
        ++ arrayAfter (16 + (arrayBefore e pre code).length
          + (s.length + 5)) (marshalFields e 0 post)) := by
  have hup := le_alignUp isAlign_eight (16 + (marshalFields e 16 pre).length)
  have hmod := alignUp_mod isAlign_eight
    (16 + (marshalFields e 16 pre).length)
  have hsig : (Value.str s).typeOf.render = ['s'.toUInt8] := by
    rw [Value.typeOf, Ty.render]
  have hpad : pad 4 (alignUp 8 (16 + (marshalFields e 16 pre).length)
      + (1 + 3)) = [] := by
    refine pad_eq_nil isAlign_four ?_
    omega
  have hfield : marshalField e (16 + (marshalFields e 16 pre).length)
      (code, .str s)
        = pad 8 (16 + (marshalFields e 16 pre).length)
          ++ (code :: (sigBytes ['s'.toUInt8] ++ strBytes e s)) := by
    unfold marshalField
    simp only [hsig]
    rw [marshal, List.length_singleton, hpad, List.nil_append]
  rw [marshalFields_append, marshalFields, hfield,
    marshalFields_eq_arrayAfter e _ post]
  have hend : 16 + (marshalFields e 16 pre).length
      + (pad 8 (16 + (marshalFields e 16 pre).length)
        ++ (code :: (sigBytes ['s'.toUInt8] ++ strBytes e s))).length
        = 16 + (arrayBefore e pre code).length + (s.length + 5) := by
    simp only [arrayBefore, List.length_append, List.length_cons,
      strBytes_length]
    omega
  rw [hend]
  simp [arrayBefore]

/-- The walk's position of a string field. -/
theorem locatedAt_string (e : Endian) (pre : List Field) (code : UInt8)
    (s : Text) :
    locatedAt e 16 pre (code, .str s)
      = 16 + (arrayBefore e pre code).length := by
  have hup := le_alignUp isAlign_eight (16 + (marshalFields e 16 pre).length)
  have hmod := alignUp_mod isAlign_eight
    (16 + (marshalFields e 16 pre).length)
  have hsig : (Value.str s).typeOf.render = ['s'.toUInt8] := by
    rw [Value.typeOf, Ty.render]
  have hself := alignUp_self_of_le isAlign_four (by decide) hmod
  unfold locatedAt valueStart
  simp only [hsig]
  show alignUp 4 (alignUp 8 (16 + (marshalFields e 16 pre).length) + 4) = _
  rw [hself]
  simp only [arrayBefore, List.length_append, pad_length, List.length_cons,
    sigBytes_length, List.length_nil]
  omega

-- ================================================================ splicing

theorem arrayAfter_length (p : Nat) (rest : Bytes) :
    (arrayAfter p rest).length
      = if rest = [] then 0 else padTo8 p + rest.length := by
  have hup := add_padTo8 p
  unfold arrayAfter
  split
  · rfl
  · rw [List.length_append, pad_length]
    omega

theorem pad_eight (p : Nat) : pad 8 p = zeros (padTo8 p) := by
  have hup := add_padTo8 p
  unfold pad
  congr 1
  omega

/-- The padding between a string and the fields behind it; none behind the
last. -/
def innerPadding (p : Nat) (rest : Bytes) : Nat :=
  if rest = [] then 0 else padTo8 p

theorem arrayAfter_eq (p : Nat) (rest : Bytes) :
    arrayAfter p rest = zeros (innerPadding p rest) ++ rest := by
  unfold arrayAfter innerPadding
  split
  next h =>
    rw [h]
    rfl
  next => rw [pad_eight]

/-- Whether fields follow is read off where the array ends. -/
theorem fields_follow_iff (p : Nat) (rest : Bytes) :
    p + padTo8 p < p + (arrayAfter p rest).length ↔ rest ≠ [] := by
  rw [arrayAfter_length]
  by_cases hrest : rest = []
  · rw [if_pos hrest]
    exact ⟨fun h => absurd h (by omega), fun h => absurd hrest h⟩
  · have hpos := List.length_pos_of_ne_nil hrest
    rw [if_neg hrest]
    exact ⟨fun _ => hrest, fun _ => by omega⟩

/-- The fields behind a string are cut out where they begin, if there are
any. -/
theorem slice_arrayAfter {β : Type} {raw rest : Bytes} {p q : Nat}
    (h : At raw p (arrayAfter p rest))
    (hq : q = p + (arrayAfter p rest).length) (k : Bytes → Result β) :
    (if rest ≠ [] then slice raw (p + padTo8 p) q >>= k else .ok [] >>= k)
      = k rest := by
  by_cases hrest : rest = []
  · rw [if_neg (not_not_intro hrest), hrest]
    rfl
  · have hlen := arrayAfter_length p rest
    rw [if_neg hrest] at hlen
    rw [arrayAfter, if_neg hrest, pad_eight] at h
    have hr := h.right
    rw [zeros_length] at hr
    rw [if_pos hrest, hr.slice (by omega)]
    rfl

/-- The array grows by what the string does and by what the padding does:
`m` bytes behind the first `k` become `n`. -/
theorem spliced_arrayLen {len k m n : Nat} {rest : Bytes}
    (hlen : len = k + m + (arrayAfter (16 + k + m) rest).length)
    (hnew : k + (n + (arrayAfter (16 + k + n) rest).length) < 2 ^ 64) :
    ((((len : Nat) : Int) + (((n + innerPadding (16 + k + n) rest : Nat) : Int)
        - ((if rest ≠ [] then 16 + k + m + padTo8 (16 + k + m) - (16 + k)
          else 16 + k + m - (16 + k) : Nat) : Int))) % (2 ^ 64 : Int)).toNat
      = k + (n + (arrayAfter (16 + k + n) rest).length) := by
  rw [arrayAfter_length] at hlen hnew ⊢
  unfold innerPadding
  rw [ite_not]
  split_ifs at hlen hnew ⊢ <;> omega

/-- Splicing a string in: the length, what stands before and after, and
the body stay or fit. -/
theorem spliceString_layout (e : Endian)
    {fixed before s new rest padding body : Bytes}
    (hf : fixed.length = 12)
    (hs : s.length < 2 ^ 32)
    (hlen : (before ++ (strBytes e s
      ++ arrayAfter (16 + before.length + (s.length + 5)) rest)).length
        < 2 ^ 32)
    (hnew : (before ++ (strBytes e new
      ++ arrayAfter (16 + before.length + (new.length + 5)) rest)).length
        < 2 ^ 32)
    (hpad : padding.length = padTo8 (16 + (before ++ (strBytes e s
      ++ arrayAfter (16 + before.length + (s.length + 5)) rest)).length)) :
    spliceString
        (layout e fixed (before ++ (strBytes e s
          ++ arrayAfter (16 + before.length + (s.length + 5)) rest))
          padding body) e
        (before ++ (strBytes e s
          ++ arrayAfter (16 + before.length + (s.length + 5)) rest)).length
        (16 + before.length) new
      = .ok (layout e fixed (before ++ (strBytes e new
          ++ arrayAfter (16 + before.length + (new.length + 5)) rest))
          (zeros (padTo8 (16 + (before ++ (strBytes e new ++ arrayAfter
            (16 + before.length + (new.length + 5)) rest)).length)))
          body) := by
  generalize harr : before ++ (strBytes e s
    ++ arrayAfter (16 + before.length + (s.length + 5)) rest) = array at *
  have hraw := layout_at_array e array padding body hf
  have hbody := layout_drop_body e array padding body hf
  have hrawlen := layout_length e array padding body hf
  have hfixed : At (layout e fixed array padding body) 0 fixed :=
    ⟨[], _, rfl, rfl⟩
  generalize layout e fixed array padding body = raw at *
  have halen : array.length = before.length + (s.length + 5)
      + (arrayAfter (16 + before.length + (s.length + 5)) rest).length := by
    rw [← harr]
    simp only [List.length_append, strBytes_length]
    omega
  rw [← harr] at hraw
  have hbefore := hraw.left
  have hstr := hraw.right.left
  have hafter := hraw.right.right
  rw [strBytes_length] at hafter
  simp only [List.length_append, strBytes_length] at hnew
  have hmod : new.length % 2 ^ 32 = new.length :=
    Nat.mod_eq_of_lt (by omega)
  have hdata : e.bytes 4 (new.length % 2 ^ 32) ++ new ++ [0]
      = strBytes e new := by
    rw [hmod, strBytes, List.append_assoc]
  have hold := padTo8_le (16 + before.length + (s.length + 5))
  have hnewle := padTo8_le (16 + before.length + (new.length + 5))
  have hfinal := padTo8_le (16 + array.length)
  have hsub : 16 + (16 + before.length - 16) = 16 + before.length := by
    omega
  have hend : 16 + before.length + 4 + (s.length + 1)
      = 16 + before.length + (s.length + 5) := by omega
  unfold spliceString
  simp only [minHeaderSize]
  rw [addUsize_ok (by omega), Outcome.ok_bind, addUsize_ok (by omega),
    Outcome.ok_bind, if_neg (by omega), readU32At_of_at hstr.left hs,
    Outcome.ok_bind, addUsize_ok (by omega), Outcome.ok_bind, hdata, hend,
    addUsize_ok (by omega), Outcome.ok_bind, hsub, strBytes_length,
    addUsize_ok (by omega), Outcome.ok_bind]
  have hlast : 16 + array.length = 16 + before.length + (s.length + 5)
      + (arrayAfter (16 + before.length + (s.length + 5)) rest).length := by
    omega
  have hmore : 16 + before.length + (s.length + 5)
      + padTo8 (16 + before.length + (s.length + 5)) < 16 + array.length
        ↔ rest ≠ [] := by
    rw [hlast]
    exact fields_follow_iff _ rest
  have hpadding : (if rest ≠ [] then
      padTo8 (16 + before.length + (new.length + 5)) else 0)
        = innerPadding (16 + before.length + (new.length + 5)) rest := by
    unfold innerPadding
    rw [ite_not]
  have hnewLen := spliced_arrayLen (k := before.length) (m := s.length + 5)
    (n := new.length + 5) halen (by omega)
  simp only [hmore, decide_eq_true_eq, hpadding, hnewLen]
  rw [addUsize_ok (by omega), Outcome.ok_bind, addUsize_ok (by omega),
    Outcome.ok_bind, hfixed.slice (by omega), Outcome.ok_bind,
    hbefore.slice rfl, Outcome.ok_bind, slice_arrayAfter hafter hlast,
    sliceFrom_ok (by omega), Outcome.ok_bind, ← hpad, hbody,
    Nat.mod_eq_of_lt hnew]
  simp only [layout, List.length_append, strBytes_length, arrayAfter_eq,
    List.append_assoc]

-- =============================================================== on frames

/-- The frame with another header-field array. -/
def Frame.withArray (f : Frame) (array : Bytes) (h : array.length ≤ 2 ^ 26) :
    Frame :=
  { f with
    array := array
    padding := zeros (padTo8 (16 + array.length))
    array_le := h
    padding_eq := zeros_length _ }

/-- The bytes of a frame's message around other header fields. -/
def Frame.withFieldsBytes (f : Frame) (fs : List Field) : Bytes :=
  layout f.endian f.fixed (marshalFields f.endian 16 fs)
    (zeros (padTo8 (16 + (marshalFields f.endian 16 fs).length))) f.body

theorem Frame.withArray_bytes (f : Frame) {fs : List Field}
    (h : (marshalFields f.endian 16 fs).length ≤ 2 ^ 26) :
    (f.withArray _ h).bytes = f.withFieldsBytes fs := rfl

/-- The fields of a valid array around a located string are valid. -/
theorem validFields_string {e : Endian} {pre post : List Field}
    {code : UInt8} {s : Text}
    (h : ValidFields e 16 (pre ++ (code, .str s) :: post)) : IsStr s := by
  rw [validFields_append] at h
  have hf := h.2.1.2.2
  rw [Valid] at hf
  exact hf

-- ----------------------------------------------------- on what is laid out

section layout

variable (e : Endian) {fixed padding body : Bytes} {code : UInt8}
  {new : Text}

/-- The rewrite splices where the walk ends. -/
theorem rewriteHeaderField_of_find {array : Bytes} {x : Option Nat}
    (hf : fixed.length = 12) (ha : array.length < 2 ^ 32)
    (hfind : findHeaderField (layout e fixed array padding body) e
      (16 + array.length) code = .ok x) :
    rewriteHeaderField (layout e fixed array padding body) e code new
      = x.elim (.ok (layout e fixed array padding body)) fun pos =>
          spliceString (layout e fixed array padding body) e array.length pos
            new := by
  have hlen : readU32At e (layout e fixed array padding body)
      fixedHeaderSize = .ok array.length :=
    readU32At_of_at (layout_at_arrayLen e _ _ _ hf) ha
  unfold rewriteHeaderField
  rw [hlen, Outcome.ok_bind, minHeaderSize, addUsize_ok (by omega),
    Outcome.ok_bind, hfind, Outcome.ok_bind]
  cases x with
  | none => rfl
  | some pos => rfl

/-- Where the walk finds a string field, its string is replaced. -/
theorem rewriteHeaderField_some {pre post : List Field} {s : Text}
    (hf : fixed.length = 12) (hs : s.length < 2 ^ 32)
    (hpad : padding.length = padTo8 (16
      + (marshalFields e 16 (pre ++ (code, .str s) :: post)).length))
    (hlen : (marshalFields e 16 (pre ++ (code, .str s) :: post)).length
      < 2 ^ 32)
    (hnew : (marshalFields e 16 (pre ++ (code, .str new) :: post)).length
      < 2 ^ 32)
    (hfind : findHeaderField (layout e fixed
        (marshalFields e 16 (pre ++ (code, .str s) :: post)) padding body) e
      (16 + (marshalFields e 16 (pre ++ (code, .str s) :: post)).length) code
        = .ok (some (locatedAt e 16 pre (code, .str s)))) :
    rewriteHeaderField (layout e fixed
        (marshalFields e 16 (pre ++ (code, .str s) :: post)) padding body) e
        code new
      = .ok (layout e fixed
          (marshalFields e 16 (pre ++ (code, .str new) :: post))
          (zeros (padTo8 (16
            + (marshalFields e 16 (pre ++ (code, .str new) :: post)).length)))
          body) := by
  rw [rewriteHeaderField_of_find e hf hlen hfind, Option.elim_some,
    locatedAt_string]
  rw [marshalFields_string] at hpad hlen hnew ⊢
  rw [marshalFields_string e pre post code new]
  exact spliceString_layout e hf hs hlen hnew hpad

end layout

-- --------------------------------------------------------------- on a frame

section rewrite

variable (f : Frame) {code : UInt8} {new : Text}

theorem rewriteHeaderField_none
    (hfind : findHeaderField f.bytes f.endian (16 + f.array.length) code
      = .ok none) :
    rewriteHeaderField f.bytes f.endian code new = .ok f.bytes := by
  have hal := f.array_le
  exact rewriteHeaderField_of_find f.endian f.fixed_length (by omega) hfind

/-- A frame's array has room for another string that is not very long. -/
theorem Frame.room {pre post : List Field} {s : Text}
    (harr : marshalFields f.endian 16 (pre ++ (code, .str s) :: post)
      = f.array) (hnew : new.length < 2 ^ 28) :
    (marshalFields f.endian 16 (pre ++ (code, .str new) :: post)).length
      < 2 ^ 32 := by
  have hal := f.array_le
  rw [← harr, marshalFields_string] at hal
  rw [marshalFields_string]
  have hpad := padTo8_le (16 + (arrayBefore f.endian pre code).length
    + (new.length + 5))
  simp only [List.length_append, strBytes_length, arrayAfter_length]
    at hal ⊢
  split_ifs at hal ⊢ <;> omega

/-- Where the walk finds a string field, its string is replaced. -/
theorem Frame.rewriteHeaderField_found {pre post : List Field} {s : Text}
    (harr : marshalFields f.endian 16 (pre ++ (code, .str s) :: post)
      = f.array)
    (hv : ValidFields f.endian 16 (pre ++ (code, .str s) :: post))
    (hfind : findHeaderField f.bytes f.endian (16 + f.array.length) code
      = .ok (some (locatedAt f.endian 16 pre (code, .str s))))
    (hnew : new.length < 2 ^ 28) :
    rewriteHeaderField f.bytes f.endian code new
      = .ok (f.withFieldsBytes (pre ++ (code, .str new) :: post)) := by
  have hal := f.array_le
  have hpad := f.padding_eq
  unfold Frame.bytes at hfind ⊢
  rw [← harr] at hfind hal hpad ⊢
  exact rewriteHeaderField_some f.endian f.fixed_length
    (validFields_string hv).2.2 hpad (by omega) (f.room harr hnew) hfind

/-- The walk over a frame, as over what is laid out. -/
theorem Frame.findHeaderField_bytes {fs : List Field} {x : Option Nat}
    (harr : marshalFields f.endian 16 fs = f.array)
    (h : (layout f.endian f.fixed (marshalFields f.endian 16 fs) f.padding
        f.body).length < 2 ^ 62 →
      findHeaderField (layout f.endian f.fixed (marshalFields f.endian 16 fs)
        f.padding f.body) f.endian
        (16 + (marshalFields f.endian 16 fs).length) code = .ok x) :
    findHeaderField f.bytes f.endian (16 + f.array.length) code = .ok x := by
  have hlen := f.bytes_length_le
  rw [harr] at h
  refine h ?_
  show f.bytes.length < _
  omega

theorem rewriteHeaderField_layout {fs : List Field}
    (harr : marshalFields f.endian 16 fs = f.array)
    (hv : ValidFields f.endian 16 fs) (hp : Plain code fs)
    (hnew : new.length < 2 ^ 28) :
    rewriteHeaderField f.bytes f.endian code new
      = match locate code fs with
        | none => .ok f.bytes
        | some (pre, _, post) =>
            .ok (f.withFieldsBytes (pre ++ (code, .str new) :: post)) := by
  have hfind := f.findHeaderField_bytes harr
    (findHeaderField_layout f.endian f.fixed_length hv hp)
  cases hl : locate code fs with
  | none =>
      rw [hl] at hfind
      exact rewriteHeaderField_none f hfind
  | some x =>
      obtain ⟨pre, v, post⟩ := x
      obtain ⟨s, rfl⟩ := hp.locate_str hl
      obtain ⟨rfl, -⟩ := locate_eq_some hl
      rw [hl] at hfind
      exact f.rewriteHeaderField_found harr hv hfind hnew

/-- A string field behind passable ones is rewritten. -/
theorem rewriteHeaderField_passed {pre post : List Field} {s : Text}
    (harr : marshalFields f.endian 16 (pre ++ (code, .str s) :: post)
      = f.array)
    (hv : ValidFields f.endian 16 (pre ++ (code, .str s) :: post))
    (hpre : ∀ g ∈ pre, g.1 ≠ code ∧ passable f.endian g.2 = true)
    (hnew : new.length < 2 ^ 28) :
    rewriteHeaderField f.bytes f.endian code new
      = .ok (f.withFieldsBytes (pre ++ (code, .str new) :: post)) :=
  f.rewriteHeaderField_found harr hv
    (f.findHeaderField_bytes harr fun hraw =>
      findHeaderField_found f.endian f.fixed_length rfl hv hpre rfl hraw) hnew

/-- Behind a field that the walk stops at nothing is. -/
theorem rewriteHeaderField_stopped {pre post : List Field} {g : Field}
    (harr : marshalFields f.endian 16 (pre ++ g :: post) = f.array)
    (hv : ValidFields f.endian 16 (pre ++ g :: post))
    (hpre : ∀ g ∈ pre, g.1 ≠ code ∧ passable f.endian g.2 = true)
    (hcode : g.1 ≠ code) (hs : stops g.2 = true) :
    rewriteHeaderField f.bytes f.endian code new = .ok f.bytes :=
  rewriteHeaderField_none f
    (f.findHeaderField_bytes harr fun hraw =>
      findHeaderField_stopped f.endian f.fixed_length rfl hv hpre hcode hs
        hraw)

end rewrite

end DbusRouter.Model
