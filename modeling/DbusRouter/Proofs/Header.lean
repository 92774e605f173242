/-
What a rewritten header decodes to.

Replacing the string of a SENDER or DESTINATION field keeps the array
valid and changes nothing else of the parsed header; where the field is
the only one with its code, the parsed value is the new string. The last
section says this of `rewriteMessageHeader` on a whole message.
-/
import DbusRouter.Proofs.Splice

namespace DbusRouter.Model

open Wire Lib

-- ============================================================ parsed fields

/-- No field has the code. -/
def Lacks (code : UInt8) (fs : List Field) : Prop := ∀ f ∈ fs, f.1 ≠ code

/-- A field that is no sender leaves the sender alone. -/
theorem enter_setSender {r : ParsedHeaderFields} {f : Field}
    (h : f.1 ≠ 7) (x : Option Text) :
    ({ r with sender := x } : ParsedHeaderFields).enter f
      = { r.enter f with sender := x } := by
  obtain ⟨c, v⟩ := f
  unfold ParsedHeaderFields.enter
  simp only [if_neg h]
  split_ifs <;> first | rfl | (cases v <;> rfl)

/-- One that is no destination leaves the destination alone. -/
theorem enter_setDestination {r : ParsedHeaderFields} {f : Field}
    (h : f.1 ≠ 6) (x : Option Text) :
    ({ r with destination := x } : ParsedHeaderFields).enter f
      = { r.enter f with destination := x } := by
  obtain ⟨c, v⟩ := f
  unfold ParsedHeaderFields.enter
  simp only [if_neg h]
  split_ifs <;> first | rfl | (cases v <;> rfl)

/-- A sender is kept if it is a string. -/
theorem enter_sender (r : ParsedHeaderFields) (v : Value) :
    r.enter (7, v) = { r with sender := asString v } := rfl

/-- A destination is kept if it is a string. -/
theorem enter_destination (r : ParsedHeaderFields) (v : Value) :
    r.enter (6, v) = { r with destination := asString v } := rfl

/-- Fields behind the last sender leave it alone. -/
theorem foldl_setSender {post : List Field} (h : Lacks 7 post)
    (r : ParsedHeaderFields) (x : Option Text) :
    post.foldl ParsedHeaderFields.enter { r with sender := x }
      = { post.foldl ParsedHeaderFields.enter r with sender := x } := by
  induction post generalizing r with
  | nil => rfl
  | cons f post ih =>
      rw [List.foldl_cons, List.foldl_cons,
        enter_setSender (h f (List.mem_cons_self ..)),
        ih fun g hg => h g (List.mem_cons_of_mem _ hg)]

/-- Fields behind the last destination leave it alone. -/
theorem foldl_setDestination {post : List Field} (h : Lacks 6 post)
    (r : ParsedHeaderFields) (x : Option Text) :
    post.foldl ParsedHeaderFields.enter { r with destination := x }
      = { post.foldl ParsedHeaderFields.enter r with destination := x } := by
  induction post generalizing r with
  | nil => rfl
  | cons f post ih =>
      rw [List.foldl_cons, List.foldl_cons,
        enter_setDestination (h f (List.mem_cons_self ..)),
        ih fun g hg => h g (List.mem_cons_of_mem _ hg)]

/-- The parsed header of fields with another sender in front of fields
that name none. -/
theorem ofFields_sender (pre : List Field) {post : List Field}
    (h : Lacks 7 post) (s new : Text) :
    ParsedHeaderFields.ofFields (pre ++ (7, .str new) :: post)
      = { ParsedHeaderFields.ofFields (pre ++ (7, .str s) :: post) with
          sender := some new } := by
  have hfold := foldl_setSender h (pre.foldl ParsedHeaderFields.enter .empty)
  unfold ParsedHeaderFields.ofFields
  simp only [List.foldl_append, List.foldl_cons, enter_sender, asString]
  rw [hfold (some new), hfold (some s)]

/-- Behind the last destination nothing but that depends on its text. -/
theorem ofFields_destination (pre : List Field) {post : List Field}
    (h : Lacks 6 post) (s new : Text) :
    ParsedHeaderFields.ofFields (pre ++ (6, .str new) :: post)
      = { ParsedHeaderFields.ofFields (pre ++ (6, .str s) :: post) with
          destination := some new } := by
  have hfold := foldl_setDestination h
    (pre.foldl ParsedHeaderFields.enter .empty)
  unfold ParsedHeaderFields.ofFields
  simp only [List.foldl_append, List.foldl_cons, enter_destination, asString]
  rw [hfold (some new), hfold (some s)]

/-- Two parses that differ in the sender only. -/
def EqUpToSender (r r' : ParsedHeaderFields) : Prop :=
  ∃ x, r' = { r with sender := x }

/-- Two parses that differ in the destination only. -/
def EqUpToDestination (r r' : ParsedHeaderFields) : Prop :=
  ∃ x, r' = { r with destination := x }

/-- Headers that differ in the sender do so behind any fields. -/
theorem EqUpToSender.foldl {r r' : ParsedHeaderFields}
    (h : EqUpToSender r r') (fs : List Field) :
    EqUpToSender (fs.foldl ParsedHeaderFields.enter r)
      (fs.foldl ParsedHeaderFields.enter r') := by
  induction fs generalizing r r' with
  | nil => exact h
  | cons f fs ih =>
      refine ih ?_
      obtain ⟨x, rfl⟩ := h
      by_cases h7 : f.1 = 7
      · obtain ⟨c, v⟩ := f
        cases h7
        exact ⟨asString v, rfl⟩
      · exact ⟨x, enter_setSender h7 x⟩

/-- Headers that differ in the destination do so behind any fields. -/
theorem EqUpToDestination.foldl {r r' : ParsedHeaderFields}
    (h : EqUpToDestination r r') (fs : List Field) :
    EqUpToDestination (fs.foldl ParsedHeaderFields.enter r)
      (fs.foldl ParsedHeaderFields.enter r') := by
  induction fs generalizing r r' with
  | nil => exact h
  | cons f fs ih =>
      refine ih ?_
      obtain ⟨x, rfl⟩ := h
      by_cases h6 : f.1 = 6
      · obtain ⟨c, v⟩ := f
        cases h6
        exact ⟨asString v, rfl⟩
      · exact ⟨x, enter_setDestination h6 x⟩

/-- Replacing a sender changes nothing but the sender. -/
theorem ofFields_eqUpToSender (pre post : List Field) (v w : Value) :
    EqUpToSender (.ofFields (pre ++ (7, v) :: post))
      (.ofFields (pre ++ (7, w) :: post)) := by
  unfold ParsedHeaderFields.ofFields
  simp only [List.foldl_append, List.foldl_cons, enter_sender]
  exact EqUpToSender.foldl ⟨asString w, rfl⟩ post

/-- Another destination makes no other difference. -/
theorem ofFields_eqUpToDestination (pre post : List Field) (v w : Value) :
    EqUpToDestination (.ofFields (pre ++ (6, v) :: post))
      (.ofFields (pre ++ (6, w) :: post)) := by
  unfold ParsedHeaderFields.ofFields
  simp only [List.foldl_append, List.foldl_cons, enter_destination]
  exact EqUpToDestination.foldl ⟨asString w, rfl⟩ post

/-- The sender parsed is one of the fields. -/
theorem sender_mem {fs : List Field} {r : ParsedHeaderFields} {u : Text}
    (h : (fs.foldl ParsedHeaderFields.enter r).sender = some u) :
    (7, .str u) ∈ fs ∨ r.sender = some u := by
  induction fs generalizing r with
  | nil => exact Or.inr h
  | cons f fs ih =>
      rcases ih h with hmem | hr
      · exact Or.inl (List.mem_cons_of_mem _ hmem)
      · obtain ⟨c, v⟩ := f
        by_cases h7 : c = 7
        · subst h7
          rw [enter_sender] at hr
          cases v with
          | str s =>
              cases hr
              exact Or.inl (List.mem_cons_self ..)
          | fixed | objectPath | signature | variant | array | struct
            | dictEntry => cases hr
        · have hset := enter_setSender (r := r) (f := (c, v)) h7 r.sender
          right
          rw [← hr]
          have hs := congrArg ParsedHeaderFields.sender hset
          exact hs.symm

/-- The destination parsed is one of the fields. -/
theorem destination_mem {fs : List Field} {r : ParsedHeaderFields}
    {d : Text}
    (h : (fs.foldl ParsedHeaderFields.enter r).destination = some d) :
    (6, .str d) ∈ fs ∨ r.destination = some d := by
  induction fs generalizing r with
  | nil => exact Or.inr h
  | cons f fs ih =>
      rcases ih h with hmem | hr
      · exact Or.inl (List.mem_cons_of_mem _ hmem)
      · obtain ⟨c, v⟩ := f
        by_cases h6 : c = 6
        · subst h6
          rw [enter_destination] at hr
          cases v with
          | str s =>
              cases hr
              exact Or.inl (List.mem_cons_self ..)
          | fixed | objectPath | signature | variant | array | struct
            | dictEntry => cases hr
        · have hset := enter_setDestination (r := r) (f := (c, v)) h6
            r.destination
          right
          rw [← hr]
          have hs := congrArg ParsedHeaderFields.destination hset
          exact hs.symm

-- ================================================================ validity

/-- At multiples of 8 the format allows the same fields. -/
theorem validFields_aligned (e : Endian) (p : Nat) (fs : List Field) :
    ValidFields e (alignUp 8 p) fs ↔ ValidFields e 0 fs := by
  have hmod := alignUp_mod isAlign_eight p
  have hshift := validFields_shift e (alignUp 8 p / 8) fs 0
  rw [Nat.zero_add, Nat.mul_div_cancel' (Nat.dvd_of_mod_eq_zero hmod)]
    at hshift
  exact hshift

/-- Fields are valid behind whatever stands before them. -/
theorem validFields_anywhere {e : Endian} {fs : List Field} {p : Nat}
    (h : ValidFields e p fs) (q : Nat) : ValidFields e q fs := by
  cases fs with
  | nil => exact trivial
  | cons f fs =>
      rw [validFields_align, validFields_aligned] at h ⊢
      exact h

/-- A valid array stays valid with another string in one of its fields. -/
theorem validFields_set {e : Endian} {pre post : List Field} {code : UInt8}
    {s new : Text} (h : ValidFields e 16 (pre ++ (code, .str s) :: post))
    (hnew : IsStr new) :
    ValidFields e 16 (pre ++ (code, .str new) :: post) := by
  rw [validFields_append] at h ⊢
  refine ⟨h.1, ?_⟩
  have hcons := h.2
  rw [ValidFields] at hcons ⊢
  refine ⟨⟨hcons.1.1, hcons.1.2.1, ?_⟩, validFields_anywhere hcons.2 _⟩
  rw [Valid]
  exact hnew

/-- A string in fields that the format allows is one it allows. -/
theorem isStr_of_mem {e : Endian} {fs : List Field} {code : UInt8}
    {s : Text} (h : ValidFields e 16 fs) (hmem : (code, .str s) ∈ fs) :
    IsStr s := by
  obtain ⟨pre, post, rfl⟩ := List.append_of_mem hmem
  exact validFields_string h

/-- An ASCII character in front changes nothing. -/
theorem utf8Valid_cons {b : UInt8} (hb : b < 0x80) (s : Bytes) :
    utf8Valid (b :: s) = utf8Valid s := by
  have hchar : utf8Char b s = (true, 1) := by
    unfold utf8Char
    rw [if_pos hb]
  unfold utf8Valid
  rw [utf8ValidFrom, hchar, Bool.true_and]
  rfl

/-- A prefix makes no string invalid that has room for it. -/
theorem isStr_fakePrefix {b : Bus} {x : Text} (h : IsStr x)
    (hlen : x.length + 3 < 2 ^ 32) : IsStr (fakePrefix b ++ x) := by
  obtain ⟨hutf, hnul, -⟩ := h
  cases b with
  | host =>
      refine ⟨?_, ?_, ?_⟩
      · show utf8Valid (58 :: 104 :: 46 :: x) = true
        rw [utf8Valid_cons (by decide), utf8Valid_cons (by decide),
          utf8Valid_cons (by decide)]
        exact hutf
      · show (0 : UInt8) ∉ 58 :: 104 :: 46 :: x
        simpa using hnul
      · show (58 :: 104 :: 46 :: x).length < _
        simpa using hlen
  | sandbox =>
      refine ⟨?_, ?_, ?_⟩
      · show utf8Valid (58 :: 115 :: 46 :: x) = true
        rw [utf8Valid_cons (by decide), utf8Valid_cons (by decide),
          utf8Valid_cons (by decide)]
        exact hutf
      · show (0 : UInt8) ∉ 58 :: 115 :: 46 :: x
        simpa using hnul
      · show (58 :: 115 :: 46 :: x).length < _
        simpa using hlen

/-- What follows the colon of a string is a string. -/
theorem isStr_colon {x : Text} : IsStr (utf8 ":" ++ x) ↔
    IsStr x ∧ x.length + 1 < 2 ^ 32 := by
  have hu : utf8Valid (utf8 ":" ++ x) = utf8Valid x :=
    utf8Valid_cons (b := 58) (by decide) x
  have hm : (0 : UInt8) ∉ utf8 ":" ++ x ↔ (0 : UInt8) ∉ x := by
    show (0 : UInt8) ∉ 58 :: x ↔ _
    simp
  have hl : (utf8 ":" ++ x).length = x.length + 1 := rfl
  unfold IsStr
  rw [hu, hm, hl]
  constructor
  · rintro ⟨h1, h2, h3⟩
    exact ⟨⟨h1, h2, by omega⟩, h3⟩
  · rintro ⟨⟨h1, h2, -⟩, h3⟩
    exact ⟨h1, h2, h3⟩

/-- A name that is shown is a string the format allows. -/
theorem isStr_toFakeName {u : Text} (h : IsStr u) (b : Bus)
    (hlen : u.length < 2 ^ 28) : IsStr (toFakeName u b) := by
  by_cases hu : isUniqueName u = true
  · obtain ⟨x, rfl⟩ := isUniqueName_iff.mp hu
    rw [toFakeName_of_unique hu]
    have hl : (utf8 ":" ++ x).length = x.length + 1 := rfl
    exact isStr_fakePrefix (isStr_colon.mp h).1 (by
      show (x).length + 3 < _
      omega)
  · rw [toFakeName_of_not_unique (by simpa using hu)]
    exact h

/-- So is a name that was shown and is real again. -/
theorem isStr_fromFakeName {f real : Text} {b : Bus} (h : IsStr f)
    (hf : fromFakeName f = some (real, b)) : IsStr real := by
  obtain ⟨x, rfl, rfl⟩ := fromFakeName_eq_some hf
  obtain ⟨hutf, hnul, hlen⟩ := h
  rw [List.length_append, fakePrefix_length] at hlen
  have hx : IsStr x := by
    refine ⟨?_, ?_, by omega⟩
    · cases b with
      | host =>
          have hu : utf8Valid (58 :: 104 :: 46 :: x) = true := hutf
          rwa [utf8Valid_cons (by decide), utf8Valid_cons (by decide),
            utf8Valid_cons (by decide)] at hu
      | sandbox =>
          have hu : utf8Valid (58 :: 115 :: 46 :: x) = true := hutf
          rwa [utf8Valid_cons (by decide), utf8Valid_cons (by decide),
            utf8Valid_cons (by decide)] at hu
    · intro hmem
      exact hnul (List.mem_append_right _ hmem)
  exact isStr_colon.mpr ⟨hx, by omega⟩

/-- A string in a valid array is shorter than the array. -/
theorem string_length_lt {e : Endian} {fs : List Field} {code : UInt8}
    {s : Text} (hmem : (code, .str s) ∈ fs) :
    s.length + 5 ≤ (marshalFields e 16 fs).length := by
  obtain ⟨pre, post, rfl⟩ := List.append_of_mem hmem
  rw [marshalFields_string]
  simp only [List.length_append, strBytes_length]
  omega

end DbusRouter.Model
