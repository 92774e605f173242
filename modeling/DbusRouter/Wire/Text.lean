/-
Text as bytes: UTF-8 validity and repair, and the string operations of
Rust's `str` that only compare ASCII patterns.

A Rust `str` is its UTF-8 bytes, so a `Text` is a byte string and every
operation below works on bytes: splitting at, stripping, trimming and
replacing ASCII patterns gives the same result on the bytes as on the
characters. `trim` is the exception, since it removes every Unicode
white-space character; the encodings of those are listed in
`whiteSpace`.

`utf8Char` is one step of the decoder: the width of the character at the
front, or the length of the longest ill-formed piece there, which is what
`from_utf8_lossy` replaces by one U+FFFD.
-/
import DbusRouter.Wire.Bytes

namespace DbusRouter.Wire

abbrev Text := Bytes

-- ================================================================== UTF-8

/-- A continuation byte. -/
def isCont (b : UInt8) : Bool := 0x80 ≤ b && b ≤ 0xBF

/-- The allowed second bytes after the lead byte `b` of a three-byte or
four-byte character, `none` when `b` is no such lead byte. -/
def secondRange (b : UInt8) : Option (UInt8 × UInt8) :=
  if b = 0xE0 then some (0xA0, 0xBF)
  else if b = 0xED then some (0x80, 0x9F)
  else if 0xE1 ≤ b && b ≤ 0xEF then some (0x80, 0xBF)
  else if b = 0xF0 then some (0x90, 0xBF)
  else if 0xF1 ≤ b && b ≤ 0xF3 then some (0x80, 0xBF)
  else if b = 0xF4 then some (0x80, 0x8F)
  else none

/-- One step of the decoder on a nonempty byte string `b :: rest`: `true`
and the width of the character at the front, or `false` and the length of
the ill-formed piece there. -/
def utf8Char (b : UInt8) (rest : Bytes) : Bool × Nat :=
  if b < 0x80 then (true, 1)
  else if 0xC2 ≤ b && b ≤ 0xDF then
    match rest with
    | c :: _ => if isCont c then (true, 2) else (false, 1)
    | [] => (false, 1)
  else
    match secondRange b, rest with
    | some (lo, hi), c :: rest =>
        if lo ≤ c && c ≤ hi then
          match rest with
          | d :: rest =>
              if isCont d then
                if b < 0xF0 then (true, 3)
                else
                  match rest with
                  | f :: _ => if isCont f then (true, 4) else (false, 3)
                  | [] => (false, 3)
              else (false, 2)
          | [] => (false, 2)
        else (false, 1)
    | _, _ => (false, 1)

/-- Validity, `skip` bytes of the current character still to pass. -/
def utf8ValidFrom : Nat → Bytes → Bool
  | _, [] => true
  | skip + 1, _ :: bs => utf8ValidFrom skip bs
  | 0, b :: bs =>
      (utf8Char b bs).1 && utf8ValidFrom ((utf8Char b bs).2 - 1) bs

/-- The bytes are the encoding of a text (`String::from_utf8` succeeds). -/
def utf8Valid (bs : Bytes) : Bool := utf8ValidFrom 0 bs

/-- U+FFFD. -/
def replacement : Bytes := [0xEF, 0xBF, 0xBD]

/-- Repair, with `n` bytes of the current piece still to copy (`true`) or
to drop (`false`). -/
def lossyFrom : Bool → Nat → Bytes → Text
  | _, _, [] => []
  | true, n + 1, b :: bs => b :: lossyFrom true n bs
  | false, n + 1, _ :: bs => lossyFrom false n bs
  | _, 0, b :: bs =>
      match utf8Char b bs with
      | (true, w) => b :: lossyFrom true (w - 1) bs
      | (false, k) => replacement ++ lossyFrom false (k - 1) bs

/-- `String::from_utf8_lossy`. -/
def fromUtf8Lossy (bs : Bytes) : Text := lossyFrom true 0 bs

/-- `String::from_utf8`. -/
def fromUtf8 (bs : Bytes) : Option Text :=
  if utf8Valid bs then some bs else none

/-- Valid text is repaired to itself. -/
theorem lossyFrom_of_valid :
    ∀ (bs : Bytes) (n : Nat), utf8ValidFrom n bs = true →
      lossyFrom true n bs = bs := by
  intro bs
  induction bs with
  | nil =>
      intro n _
      cases n <;> rfl
  | cons b bs ih =>
      intro n h
      cases n with
      | succ n =>
          rw [lossyFrom, ih n h]
      | zero =>
          rw [utf8ValidFrom, Bool.and_eq_true] at h
          obtain ⟨hc, hrest⟩ := h
          rw [lossyFrom]
          split
          next w hw =>
            rw [hw] at hrest
            rw [ih _ hrest]
          next k hk =>
            rw [hk] at hc
            cases hc

/-- Repair leaves valid text alone. -/
theorem fromUtf8Lossy_of_valid {bs : Bytes} (h : utf8Valid bs = true) :
    fromUtf8Lossy bs = bs :=
  lossyFrom_of_valid bs 0 h

-- ============================================================== operations

/-- `str::starts_with`. -/
def startsWith (p s : Text) : Bool := p.isPrefixOf s

/-- `str::strip_prefix`. -/
def stripPrefix (p s : Text) : Option Text :=
  if p.isPrefixOf s then some (s.drop p.length) else none

/-- `str::strip_suffix`. -/
def stripSuffix (p s : Text) : Option Text :=
  if p.isSuffixOf s then some (s.take (s.length - p.length)) else none

/-- `str::split(c)` for an ASCII character. -/
def splitOn (c : UInt8) : Text → List Text
  | [] => [[]]
  | b :: s =>
      if b = c then [] :: splitOn c s
      else
        match splitOn c s with
        | [] => [[b]]
        | part :: parts => (b :: part) :: parts

/-- `str::split_once(c)` for an ASCII character. -/
def splitOnce (c : UInt8) : Text → Option (Text × Text)
  | [] => none
  | b :: s =>
      if b = c then some ([], s)
      else (splitOnce c s).map fun (k, v) => (b :: k, v)

/-- `str::trim_matches(c)` for an ASCII character. -/
def trimMatches (c : UInt8) (s : Text) : Text :=
  ((s.dropWhile (· == c)).reverse.dropWhile (· == c)).reverse

/-- The encodings of the characters with the Unicode property
White_Space. -/
def whiteSpace : List Text :=
  [[0x09], [0x0A], [0x0B], [0x0C], [0x0D], [0x20], [0xC2, 0x85],
   [0xC2, 0xA0], [0xE1, 0x9A, 0x80], [0xE2, 0x80, 0x80],
   [0xE2, 0x80, 0x81], [0xE2, 0x80, 0x82], [0xE2, 0x80, 0x83],
   [0xE2, 0x80, 0x84], [0xE2, 0x80, 0x85], [0xE2, 0x80, 0x86],
   [0xE2, 0x80, 0x87], [0xE2, 0x80, 0x88], [0xE2, 0x80, 0x89],
   [0xE2, 0x80, 0x8A], [0xE2, 0x80, 0xA8], [0xE2, 0x80, 0xA9],
   [0xE2, 0x80, 0xAF], [0xE2, 0x81, 0x9F], [0xE3, 0x80, 0x80]]

/-- Removes pieces of `ws` from the front, `fuel` of them at most. -/
def dropPieces (ws : List Text) : Nat → Text → Text
  | 0, s => s
  | fuel + 1, s =>
      match ws.find? (·.isPrefixOf s) with
      | some w => dropPieces ws fuel (s.drop w.length)
      | none => s

/-- `str::trim`. -/
def trim (s : Text) : Text :=
  let front := dropPieces whiteSpace s.length s
  (dropPieces (whiteSpace.map List.reverse) front.length
    front.reverse).reverse

/-- `str::replace` for a nonempty pattern, `skip` bytes of the last match
still to drop. -/
def replaceFrom (pat new : Text) : Nat → Text → Text
  | _, [] => []
  | skip + 1, _ :: s => replaceFrom pat new skip s
  | 0, b :: s =>
      if pat.isPrefixOf (b :: s) then
        new ++ replaceFrom pat new (pat.length - 1) s
      else b :: replaceFrom pat new 0 s

/-- `str::replace`: every match of `pat`, left to right and not
overlapping, becomes `new`. -/
def replace (s pat new : Text) : Text := replaceFrom pat new 0 s

/-- Beginning with a text is having it as a prefix. -/
theorem startsWith_iff {p s : Text} : startsWith p s = true ↔ p <+: s :=
  List.isPrefixOf_iff_prefix

/-- Splitting is the library's. -/
theorem splitOn_eq (c : UInt8) (s : Text) : splitOn c s = s.splitOn c := by
  induction s with
  | nil => rfl
  | cons b s ih =>
      unfold splitOn
      rw [List.splitOn_cons_eq_if_modifyHead, ih]
      by_cases h : b = c
      · rw [if_pos h, if_pos (beq_iff_eq.mpr h)]
      · rw [if_neg h, if_neg (by simpa using h)]
        cases hs : s.splitOn c with
        | nil => exact absurd hs (List.splitOn_ne_nil c s)
        | cons part parts => rfl

/-- The first separator is the one behind a key without one. -/
theorem splitOnce_append {c : UInt8} {k : Text} (v : Text) (h : c ∉ k) :
    splitOnce c (k ++ c :: v) = some (k, v) := by
  induction k with
  | nil => rw [List.nil_append, splitOnce, if_pos rfl]
  | cons b k ih =>
      rw [List.mem_cons, not_or] at h
      rw [List.cons_append, splitOnce, if_neg (Ne.symm h.1), ih h.2]
      rfl

/-- Where none of the pieces stands in front, none is dropped. -/
theorem dropPieces_of_none {ws : List Text} {s : Text} (fuel : Nat)
    (h : ∀ w ∈ ws, ¬w <+: s) : dropPieces ws fuel s = s := by
  cases fuel with
  | zero => rfl
  | succ fuel =>
      have hnone : ws.find? (·.isPrefixOf s) = none := by
        rw [List.find?_eq_none]
        intro w hw hprefix
        exact h w hw (List.isPrefixOf_iff_prefix.mp hprefix)
      rw [dropPieces, hnone]

/-- Text that neither begins nor ends with white space. -/
theorem trim_of_none {s : Text} (hfront : ∀ w ∈ whiteSpace, ¬w <+: s)
    (hback : ∀ w ∈ whiteSpace, ¬w.reverse <+: s.reverse) : trim s = s := by
  have hback' : ∀ w ∈ whiteSpace.map List.reverse, ¬w <+: s.reverse := by
    intro w hw
    obtain ⟨w', hw', rfl⟩ := List.mem_map.mp hw
    exact hback w' hw'
  unfold trim
  dsimp only
  rw [dropPieces_of_none _ hfront, dropPieces_of_none _ hback',
    List.reverse_reverse]

/-- Dropping a character gets past nothing that lacks it. -/
theorem dropWhile_of_not_mem {c : UInt8} {s : Text} (h : c ∉ s)
    (rest : Text) : (s ++ c :: rest).dropWhile (· == c)
      = if s = [] then rest.dropWhile (· == c) else s ++ c :: rest := by
  cases s with
  | nil => simp
  | cons b s =>
      rw [List.mem_cons, not_or] at h
      rw [if_neg (List.cons_ne_nil _ _), List.cons_append,
        List.dropWhile_cons_of_neg]
      simpa using Ne.symm h.1

/-- Text in a pair of quotes, of which it has none itself. -/
theorem trimMatches_quoted {c : UInt8} {s : Text} (h : c ∉ s) :
    trimMatches c (c :: (s ++ [c])) = s := by
  have hself := beq_self_eq_true c
  unfold trimMatches
  rw [List.dropWhile_cons_of_pos (p := (· == c)) hself,
    dropWhile_of_not_mem h]
  by_cases hs : s = []
  · subst hs
    simp
  · have hrev : c ∉ s.reverse := by simpa using h
    rw [if_neg hs, List.reverse_append, List.reverse_singleton,
      List.singleton_append,
      List.dropWhile_cons_of_pos (p := (· == c)) hself]
    cases hr : s.reverse with
    | nil => exact absurd (List.reverse_eq_nil_iff.mp hr) hs
    | cons b r =>
        rw [hr, List.mem_cons, not_or] at hrev
        rw [List.dropWhile_cons_of_neg (by simpa using Ne.symm hrev.1), ← hr,
          List.reverse_reverse]

end DbusRouter.Wire
