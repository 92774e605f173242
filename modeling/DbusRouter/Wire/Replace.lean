/-
What replacement in a text commutes with.

`Replaced` is the scan of `replace` as a relation: at each position the
pattern either stands there, and the scan goes on behind it, or it does not.
Statements about `replace` are by induction on it. A pattern without a
separator is replaced in each part of a text (`Replaced.splitOn`); one that
begins and ends with characters that no white space has is replaced in a
trimmed text (`Replaced.trim`); one with a separator in it, which the new
text has behind the same word, leaves what stands before the first separator
alone (`Replaced.splitOnce`).

How much a text loses is counted: when the new text has fewer characters of
a kind, a text in which the pattern stands loses some
(`Replaced.count_lt`).
-/
import DbusRouter.Wire.Trim
import Mathlib.Data.List.Forall2

namespace DbusRouter.Wire

/-- `s'` is `s` with every match of `pat`, left to right, replaced. -/
inductive Replaced (pat new : Text) : Text → Text → Prop
  | nil : Replaced pat new [] []
  | hit {s s' : Text} (h : Replaced pat new s s') :
      Replaced pat new (pat ++ s) (new ++ s')
  | miss {b : UInt8} {s s' : Text} (hno : ¬pat <+: b :: s)
      (h : Replaced pat new s s') : Replaced pat new (b :: s) (b :: s')

section replace

variable {pat new : Text}

/-- Characters that belong to a found pattern are passed over. -/
theorem replaceFrom_skip (k : Nat) (s : Text) :
    replaceFrom pat new k s = replaceFrom pat new 0 (s.drop k) := by
  induction s generalizing k with
  | nil => cases k <;> simp [replaceFrom]
  | cons b s ih =>
      cases k with
      | zero => rfl
      | succ k => rw [replaceFrom, ih, List.drop_succ_cons]

/-- A pattern in front is replaced, and the search goes on behind it. -/
theorem replace_append (hpat : pat ≠ []) (s : Text) :
    replace (pat ++ s) pat new = new ++ replace s pat new := by
  obtain ⟨b, p, rfl⟩ := List.exists_cons_of_ne_nil hpat
  have hfront : (b :: p).isPrefixOf (b :: (p ++ s)) = true :=
    List.isPrefixOf_iff_prefix.mpr (List.prefix_append (b :: p) s)
  unfold replace
  rw [List.cons_append, replaceFrom, if_pos hfront, replaceFrom_skip,
    List.length_cons, Nat.add_sub_cancel, List.drop_left]

/-- A character at which no pattern begins stays. -/
theorem replace_cons {b : UInt8} {s : Text} (hno : ¬pat <+: b :: s) :
    replace (b :: s) pat new = b :: replace s pat new := by
  unfold replace
  rw [replaceFrom,
    if_neg fun h => hno (List.isPrefixOf_iff_prefix.mp h)]

/-- What `replace` gives is a replacement from left to right. -/
theorem replaced_replace (hpat : pat ≠ []) (new s : Text) :
    Replaced pat new s (replace s pat new) := by
  induction hn : s.length using Nat.strong_induction_on generalizing s with
  | _ n ih =>
      have hpos := List.length_pos_of_ne_nil hpat
      cases s with
      | nil => exact .nil
      | cons b s =>
          by_cases h : pat <+: b :: s
          · obtain ⟨t, ht⟩ := h
            rw [← ht] at hn ⊢
            rw [List.length_append] at hn
            rw [replace_append hpat]
            exact .hit (ih t.length (by omega) t rfl)
          · rw [List.length_cons] at hn
            rw [replace_cons h]
            exact .miss h (ih s.length (by omega) s rfl)

/-- There is no other text with the matches replaced. -/
theorem Replaced.eq_replace (hpat : pat ≠ []) {s s' : Text}
    (h : Replaced pat new s s') : s' = replace s pat new := by
  induction h with
  | nil => rfl
  | hit _ ih => rw [replace_append hpat, ← ih]
  | miss hno _ ih => rw [replace_cons hno, ← ih]

/-- Replacing from left to right has one result. -/
theorem Replaced.unique (hpat : pat ≠ []) {s s₁ s₂ : Text}
    (h₁ : Replaced pat new s s₁) (h₂ : Replaced pat new s s₂) : s₁ = s₂ :=
  (h₁.eq_replace hpat).trans (h₂.eq_replace hpat).symm

end replace

-- ================================================================== matches

section count

variable {pat new s s' : Text}

/-- Without the pattern nothing is replaced. -/
theorem Replaced.eq_of_not_infix (h : Replaced pat new s s')
    (hno : ¬pat <:+: s) : s' = s := by
  induction h with
  | nil => rfl
  | hit => exact absurd (List.prefix_append ..).isInfix hno
  | miss _ _ ih =>
      rw [ih fun hrest => hno (hrest.trans (List.suffix_cons ..).isInfix)]

/-- A replacement that has no more of a character than the pattern adds none of
it to the text. -/
theorem Replaced.count_le (p : UInt8 → Bool)
    (hcount : new.countP p ≤ pat.countP p) (h : Replaced pat new s s') :
    s'.countP p ≤ s.countP p := by
  induction h with
  | nil => exact Nat.le_refl _
  | hit _ ih =>
      rw [List.countP_append, List.countP_append]
      omega
  | miss _ _ ih =>
      rw [List.countP_cons, List.countP_cons]
      omega

/-- A text in which the pattern stands loses some. -/
theorem Replaced.count_lt (p : UInt8 → Bool)
    (hcount : new.countP p < pat.countP p) (h : Replaced pat new s s')
    (hin : pat <:+: s) : s'.countP p < s.countP p := by
  induction h with
  | nil =>
      rw [List.infix_nil] at hin
      rw [hin] at hcount
      simp at hcount
  | hit h _ =>
      have hle := h.count_le p hcount.le
      rw [List.countP_append, List.countP_append]
      omega
  | miss hno _ ih =>
      rw [List.infix_cons_iff] at hin
      have hrest := ih (hin.resolve_left hno)
      rw [List.countP_cons, List.countP_cons]
      omega

/-- The first match is the first to be replaced. -/
theorem Replaced.first (h : Replaced pat new s s') (hin : pat <:+: s) :
    pat = [] ∨ ∃ front rest rest', s = front ++ (pat ++ rest)
      ∧ s' = front ++ (new ++ rest') ∧ Replaced pat new rest rest' := by
  induction h with
  | nil =>
      rw [List.infix_nil] at hin
      exact .inl hin
  | @hit s s' h _ => exact .inr ⟨[], s, s', rfl, rfl, h⟩
  | @miss b s s' hno _ ih =>
      rw [List.infix_cons_iff] at hin
      rcases ih (hin.resolve_left hno) with hnil |
        ⟨front, rest, rest', rfl, rfl, h⟩
      · exact .inl hnil
      · exact .inr ⟨b :: front, rest, rest', rfl, rfl, h⟩

end count

-- =================================================================== the ends

section ends

variable {pat new s s' w : Text} {c q : UInt8} {p n : Text}

/-- A text without the pattern's first character is passed over. -/
theorem Replaced.append_left (hw : c ∉ w) (h : Replaced (c :: p) new s s') :
    Replaced (c :: p) new (w ++ s) (w ++ s') := by
  induction w with
  | nil => exact h
  | cons b w ih =>
      rw [List.mem_cons, not_or] at hw
      refine .miss ?_ (ih hw.2)
      intro hfront
      exact hw.1 (List.cons_prefix_cons.mp hfront).1

/-- In front, a text without the first character of both stands where it
stood. -/
theorem Replaced.prefix_iff (hw : c ∉ w)
    (h : Replaced (c :: p) (c :: n) s s') : w <+: s ↔ w <+: s' := by
  constructor
  · rintro ⟨t, rfl⟩
    have happend := Replaced.append_left hw
      (replaced_replace (List.cons_ne_nil c p) (c :: n) t)
    rw [h.unique (List.cons_ne_nil c p) happend]
    exact List.prefix_append ..
  · intro hfront
    induction h generalizing w with
    | nil => exact hfront
    | hit _ _ =>
        cases w with
        | nil => exact List.nil_prefix
        | cons b w =>
            have hb := (List.cons_prefix_cons.mp hfront).1
            exact absurd (hb ▸ List.mem_cons_self ..) hw
    | miss _ _ ih =>
        cases w with
        | nil => exact List.nil_prefix
        | cons b w =>
            obtain ⟨rfl, hrest⟩ := List.cons_prefix_cons.mp hfront
            rw [List.mem_cons, not_or] at hw
            exact List.cons_prefix_cons.mpr ⟨rfl, ih hw.2 hrest⟩

/-- A text without the pattern's last character may follow. -/
theorem Replaced.append_right (hw : q ∉ w)
    (h : Replaced (p ++ [q]) new s s') :
    Replaced (p ++ [q]) new (s ++ w) (s' ++ w) := by
  induction h with
  | nil =>
      have hself := replaced_replace
        (List.append_ne_nil_of_right_ne_nil p (List.cons_ne_nil q [])) new w
      rw [hself.eq_of_not_infix fun hin => hw (hin.subset (by simp))]
        at hself
      exact hself
  | @hit s s' _ ih =>
      rw [List.append_assoc _ s, List.append_assoc new]
      exact .hit ih
  | @miss b s s' hno _ ih =>
      refine .miss ?_ ih
      intro hfront
      rw [List.append_eq] at hfront
      rcases List.prefix_or_prefix_of_prefix hfront
        (show b :: s <+: b :: (s ++ w) from List.prefix_append (b :: s) w)
        with hin | ⟨t, ht⟩
      · exact hno hin
      · -- the pattern would end in what follows
        rw [← ht, ← List.cons_append,
          List.prefix_append_right_inj] at hfront
        have hne : t ≠ [] := by
          rintro rfl
          rw [List.append_nil] at ht
          exact hno (ht ▸ List.prefix_refl _)
        have hlast : q ∈ t := by
          have hq : (b :: s ++ t).getLast? = some q := by
            rw [ht]
            simp
          rw [List.getLast?_append_of_ne_nil _ hne] at hq
          exact List.mem_of_getLast? hq
        exact hw (hfront.subset hlast)

/-- A result without the last character of the replacement had nothing
replaced. -/
theorem Replaced.eq_of_not_mem (hs : q ∉ s')
    (h : Replaced pat (n ++ [q]) s s') : s' = s := by
  induction h with
  | nil => rfl
  | hit => exact absurd (by simp) hs
  | miss _ _ ih =>
      rw [List.mem_cons, not_or] at hs
      rw [ih hs.2]

/-- And at the back a text without the last character of both. -/
theorem Replaced.suffix_iff (hw : q ∉ w)
    (h : Replaced (p ++ [q]) (n ++ [q]) s s') : w <:+ s ↔ w <:+ s' := by
  have hne : p ++ [q] ≠ [] :=
    List.append_ne_nil_of_right_ne_nil p (List.cons_ne_nil q [])
  constructor
  · rintro ⟨t, rfl⟩
    have happend := Replaced.append_right hw
      (replaced_replace hne (n ++ [q]) t)
    rw [h.unique hne happend]
    exact List.suffix_append ..
  · intro hsuffix
    induction h with
    | nil => exact hsuffix
    | @hit s s' _ ih =>
        rcases List.suffix_or_suffix_of_suffix hsuffix
          (List.suffix_append (n ++ [q]) s') with hin | ⟨t, rfl⟩
        · exact (ih hin).trans (List.suffix_append ..)
        · rw [List.suffix_append_self_iff] at hsuffix
          have ht : t = [] := by
            by_contra hne'
            have hlast : t.getLast? = some q := by
              obtain ⟨r, hr⟩ := hsuffix
              have hq : (r ++ t).getLast? = some q := by
                rw [hr]
                simp
              rwa [List.getLast?_append_of_ne_nil _ hne'] at hq
            exact hw (List.mem_append_left _ (List.mem_of_getLast? hlast))
          rw [ht, List.nil_append] at ih ⊢
          exact (ih (List.suffix_refl _)).trans (List.suffix_append ..)
    | @miss b s s' _ h ih =>
        rcases List.suffix_cons_iff.mp hsuffix with rfl | hin
        · rw [List.mem_cons, not_or] at hw
          obtain rfl := h.eq_of_not_mem hw.2
          exact List.suffix_refl _
        · exact (ih hin).trans (List.suffix_cons ..)

end ends

-- =================================================================== trimming

section trim

variable {ws : List Text} {s s' : Text} {c q : UInt8} {p n p' n' : Text}

/-- Pieces dropped in front, which end where the pattern can begin, leave a
replacement. -/
theorem Replaced.dropPieces_front (hws : ∀ w ∈ ws, c ∉ w)
    (h : Replaced (c :: p) (c :: n) s s') (fuel : Nat) :
    Replaced (c :: p) (c :: n) (dropPieces ws fuel s)
      (dropPieces ws fuel s') := by
  induction fuel generalizing s s' with
  | zero => exact h
  | succ fuel ih =>
      have hfind : ws.find? (·.isPrefixOf s')
          = ws.find? (·.isPrefixOf s) := by
        refine List.find?_congr fun w hw => ?_
        rw [Bool.eq_iff_iff, List.isPrefixOf_iff_prefix,
          List.isPrefixOf_iff_prefix]
        exact (h.prefix_iff (hws w hw)).symm
      unfold dropPieces
      rw [hfind]
      cases hw : ws.find? (·.isPrefixOf s) with
      | none => exact h
      | some w =>
          have hno := hws w (List.mem_of_find?_eq_some hw)
          have hfront := List.find?_some hw
          obtain ⟨t, rfl⟩ : w <+: s :=
            List.isPrefixOf_iff_prefix.mp hfront
          have hne := List.cons_ne_nil c p
          have ht := replaced_replace hne (c :: n) t
          have hs' := h.unique hne (ht.append_left hno)
          rw [hs']
          dsimp only
          rw [List.drop_left, List.drop_left]
          exact ih ht

/-- The same at the back, read from there. -/
theorem Replaced.dropPieces_back (hws : ∀ w ∈ ws, q ∉ w)
    (h : Replaced (p ++ [q]) (n ++ [q]) s s') (fuel : Nat) :
    Replaced (p ++ [q]) (n ++ [q])
      (dropPieces (ws.map List.reverse) fuel s.reverse).reverse
      (dropPieces (ws.map List.reverse) fuel s'.reverse).reverse := by
  induction fuel generalizing s s' with
  | zero =>
      unfold dropPieces
      rw [List.reverse_reverse, List.reverse_reverse]
      exact h
  | succ fuel ih =>
      have hfind : (ws.map List.reverse).find? (·.isPrefixOf s'.reverse)
          = (ws.map List.reverse).find? (·.isPrefixOf s.reverse) := by
        refine List.find?_congr fun w hw => ?_
        obtain ⟨w, hmem, rfl⟩ := List.mem_map.mp hw
        rw [Bool.eq_iff_iff, List.isPrefixOf_iff_prefix,
          List.isPrefixOf_iff_prefix, List.reverse_prefix,
          List.reverse_prefix]
        exact (h.suffix_iff (hws w hmem)).symm
      unfold dropPieces
      rw [hfind]
      cases hw : (ws.map List.reverse).find? (·.isPrefixOf s.reverse) with
      | none =>
          dsimp only
          rw [List.reverse_reverse, List.reverse_reverse]
          exact h
      | some w =>
          obtain ⟨w, hmem, rfl⟩ :=
            List.mem_map.mp (List.mem_of_find?_eq_some hw)
          have hno := hws w hmem
          have hfront := List.find?_some hw
          obtain ⟨t, rfl⟩ : w <:+ s :=
            List.reverse_prefix.mp (List.isPrefixOf_iff_prefix.mp hfront)
          have hne : p ++ [q] ≠ [] :=
            List.append_ne_nil_of_right_ne_nil p (List.cons_ne_nil q [])
          have ht := replaced_replace hne (n ++ [q]) t
          have hs' := h.unique hne (ht.append_right hno)
          rw [hs']
          dsimp only
          rw [List.reverse_append, List.reverse_append, List.drop_left,
            List.drop_left]
          exact ih ht

/-- Trimming leaves a replacement, where white space has neither end of the
pattern. -/
theorem Replaced.trim (hpat : c :: p = p' ++ [q]) (hnew : c :: n = n' ++ [q])
    (hc : ∀ w ∈ whiteSpace, c ∉ w) (hq : ∀ w ∈ whiteSpace, q ∉ w)
    (h : Replaced (c :: p) (c :: n) s s') :
    Replaced (c :: p) (c :: n) (trim s) (trim s') := by
  have hfront := h.dropPieces_front hc (max s.length s'.length)
  rw [trim_fuel (Nat.le_max_left s.length s'.length),
    trim_fuel (Nat.le_max_right s.length s'.length)]
  rw [hpat, hnew] at hfront ⊢
  exact hfront.dropPieces_back hq _

end trim

-- ====================================================================== parts

section parts

variable {pat new s s' : Text} {e : UInt8}

/-- A pattern without the separator is replaced part by part. -/
theorem Replaced.splitOn (hpat : e ∉ pat) (hnew : e ∉ new)
    (h : Replaced pat new s s') :
    List.Forall₂ (Replaced pat new) (splitOn e s) (splitOn e s') := by
  induction h with
  | nil => exact .cons .nil .nil
  | @hit s s' _ ih =>
      obtain ⟨part, parts, hs, hpart⟩ := splitOn_append hpat s
      obtain ⟨part', parts', hs', hpart'⟩ := splitOn_append hnew s'
      rw [hs, hs', List.forall₂_cons] at ih
      rw [hpart, hpart']
      exact .cons (.hit ih.1) ih.2
  | @miss b s s' hno _ ih =>
      by_cases hb : b = e
      · unfold Wire.splitOn
        rw [if_pos hb, if_pos hb]
        exact .cons .nil ih
      · have hmem : e ∉ [b] := by simpa using Ne.symm hb
        obtain ⟨part, parts, hs, hpart⟩ := splitOn_append hmem s
        obtain ⟨part', parts', hs', hpart'⟩ := splitOn_append hmem s'
        rw [hs, hs', List.forall₂_cons] at ih
        rw [List.singleton_append, List.singleton_append] at hpart hpart'
        rw [hpart, hpart']
        refine .cons (.miss ?_ ih.1) ih.2
        intro hfront
        exact hno (hfront.trans
          (List.cons_prefix_cons.mpr ⟨rfl, prefix_of_splitOn hs⟩))

/-- What stands before the first separator is not touched. -/
theorem Replaced.splitOnce {word qx qu : Text} (hword : e ∉ word)
    (h : Replaced (word ++ e :: qx) (word ++ e :: qu) s s') :
    (splitOnce e s').map Prod.fst = (splitOnce e s).map Prod.fst := by
  induction h with
  | nil => rfl
  | hit =>
      rw [List.append_assoc, List.append_assoc, List.cons_append,
        List.cons_append, splitOnce_append _ hword, splitOnce_append _ hword]
      rfl
  | @miss b s s' _ _ ih =>
      unfold Wire.splitOnce
      split
      next => rfl
      next =>
        cases hs : Wire.splitOnce e s with
        | none =>
            rw [hs, Option.map_none, Option.map_eq_none_iff] at ih
            rw [ih]
        | some pair =>
            rw [hs, Option.map_some, Option.map_eq_some_iff] at ih
            obtain ⟨pair', hs', hkey⟩ := ih
            rw [hs']
            show some (b :: pair'.1) = some (b :: pair.1)
            rw [hkey]

/-- A text without the pattern stays. -/
theorem Replaced.of_not_infix (hno : ¬pat <:+: s) : Replaced pat new s s := by
  induction s with
  | nil => exact .nil
  | cons b s ih =>
      apply Replaced.miss
      · exact fun hfront => hno hfront.isInfix
      · exact ih fun hin => hno (hin.trans (List.suffix_cons ..).isInfix)

/-- Nothing is replaced across a separator that is not in the pattern. -/
theorem Replaced.append_separated {t t' : Text} (hpat : e ∉ pat)
    (hne : pat ≠ []) (h : Replaced pat new s s') (ht : Replaced pat new t t') :
    Replaced pat new (s ++ e :: t) (s' ++ e :: t') := by
  have hsep : ∀ w : Text, ¬pat <+: w → ¬pat <+: w ++ e :: t := by
    intro w hno hfront
    rcases List.prefix_or_prefix_of_prefix hfront
      (List.prefix_append w (e :: t)) with hin | ⟨rest, rfl⟩
    · exact hno hin
    · rw [List.prefix_append_right_inj] at hfront
      cases rest with
      | nil => exact hno (by simp)
      | cons c rest =>
          obtain ⟨rfl, -⟩ := List.cons_prefix_cons.mp hfront
          exact hpat (by simp)
  induction h with
  | nil =>
      apply Replaced.miss _ ht
      exact hsep [] (by simpa using hne)
  | hit _ ih =>
      rw [List.append_assoc, List.append_assoc]
      exact .hit ih
  | @miss b s s' hno _ ih =>
      rw [List.cons_append, List.cons_append]
      exact .miss (hsep (b :: s) hno) ih

/-- Parts with separators between them are replaced part by part. -/
theorem Replaced.intercalate {parts parts' : List Text} (hpat : e ∉ pat)
    (hne : pat ≠ []) (h : List.Forall₂ (Replaced pat new) parts parts') :
    Replaced pat new ([e].intercalate parts) ([e].intercalate parts') := by
  induction h with
  | nil => exact .nil
  | @cons part part' parts parts' hpart hparts ih =>
      cases hparts with
      | nil => simpa [List.intercalate] using hpart
      | cons hnext hrest =>
          have hjoin := hpart.append_separated hpat hne ih
          simpa [List.intercalate] using hjoin

end parts

end DbusRouter.Wire
