/-
What splitting and trimming leave of a text.

`splitOn` cuts at every separator, so that no part has one and the parts of
two texts with a separator between them are those of both. Trimming takes
pieces of white space, or one character, from the ends and goes no further
than a character that is neither.
-/
import DbusRouter.Wire.Text
import Mathlib.Data.List.DropRight
import Mathlib.Data.List.Find

namespace DbusRouter.Wire

-- =================================================================== splitting

/-- Text without the separator lengthens the first part. -/
theorem splitOn_append {e : UInt8} {w : Text} (hw : e ∉ w) (s : Text) :
    ∃ part parts, splitOn e s = part :: parts
      ∧ splitOn e (w ++ s) = (w ++ part) :: parts := by
  induction w with
  | nil =>
      cases hs : splitOn e s with
      | nil => exact absurd (splitOn_eq e s ▸ hs) (List.splitOn_ne_nil e s)
      | cons part parts => exact ⟨part, parts, rfl, hs⟩
  | cons b w ih =>
      rw [List.mem_cons, not_or] at hw
      obtain ⟨part, parts, hs, hws⟩ := ih hw.2
      refine ⟨part, parts, hs, ?_⟩
      rw [List.cons_append, splitOn, if_neg (Ne.symm hw.1), hws]
      rfl

/-- Splitting at a separator splits both sides of it. -/
theorem splitOn_append_cons (c : UInt8) (s t : Text) :
    splitOn c (s ++ c :: t) = splitOn c s ++ splitOn c t := by
  induction s with
  | nil =>
      show splitOn c (c :: t) = [] :: splitOn c t
      rw [splitOn, if_pos rfl]
  | cons b s ih =>
      rw [List.cons_append, splitOn, splitOn]
      split
      next => rw [ih, List.cons_append]
      next =>
        rw [ih]
        cases hs : splitOn c s with
        | nil => exact absurd (splitOn_eq c s ▸ hs) (List.splitOn_ne_nil c s)
        | cons part parts => rfl

/-- The first part stands in front. -/
theorem prefix_of_splitOn {e : UInt8} {s part : Text} {parts : List Text} :
    splitOn e s = part :: parts → part <+: s := by
  induction s generalizing part parts with
  | nil =>
      intro h
      obtain ⟨rfl, -⟩ := List.cons.inj h
      exact List.prefix_refl _
  | cons b s ih =>
      intro h
      unfold splitOn at h
      split at h
      next =>
        obtain ⟨rfl, -⟩ := List.cons.inj h
        exact List.nil_prefix
      next =>
        split at h
        next hs =>
          exact absurd (splitOn_eq e s ▸ hs) (List.splitOn_ne_nil e s)
        next part' parts' hs =>
          obtain ⟨rfl, -⟩ := List.cons.inj h
          exact List.cons_prefix_cons.mpr ⟨rfl, ih hs⟩

/-- No part has the separator in it. -/
theorem not_mem_of_splitOn {c : UInt8} {s part : Text}
    (h : part ∈ splitOn c s) : c ∉ part := by
  induction s generalizing part with
  | nil =>
      rw [splitOn, List.mem_singleton] at h
      rw [h]
      exact List.not_mem_nil
  | cons b s ih =>
      by_cases hb : b = c
      · rw [splitOn, if_pos hb, List.mem_cons] at h
        rcases h with rfl | h
        · exact List.not_mem_nil
        · exact ih h
      · obtain ⟨first, parts, hs, hbs⟩ := splitOn_append
          (show c ∉ [b] by simpa using Ne.symm hb) s
        rw [List.singleton_append] at hbs
        rw [hbs, List.mem_cons] at h
        rcases h with rfl | h
        · rw [List.singleton_append, List.mem_cons, not_or]
          exact ⟨Ne.symm hb, ih (hs ▸ List.mem_cons_self ..)⟩
        · exact ih (hs ▸ List.mem_cons_of_mem _ h)

/-- Splitting once splits at the first separator. -/
theorem splitOnce_eq_some_iff {c : UInt8} {s k v : Text} :
    splitOnce c s = some (k, v) ↔ s = k ++ c :: v ∧ c ∉ k := by
  constructor
  · intro h
    induction s generalizing k with
    | nil => cases h
    | cons b s ih =>
        unfold splitOnce at h
        split at h
        next hb =>
          obtain ⟨rfl, rfl⟩ := Prod.mk.inj (Option.some.inj h)
          exact ⟨by rw [hb]; rfl, List.not_mem_nil⟩
        next hb =>
          obtain ⟨⟨k', v'⟩, hrest, heq⟩ := Option.map_eq_some_iff.mp h
          obtain ⟨rfl, rfl⟩ := Prod.mk.inj heq
          obtain ⟨rfl, hno⟩ := ih hrest
          refine ⟨rfl, ?_⟩
          rw [List.mem_cons, not_or]
          exact ⟨Ne.symm hb, hno⟩
  · rintro ⟨rfl, hno⟩
    exact splitOnce_append v hno

/-- A prefix that is stripped was there. -/
theorem stripPrefix_eq_some_iff {p s t : Text} :
    stripPrefix p s = some t ↔ s = p ++ t := by
  unfold stripPrefix
  constructor
  · intro h
    split at h
    next hprefix =>
      cases h
      obtain ⟨rest, rfl⟩ := List.isPrefixOf_iff_prefix.mp hprefix
      rw [List.drop_left]
    next => cases h
  · rintro rfl
    rw [if_pos (List.isPrefixOf_iff_prefix.mpr (List.prefix_append ..)),
      List.drop_left]

/-- A suffix that is stripped was there. -/
theorem stripSuffix_eq_some_iff {p s t : Text} :
    stripSuffix p s = some t ↔ s = t ++ p := by
  unfold stripSuffix
  constructor
  · intro h
    split at h
    next hsuffix =>
      cases h
      obtain ⟨rest, rfl⟩ := List.isSuffixOf_iff_suffix.mp hsuffix
      rw [List.length_append, Nat.add_sub_cancel, List.take_left]
    next => cases h
  · rintro rfl
    rw [if_pos (List.isSuffixOf_iff_suffix.mpr (List.suffix_append ..)),
      List.length_append, Nat.add_sub_cancel, List.take_left]

-- ================================================================= white space

/-- `str::trim_end`. -/
def trimEnd (s : Text) : Text :=
  (dropPieces (whiteSpace.map List.reverse) s.length s.reverse).reverse

/-- What is dropped is made of pieces. -/
theorem dropPieces_split (ws : List Text) (fuel : Nat) (s : Text) :
    ∃ removed, s = removed ++ dropPieces ws fuel s
      ∧ ∀ b ∈ removed, ∃ w ∈ ws, b ∈ w := by
  induction fuel generalizing s with
  | zero => exact ⟨[], rfl, by simp⟩
  | succ fuel ih =>
      unfold dropPieces
      split
      next w hw =>
        have hpiece := List.find?_some hw
        obtain ⟨t, rfl⟩ := List.isPrefixOf_iff_prefix.mp hpiece
        rw [List.drop_left]
        obtain ⟨removed, ht, hremoved⟩ := ih t
        refine ⟨w ++ removed, ?_, ?_⟩
        · rw [List.append_assoc, ← ht]
        · intro b hb
          rcases List.mem_append.mp hb with hb | hb
          · exact ⟨w, List.mem_of_find?_eq_some hw, hb⟩
          · exact hremoved b hb
      next => exact ⟨[], rfl, by simp⟩

/-- What is left of dropping pieces is an end of the text. -/
theorem dropPieces_suffix (ws : List Text) (fuel : Nat) (s : Text) :
    dropPieces ws fuel s <:+ s := by
  obtain ⟨removed, hs, -⟩ := dropPieces_split ws fuel s
  exact ⟨removed, hs.symm⟩

/-- More fuel than the text is long makes no difference. -/
theorem dropPieces_fuel {ws : List Text} (hws : ∀ w ∈ ws, w ≠ []) :
    ∀ (s : Text) (f g : Nat), s.length ≤ f → s.length ≤ g →
      dropPieces ws f s = dropPieces ws g s := by
  intro s f g hf hg
  induction f generalizing s g with
  | zero =>
      obtain rfl := List.eq_nil_of_length_eq_zero (Nat.le_zero.mp hf)
      refine (dropPieces_of_none g ?_).symm
      intro w hw hprefix
      exact hws w hw (List.prefix_nil.mp hprefix)
  | succ f ih =>
      cases g with
      | zero =>
          obtain rfl := List.eq_nil_of_length_eq_zero (Nat.le_zero.mp hg)
          refine dropPieces_of_none (f + 1) ?_
          intro w hw hprefix
          exact hws w hw (List.prefix_nil.mp hprefix)
      | succ g =>
          unfold dropPieces
          cases hfind : ws.find? (·.isPrefixOf s) with
          | none => rfl
          | some w =>
              have hpos := List.length_pos_of_ne_nil
                (hws w (List.mem_of_find?_eq_some hfind))
              have hdrop : (s.drop w.length).length
                  = s.length - w.length := List.length_drop ..
              exact ih _ _ (by omega) (by omega)

/-- Enough fuel is as good as the length of the text. -/
theorem trim_fuel {s : Text} {f : Nat} (hf : s.length ≤ f) :
    trim s = (dropPieces (whiteSpace.map List.reverse) f
      (dropPieces whiteSpace f s).reverse).reverse := by
  have hne : ∀ w ∈ whiteSpace, w ≠ [] := by decide
  have hne' : ∀ w ∈ whiteSpace.map List.reverse, w ≠ [] := by decide
  have hlen := (dropPieces_suffix whiteSpace f s).length_le
  unfold trim
  dsimp only
  rw [dropPieces_fuel hne s s.length f (Nat.le_refl _) hf,
    dropPieces_fuel hne' _ _ f (by rw [List.length_reverse])
      (by rw [List.length_reverse]; omega)]

/-- Trimming takes white space only from the ends. -/
theorem trim_subset (s : Text) : trim s ⊆ s := by
  intro b hb
  unfold trim at hb
  rw [List.mem_reverse] at hb
  have hfront := (dropPieces_suffix _ _ _).subset hb
  rw [List.mem_reverse] at hfront
  exact (dropPieces_suffix _ _ _).subset hfront

/-- No white space has the character. -/
def PlainChar (b : UInt8) : Prop := ∀ w ∈ whiteSpace, b ∉ w

instance : DecidablePred PlainChar := fun _ =>
  inferInstanceAs (Decidable (∀ w ∈ whiteSpace, _))

/-- Pieces are removed in front of a character that none has. -/
theorem dropPieces_append {ws : List Text} {d : UInt8}
    (hd : ∀ w ∈ ws, d ∉ w) (fuel : Nat) (s rest : Text) :
    dropPieces ws fuel (s ++ d :: rest)
      = dropPieces ws fuel s ++ d :: rest := by
  induction fuel generalizing s with
  | zero => rfl
  | succ fuel ih =>
      have hprefix (w : Text) (hw : w ∈ ws) :
          w <+: s ++ d :: rest ↔ w <+: s := by
        constructor
        · intro h
          rcases List.prefix_or_prefix_of_prefix h
            (List.prefix_append s (d :: rest)) with h' | ⟨t, rfl⟩
          · exact h'
          · rw [List.prefix_append_right_inj] at h
            cases t with
            | nil => simp
            | cons b t =>
                obtain ⟨rfl, -⟩ := List.cons_prefix_cons.mp h
                exact absurd (by simp) (hd _ hw)
        · exact fun h => h.trans (List.prefix_append ..)
      have hfind : ws.find? (·.isPrefixOf (s ++ d :: rest))
          = ws.find? (·.isPrefixOf s) := by
        refine List.find?_congr fun w hw => ?_
        rw [Bool.eq_iff_iff, List.isPrefixOf_iff_prefix,
          List.isPrefixOf_iff_prefix]
        exact hprefix w hw
      unfold dropPieces
      rw [hfind]
      cases hw : ws.find? (·.isPrefixOf s) with
      | none => rfl
      | some w =>
          have hpiece := List.find?_some hw
          have hle := (List.isPrefixOf_iff_prefix.mp hpiece).length_le
          dsimp only
          rw [List.drop_append_of_le_length hle]
          exact ih _

/-- Nothing is trimmed in front of a character that is no white space. -/
theorem trimEnd_append {d : UInt8} (hd : PlainChar d) (front s : Text) :
    trimEnd (front ++ d :: s) = front ++ d :: trimEnd s := by
  have hd' : ∀ w ∈ whiteSpace.map List.reverse, d ∉ w := by
    intro w hw
    obtain ⟨w, hmem, rfl⟩ := List.mem_map.mp hw
    rw [List.mem_reverse]
    exact hd w hmem
  have hne : ∀ w ∈ whiteSpace.map List.reverse, w ≠ [] := by decide
  unfold trimEnd
  rw [List.reverse_append, List.reverse_cons, List.append_assoc,
    List.singleton_append, dropPieces_append hd',
    dropPieces_fuel hne s.reverse _ s.length (by simp; omega) (by simp)]
  simp only [List.reverse_append, List.reverse_cons, List.reverse_reverse,
    List.append_assoc, List.singleton_append]

/-- What is trimmed at the end has the characters of white space alone. -/
theorem trimEnd_split (s : Text) :
    ∃ removed, s = trimEnd s ++ removed
      ∧ ∀ b ∈ removed, ¬PlainChar b := by
  obtain ⟨removed, hs, hremoved⟩ :=
    dropPieces_split (whiteSpace.map List.reverse) s.length s.reverse
  refine ⟨removed.reverse, ?_, ?_⟩
  · unfold trimEnd
    rw [← List.reverse_append, ← hs, List.reverse_reverse]
  · intro b hb hplain
    obtain ⟨w, hw, hbw⟩ := hremoved b (List.mem_reverse.mp hb)
    obtain ⟨w, hmem, rfl⟩ := List.mem_map.mp hw
    exact hplain w hmem (List.mem_reverse.mp hbw)

-- =============================================================== one character

/-- Trimming a character does not touch the others. -/
theorem filter_trimMatches (c : UInt8) (s : Text) :
    (trimMatches c s).filter (· != c) = s.filter (· != c) := by
  have hdrop (s : Text) :
      (s.dropWhile (· == c)).filter (· != c) = s.filter (· != c) := by
    induction s with
    | nil => rfl
    | cons b s ih =>
        rw [List.dropWhile_cons]
        split
        next hb =>
          rw [ih, List.filter_cons_of_neg]
          simpa using hb
        next => rfl
  unfold trimMatches
  rw [List.filter_reverse, hdrop, ← List.filter_reverse,
    List.reverse_reverse, hdrop]

/-- Trimming adds no character. -/
theorem trimMatches_subset (c : UInt8) (s : Text) : trimMatches c s ⊆ s := by
  intro b hb
  unfold trimMatches at hb
  rw [List.mem_reverse] at hb
  have hback := (List.dropWhile_suffix _).subset hb
  rw [List.mem_reverse] at hback
  exact (List.dropWhile_suffix _).subset hback

/-- Dropping ends at the first other character. -/
theorem dropWhile_append_cons {b c : UInt8} (hb : b ≠ c)
    (front rest : Text) : (front ++ b :: rest).dropWhile (· == c)
      = front.dropWhile (· == c) ++ b :: rest := by
  have hbeq : (b == c) = false := by simpa using hb
  induction front with
  | nil => rw [List.nil_append, List.dropWhile_cons, hbeq]; rfl
  | cons d front ih =>
      rw [List.cons_append, List.dropWhile_cons, List.dropWhile_cons, ih]
      split <;> rfl

/-- Dropping at the end ends at the last other character. -/
theorem rdropWhile_append_cons {b c : UInt8} (hb : b ≠ c)
    (front rest : Text) : (front ++ b :: rest).rdropWhile (· == c)
      = front ++ b :: rest.rdropWhile (· == c) := by
  unfold List.rdropWhile
  rw [List.reverse_append, List.reverse_cons, List.append_assoc,
    List.singleton_append, dropWhile_append_cons hb, List.reverse_append,
    List.reverse_cons, List.reverse_reverse, List.append_assoc,
    List.singleton_append]

/-- Trimming goes no further than a text that does not begin or end with
what is trimmed. -/
theorem trimMatches_append {c : UInt8} {s : Text} (hs : s ≠ [])
    (hfirst : ∀ b ∈ s.head?, b ≠ c) (hlast : ∀ b ∈ s.getLast?, b ≠ c)
    (front rest : Text) : trimMatches c (front ++ s ++ rest)
      = front.dropWhile (· == c) ++ s ++ rest.rdropWhile (· == c) := by
  have hdrop : (front ++ s ++ rest).dropWhile (· == c)
      = front.dropWhile (· == c) ++ s ++ rest := by
    cases s with
    | nil => exact absurd rfl hs
    | cons b s =>
        rw [List.append_assoc, List.cons_append,
          dropWhile_append_cons (hfirst b rfl), ← List.cons_append,
          ← List.append_assoc]
  have hback (before : Text) : (before ++ s ++ rest).rdropWhile (· == c)
      = before ++ s ++ rest.rdropWhile (· == c) := by
    cases s using List.reverseRecOn with
    | nil => exact absurd rfl hs
    | append_singleton s b =>
        have hb : b ≠ c := hlast b (by simp)
        rw [← List.append_assoc, List.append_assoc (before ++ s),
          List.append_assoc (before ++ s), List.singleton_append,
          List.singleton_append, rdropWhile_append_cons hb]
  have heq : trimMatches c (front ++ s ++ rest)
      = ((front ++ s ++ rest).dropWhile (· == c)).rdropWhile (· == c) := rfl
  rw [heq, hdrop, hback]

end DbusRouter.Wire
