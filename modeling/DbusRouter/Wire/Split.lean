/-
Splitting and joining.

A text is its parts with the separator between them, and no part has one
(`splitOn_eq_iff`). So the parts of one text are the first parts of another
exactly when the other goes on behind it with a separator, or ends with it
(`splitOn_prefix_iff`).
-/
import DbusRouter.Wire.Trim

namespace DbusRouter.Wire

variable {c : UInt8} {s : Text}

theorem splitOn_ne_nil (c : UInt8) (s : Text) : splitOn c s ≠ [] := by
  rw [splitOn_eq]
  exact List.splitOn_ne_nil c s

/-- The parts of a text joined are the text. -/
theorem join_splitOn (c : UInt8) (s : Text) :
    [c].intercalate (splitOn c s) = s := by
  rw [splitOn_eq]
  exact List.intercalate_splitOn c

/-- A text has one list of parts. -/
theorem splitOn_eq_iff {parts : List Text} :
    splitOn c s = parts ↔ parts ≠ [] ∧ (∀ part ∈ parts, c ∉ part)
      ∧ s = [c].intercalate parts := by
  constructor
  · intro h
    subst h
    exact ⟨splitOn_ne_nil c s, fun part => not_mem_of_splitOn,
      (join_splitOn c s).symm⟩
  · intro h
    obtain ⟨hne, hparts, rfl⟩ := h
    rw [splitOn_eq]
    exact List.splitOn_intercalate c hparts hne

/-- Two joins with a separator between them. -/
theorem join_append {u v : List Text} (hu : u ≠ []) (hv : v ≠ []) :
    [c].intercalate (u ++ v)
      = [c].intercalate u ++ c :: [c].intercalate v := by
  induction u with
  | nil => exact absurd rfl hu
  | cons part u ih =>
      by_cases hrest : u = []
      · subst hrest
        rw [List.singleton_append, List.intercalate_cons_of_ne_nil hv,
          List.intercalate_singleton]
        simp
      · rw [List.cons_append,
          List.intercalate_cons_of_ne_nil (List.append_ne_nil_of_left_ne_nil
            hrest v), List.intercalate_cons_of_ne_nil hrest, ih hrest]
        simp

/-- The parts of `p` are the first parts of `s`. -/
theorem splitOn_prefix_iff {p : Text} :
    splitOn c p <+: splitOn c s ↔ s = p ∨ ∃ rest, s = p ++ c :: rest := by
  constructor
  · intro h
    obtain ⟨more, hmore⟩ := h
    have hs : s = [c].intercalate (splitOn c p ++ more) := by
      rw [hmore, join_splitOn]
    by_cases hnone : more = []
    · left
      rw [hs, hnone, List.append_nil, join_splitOn]
    · right
      refine ⟨[c].intercalate more, ?_⟩
      rw [hs, join_append (splitOn_ne_nil c p) hnone, join_splitOn]
  · intro h
    rcases h with rfl | ⟨rest, rfl⟩
    · exact List.prefix_refl _
    · rw [splitOn_append_cons]
      exact List.prefix_append _ _

end DbusRouter.Wire
