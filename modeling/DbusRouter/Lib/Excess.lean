/-
Counters that stop at zero.

Some symbols of a word raise a counter and some lower it, and where it is zero
it cannot be lowered. What it shows is not the difference of the two numbers,
for a symbol that lowers it in vain is not made up for by those behind it. It
is the most by which the symbols that raise it outnumber those that lower it on
an ending of the word (`Excess`): `raise`, `lower` and `skip` follow the counter
along the word, and `unique` reads it off.
-/
import Mathlib.Tactic.Common

namespace DbusRouter.Lib

variable {α : Type} {up down : α → Bool}

/-- The most by which the symbols that are `up` outnumber those that are `down`
on an ending of the word. -/
structure Excess (up down : α → Bool) (w : List α) (n : Nat) : Prop where
  most : ∀ q, q <:+ w → q.countP up ≤ q.countP down + n
  reached : ∃ q, q <:+ w ∧ q.countP up = q.countP down + n

namespace Excess

variable {w : List α} {x : α} {n m : Nat}

theorem nil : Excess up down [] 0 := by
  refine ⟨?_, [], List.suffix_refl _, rfl⟩
  intro q hq
  rw [List.suffix_nil.mp hq]
  exact Nat.le_refl 0

/-- What holds of the endings of a word in front of its last symbol is all
there is to say of the endings of the word. -/
theorem of_snoc (hmost : ∀ q, q <:+ w →
      (q ++ [x]).countP up ≤ (q ++ [x]).countP down + m)
    (hreached : m = 0 ∨ ∃ q, q <:+ w
      ∧ (q ++ [x]).countP up = (q ++ [x]).countP down + m) :
    Excess up down (w ++ [x]) m := by
  constructor
  · intro q hq
    rcases List.suffix_concat_iff.mp hq with rfl | ⟨p, rfl, hp⟩
    · exact Nat.zero_le _
    · exact hmost p hp
  · rcases hreached with rfl | ⟨q, hq, heq⟩
    · exact ⟨[], List.nil_suffix, rfl⟩
    · exact ⟨q ++ [x], List.suffix_concat_iff.mpr (Or.inr ⟨q, rfl, hq⟩), heq⟩

/-- A symbol that counts up raises the excess by one. -/
theorem raise (h : Excess up down w n) (hup : up x = true)
    (hdown : down x = false) : Excess up down (w ++ [x]) (n + 1) := by
  apply of_snoc
  · intro q hq
    have hmost := h.most q hq
    simp only [List.countP_append, List.countP_singleton, hup, hdown, if_true,
      Bool.false_eq_true, if_false]
    omega
  · obtain ⟨q, hq, heq⟩ := h.reached
    refine Or.inr ⟨q, hq, ?_⟩
    simp only [List.countP_append, List.countP_singleton, hup, hdown, if_true,
      Bool.false_eq_true, if_false]
    omega

/-- One that counts down lowers it, or leaves it at zero. -/
theorem lower (h : Excess up down w n) (hup : up x = false)
    (hdown : down x = true) : Excess up down (w ++ [x]) (n - 1) := by
  apply of_snoc
  · intro q hq
    have hmost := h.most q hq
    simp only [List.countP_append, List.countP_singleton, hup, hdown, if_true,
      Bool.false_eq_true, if_false]
    omega
  · by_cases hn : n = 0
    · left
      omega
    · obtain ⟨q, hq, heq⟩ := h.reached
      refine Or.inr ⟨q, hq, ?_⟩
      simp only [List.countP_append, List.countP_singleton, hup, hdown, if_true,
        Bool.false_eq_true, if_false]
      omega

/-- One that does neither leaves it alone. -/
theorem skip (h : Excess up down w n) (hup : up x = false)
    (hdown : down x = false) : Excess up down (w ++ [x]) n := by
  have hsame : ∀ q : List α, (q ++ [x]).countP up = q.countP up
      ∧ (q ++ [x]).countP down = q.countP down := by
    intro q
    simp [hup, hdown]
  apply of_snoc
  · intro q hq
    rw [(hsame q).1, (hsame q).2]
    exact h.most q hq
  · obtain ⟨q, hq, heq⟩ := h.reached
    refine Or.inr ⟨q, hq, ?_⟩
    rw [(hsame q).1, (hsame q).2]
    exact heq

/-- A word has one excess. -/
theorem unique (h : Excess up down w n) (h' : Excess up down w m) : n = m := by
  have hle : ∀ {n m}, Excess up down w n → Excess up down w m → n ≤ m := by
    intro n m h h'
    obtain ⟨q, hq, heq⟩ := h.reached
    have hmost := h'.most q hq
    omega
  exact Nat.le_antisymm (hle h h') (hle h' h)

end Excess

end DbusRouter.Lib
