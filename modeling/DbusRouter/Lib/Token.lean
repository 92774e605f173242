/-
Streams of words that end themselves.

A predicate `ends` tells from a word alone whether it is complete, as a
line ending does. A token is a word that is complete as a whole and at no
point before, so no token is a proper prefix of another and a stream falls
into tokens in one way only (`flatten_isPrefix`). A reader that adds one
symbol at a time and stops where `ends` holds reads tokens
(`Unfinished.token_of_ends`).
-/
import Mathlib.Tactic.Common

namespace DbusRouter.Lib

variable {α : Type} {ends : List α → Prop}

/-- A word that is complete as a whole and at no point before. -/
def Token (ends : List α → Prop) (w : List α) : Prop :=
  ends w ∧ ∀ p, p <+: w → ends p → p = w

/-- The beginning of a word, complete at no point. -/
def Unfinished (ends : List α → Prop) (w : List α) : Prop :=
  ∀ p, p <+: w → ¬ends p

/-- The symbol behind the beginning of a word is the word's, whatever follows
the word. -/
theorem concat_isPrefix {p w v : List α} {c : α} (hp : p <+: w) (hne : p ≠ w)
    (h : p ++ [c] <+: w ++ v) : p ++ [c] <+: w := by
  have hlt : p.length < w.length := by
    by_contra hge
    exact hne (hp.eq_of_length_le (Nat.not_lt.mp hge))
  apply List.prefix_of_prefix_length_le h (List.prefix_append w v)
  rw [List.length_append, List.length_singleton]
  exact hlt

/-- The beginning of a word is followed by a symbol. -/
theorem exists_next {p w : List α} (hp : p <+: w) (hne : p ≠ w) :
    ∃ c v, w = p ++ c :: v := by
  obtain ⟨v, rfl⟩ := hp
  cases v with
  | nil => exact absurd (List.append_nil p).symm hne
  | cons c v => exact ⟨c, v, rfl⟩

/-- A token is complete as a whole only. -/
theorem Token.ends_iff {p w : List α} (hw : Token ends w) (hp : p <+: w) :
    ends p ↔ p = w := by
  constructor
  · exact hw.2 p hp
  · intro heq
    rw [heq]
    exact hw.1

/-- No token begins another. -/
theorem Token.eq_of_isPrefix {u v : List α} (hu : Token ends u)
    (hv : Token ends v) (h : u <+: v) : u = v :=
  hv.2 u h hu.1

/-- A stream begins with one token at most. -/
theorem Token.append_inj {u v p q : List α} (hu : Token ends u)
    (hv : Token ends v) (h : u ++ p = v ++ q) : u = v ∧ p = q := by
  have heq : u = v := by
    have hpre : u <+: v ++ q := h ▸ List.prefix_append u p
    rcases List.prefix_or_prefix_of_prefix hpre (List.prefix_append v q)
      with huv | hvu
    · exact hu.eq_of_isPrefix hv huv
    · exact (hv.eq_of_isPrefix hu hvu).symm
  subst heq
  exact ⟨rfl, List.append_cancel_left h⟩

theorem unfinished_nil (h : ¬ends []) : Unfinished ends [] := by
  intro p hp
  rw [List.prefix_nil.mp hp]
  exact h

/-- The symbol that completes an unfinished word makes it a token. -/
theorem Unfinished.token_of_ends {w : List α} {c : α}
    (hw : Unfinished ends w) (h : ends (w ++ [c])) :
    Token ends (w ++ [c]) := by
  refine ⟨h, fun p hp hends => ?_⟩
  rcases List.prefix_concat_iff.mp hp with rfl | hp
  · rfl
  · exact absurd hends (hw p hp)

/-- A symbol that does not complete a word leaves it complete at no point. -/
theorem Unfinished.snoc {w : List α} {c : α} (hw : Unfinished ends w)
    (h : ¬ends (w ++ [c])) : Unfinished ends (w ++ [c]) := by
  intro p hp
  rcases List.prefix_concat_iff.mp hp with rfl | hp
  · exact h
  · exact hw p hp

/-- Of two ways to cut one stream into tokens, one continues the other. -/
theorem flatten_isPrefix {us vs : List (List α)} {p q : List α}
    (hu : ∀ u ∈ us, Token ends u) (hv : ∀ v ∈ vs, Token ends v)
    (h : us.flatten ++ p <+: vs.flatten ++ q) : us <+: vs ∨ vs <+: us := by
  induction us generalizing vs with
  | nil => exact Or.inl (List.nil_prefix ..)
  | cons u us ih =>
      cases vs with
      | nil => exact Or.inr (List.nil_prefix ..)
      | cons v vs =>
          simp only [List.flatten_cons, List.append_assoc] at h
          have hu₁ : Token ends u := hu u (List.mem_cons_self ..)
          have hv₁ : Token ends v := hv v (List.mem_cons_self ..)
          have hboth : u <+: v ++ (vs.flatten ++ q) :=
            (List.prefix_append u _).trans h
          have heq : u = v := by
            rcases List.prefix_or_prefix_of_prefix hboth
              (List.prefix_append v _) with huv | hvu
            · exact hu₁.eq_of_isPrefix hv₁ huv
            · exact (hv₁.eq_of_isPrefix hu₁ hvu).symm
          subst heq
          rw [List.prefix_append_right_inj] at h
          rcases ih (fun w hw => hu w (List.mem_cons_of_mem _ hw))
            (fun w hw => hv w (List.mem_cons_of_mem _ hw)) h with hp | hp
          · exact Or.inl (List.prefix_cons_inj u |>.mpr hp)
          · exact Or.inr (List.prefix_cons_inj u |>.mpr hp)

/-- Tokens that are all there begin whatever tokens the stream falls
into. -/
theorem isPrefix_of_flatten {us vs : List (List α)} {p : List α}
    (hnil : ¬ends []) (hu : ∀ u ∈ us, Token ends u)
    (hv : ∀ v ∈ vs, Token ends v) (h : us.flatten ++ p <+: vs.flatten) :
    us <+: vs := by
  have hq : us.flatten ++ p <+: vs.flatten ++ [] := by
    rw [List.append_nil]
    exact h
  rcases flatten_isPrefix hu hv hq with hp | ⟨x, rfl⟩
  · exact hp
  · cases x with
    | nil => simp
    | cons w x =>
        have hw : Token ends w := hu w (by simp)
        have hlen := h.length_le
        simp only [List.flatten_append, List.flatten_cons,
          List.length_append] at hlen
        have hempty : w = [] := List.eq_nil_of_length_eq_zero (by omega)
        rw [hempty] at hw
        exact absurd hw.1 hnil

end DbusRouter.Lib
