/-
A level that some events of a run fill and others draw on.

Under a `Countdown`, an event either fills the level to `k` or draws at
most one from it: one where `sure` passes, and none where `may` does not.
So the level is empty at the end when each filling is drawn on `k` times
behind it (`Countdown.empty`), and a filling that leaves it empty has been
(`Countdown.drawn`).
-/
import DbusRouter.Lib.Run

namespace DbusRouter.Lib

variable {σ ι ω : Type}

/-- How often a test on inputs passes in a trace. -/
def uses (p : ι → Bool) (t : List (ι × ω)) : Nat :=
  t.countP fun x => p x.1

@[simp] theorem uses_nil (p : ι → Bool) :
    uses p ([] : List (ι × ω)) = 0 := rfl

@[simp] theorem uses_snoc (p : ι → Bool) (t : List (ι × ω)) (i : ι)
    (o : ω) : uses p (t ++ [(i, o)]) = uses p t + if p i then 1 else 0 := by
  unfold uses
  rw [List.countP_append, List.countP_singleton]

/-- An input that uses something up is counted. -/
theorem uses_pos {p : ι → Bool} {t : List (ι × ω)} {x : ι × ω}
    (hx : x ∈ t) (hp : p x.1 = true) : 0 < uses p t :=
  List.countP_pos_iff.mpr ⟨x, hx, hp⟩

/-- Two tests that never pass together use up what they use up one by
one. -/
theorem uses_add_le {p q r : ι → Bool} (t : List (ι × ω))
    (hp : ∀ i, p i = true → r i = true) (hq : ∀ i, q i = true → r i = true)
    (hpq : ∀ i, p i = true → q i = false) :
    uses p t + uses q t ≤ uses r t := by
  induction t using List.reverseRecOn with
  | nil => exact Nat.le_refl 0
  | append_singleton t x ih =>
      obtain ⟨i, o⟩ := x
      simp only [uses_snoc]
      have hi := hpq i
      cases hpi : p i with
      | true =>
          rw [hi hpi, hp i hpi]
          simp only [if_true, Bool.false_eq_true, if_false]
          omega
      | false =>
          cases hqi : q i with
          | true =>
              rw [hq i hqi]
              simp only [if_true, Bool.false_eq_true, if_false]
              omega
          | false =>
              simp only [Bool.false_eq_true, if_false]
              omega

/-- An event fills the level to `k`, or draws at most one from it. -/
structure Countdown (step : σ → ι → ω → σ → Prop) (level : σ → Nat)
    (fills : σ → ι → Prop) (sure may : ι → Bool) (k : Nat) : Prop where
  fill : ∀ {m i o m'}, step m i o m' → fills m i → level m' = k
  draw : ∀ {m i o m'}, step m i o m' → ¬fills m i →
    level m' ≤ level m - if sure i then 1 else 0
  keep : ∀ {m i o m'}, step m i o m' → ¬fills m i →
    level m ≤ level m' + if may i then 1 else 0

namespace Countdown

variable {step : σ → ι → ω → σ → Prop} {level : σ → Nat}
  {fills : σ → ι → Prop} {sure may : ι → Bool} {k : Nat} {s s' : σ}
  {t : List (ι × ω)}

/-- It is one on the steps that meet a condition, too. -/
theorem meeting (h : Countdown step level fills sure may k)
    (C : σ → ι → Prop) :
    Countdown (Meeting step C) level fills sure may k where
  fill hs hf := h.fill hs.2 hf
  draw hs hf := h.draw hs.2 hf
  keep hs hf := h.keep hs.2 hf

/-- What is left was put there by some event, and has been drawn on
since. -/
theorem last (h : Countdown step level fills sure may k)
    (hrun : Steps step s t s') (h₀ : level s = 0) :
    level s' = 0 ∨ ∃ u i o v m m', t = u ++ (i, o) :: v ∧ Steps step s u m
      ∧ step m i o m' ∧ fills m i ∧ level s' + uses sure v ≤ k := by
  induction hrun with
  | nil => exact Or.inl h₀
  | @snoc t m i o s' hr hs ih =>
      by_cases hf : fills m i
      · refine Or.inr ⟨t, i, o, [], m, s', rfl, hr, hs, hf, ?_⟩
        rw [h.fill hs hf]
        exact Nat.le_refl k
      · have hdraw := h.draw hs hf
        rcases ih with hzero | ⟨u, j, p, v, m₀, m₁, rfl, hu, hj, hfill, hle⟩
        · left
          omega
        · by_cases hzero : level s' = 0
          · exact Or.inl hzero
          · refine Or.inr ⟨u, j, p, v ++ [(i, o)], m₀, m₁, ?_, hu, hj, hfill,
              ?_⟩
            · rw [List.append_assoc, List.cons_append]
            · rw [uses_snoc]
              omega

/-- The level is empty when each filling is drawn on `k` times. -/
theorem empty (h : Countdown step level fills sure may k)
    (hrun : Steps step s t s') (h₀ : level s = 0)
    (hdrawn : ∀ u i o v m m', t = u ++ (i, o) :: v → Steps step s u m →
      step m i o m' → fills m i → k ≤ uses sure v) : level s' = 0 := by
  rcases h.last hrun h₀ with hzero | ⟨u, i, o, v, m, m', ht, hu, hs, hf, hle⟩
  · exact hzero
  · have hk := hdrawn u i o v m m' ht hu hs hf
    omega

/-- From a level of `k` on, what is not left has been drawn. -/
theorem kept (h : Countdown step level fills sure may k)
    (hrun : Steps step s t s') (h₀ : k ≤ level s) :
    k ≤ level s' + uses may t := by
  induction hrun with
  | nil => exact h₀
  | @snoc t m i o s' _ hs ih =>
      rw [uses_snoc]
      by_cases hf : fills m i
      · have hfill := h.fill hs hf
        omega
      · have hkeep := h.keep hs hf
        omega

/-- A filling that has left nothing was drawn on `k` times. -/
theorem drawn (h : Countdown step level fills sure may k) {m m' : σ} {i : ι}
    {o : ω} {v : List (ι × ω)} (hs : step m i o m') (hf : fills m i)
    (hrun : Steps step m' v s') (hempty : level s' = 0) :
    k ≤ uses may v := by
  have hkept := h.kept hrun (Nat.le_of_eq (h.fill hs hf).symm)
  omega

end Countdown

end DbusRouter.Lib
