/-
Simulation: runs of one system answered by runs of another.

A relation between the states of two systems is kept by answering each step
of the one with a step of the other (`Steps.simulate`). Inputs and outputs may
be of other types on the other side: what has to agree between a step and its
answer is a relation of its own, and the two traces then agree element by
element, so an event of the one run has its answer at the same place of the
other (`answers_at`).
-/
import DbusRouter.Lib.Run
import Mathlib.Data.List.Forall2

namespace DbusRouter.Lib

variable {σ ι ω τ κ ο : Type}

/-- Where a relation is kept by answering each step, each run is
answered. -/
theorem Steps.simulate {step : σ → ι → ω → σ → Prop}
    {answer : τ → κ → ο → τ → Prop} {R : σ → τ → Prop}
    {E : ι × ω → κ × ο → Prop} {s s' : σ} {a : τ} {t : List (ι × ω)}
    (h : Steps step s t s') (h₀ : R s a)
    (hstep : ∀ m b i o m', R m b → step m i o m' →
      ∃ j p b', answer b j p b' ∧ E (i, o) (j, p) ∧ R m' b') :
    ∃ u a', Steps answer a u a' ∧ List.Forall₂ E t u ∧ R s' a' := by
  induction h with
  | nil => exact ⟨[], a, .nil, .nil, h₀⟩
  | snoc _ hs ih =>
      obtain ⟨u, b, hu, htu, hb⟩ := ih
      obtain ⟨j, p, b', hj, hE, hb'⟩ := hstep _ _ _ _ _ hb hs
      exact ⟨u ++ [(j, p)], b', .snoc hu hj,
        List.rel_append htu (.cons hE .nil), hb'⟩

/-- An event of one trace has its answer at the same place of the other. -/
theorem answers_at {α β : Type} {E : α → β → Prop} {u v : List α} {x : α}
    {w : List β} (h : List.Forall₂ E (u ++ x :: v) w) :
    ∃ u' y v', w = u' ++ y :: v' ∧ List.Forall₂ E u u' ∧ E x y
      ∧ List.Forall₂ E v v' := by
  induction u generalizing w with
  | nil =>
      obtain ⟨y, v', hy, hv, rfl⟩ := List.forall₂_cons_left_iff.mp h
      exact ⟨[], y, v', rfl, .nil, hy, hv⟩
  | cons z u ih =>
      obtain ⟨z', w', hz, hw, rfl⟩ := List.forall₂_cons_left_iff.mp h
      obtain ⟨u', y, v', rfl, hu, hy, hv⟩ := ih hw
      exact ⟨z' :: u', y, v', rfl, .cons hz hu, hy, hv⟩

/-- Each answer is one to some event. -/
theorem answered_mem {α β : Type} {E : α → β → Prop} {v : List α}
    {w : List β} (h : List.Forall₂ E v w) {y : β} (hy : y ∈ w) :
    ∃ x ∈ v, E x y := by
  obtain ⟨w₁, w₂, rfl⟩ := List.append_of_mem hy
  obtain ⟨v₁, x, v₂, rfl, -, hx, -⟩ := answers_at h.flip
  exact ⟨x, List.mem_append_right _ (List.mem_cons_self ..), hx⟩

end DbusRouter.Lib
