/-
Inputs that a system does not heed.

Some inputs, in the states they come in, may leave no mark but on what the
observer does not look at: states that he cannot tell apart are related. If an
input that is not heeded leads to a related state, and one that is heeded is
answered alike in related states, then the inputs that are heeded are all that
counts (`Unwinding`). They make a run by themselves, with the same outputs
(`Heeds.replay`), and two runs in which the same inputs are heeded, in the same
order, answer them alike, whatever else comes in between (`Heeds.unique`).
-/
import DbusRouter.Lib.Run

namespace DbusRouter.Lib

variable {σ ι ω : Type}

/-- `Heeds step idle s t u s'`: the run with trace `t` leads from `s` to `s'`,
and `u` is what is left of the trace without the inputs that were idle. -/
inductive Heeds (step : σ → ι → ω → σ → Prop) (idle : σ → ι → Prop)
    (s : σ) : List (ι × ω) → List (ι × ω) → σ → Prop
  | nil : Heeds step idle s [] [] s
  | idle {t u : List (ι × ω)} {m s' : σ} {i : ι} {o : ω}
      (h : Heeds step idle s t u m) (hs : step m i o s') (hi : idle m i) :
      Heeds step idle s (t ++ [(i, o)]) u s'
  | heeded {t u : List (ι × ω)} {m s' : σ} {i : ι} {o : ω}
      (h : Heeds step idle s t u m) (hs : step m i o s') (hi : ¬idle m i) :
      Heeds step idle s (t ++ [(i, o)]) (u ++ [(i, o)]) s'

/-- States related by `R` cannot be told apart by what is heeded. -/
structure Unwinding (step : σ → ι → ω → σ → Prop) (idle : σ → ι → Prop)
    (R : σ → σ → Prop) : Prop where
  refl : ∀ m, R m m
  unheeded : ∀ {m k i o m'}, R m k → step m i o m' → idle m i → R m' k
  heeded : ∀ {m k i o m'}, R m k → step m i o m' → ¬idle m i →
    ∃ k', step k i o k' ∧ R m' k'

/-- Where a step has one outcome, the inputs of a run have one answer. -/
theorem Steps.unique_outputs {step : σ → ι → ω → σ → Prop} {s s' s'' : σ}
    {t t' : List (ι × ω)} (h : Steps step s t s') (h' : Steps step s t' s'')
    (hinputs : t.map Prod.fst = t'.map Prod.fst)
    (hstep : ∀ m i o o' k k', step m i o k → step m i o' k' →
      o = o' ∧ k = k') :
    t = t' ∧ s' = s'' := by
  induction h generalizing t' s'' with
  | nil =>
      have hnil : t' = [] := List.map_eq_nil_iff.mp hinputs.symm
      subst hnil
      exact ⟨rfl, h'.of_nil.symm⟩
  | @snoc t m i o s' _ hs ih =>
      cases h' with
      | nil => simp at hinputs
      | @snoc t' m' i' o' s'' hr' hs' =>
          rw [List.map_append, List.map_append] at hinputs
          obtain ⟨hinit, hlast⟩ := List.append_inj' hinputs rfl
          obtain ⟨rfl, rfl⟩ := ih hr' hinit
          cases hlast
          obtain ⟨rfl, rfl⟩ := hstep _ _ _ _ _ _ hs hs'
          exact ⟨rfl, rfl⟩

namespace Heeds

variable {step : σ → ι → ω → σ → Prop} {idle : σ → ι → Prop}
  {s s' : σ} {t u : List (ι × ω)}

/-- Of every run something is heeded. -/
theorem exists_of_run (h : Steps step s t s') :
    ∃ u, Heeds step idle s t u s' := by
  induction h with
  | nil => exact ⟨[], .nil⟩
  | @snoc t m i o s' _ hs ih =>
      obtain ⟨u, hu⟩ := ih
      by_cases hi : idle m i
      · exact ⟨u, .idle hu hs hi⟩
      · exact ⟨_, .heeded hu hs hi⟩

/-- An observer who sees nothing of what is emitted on an idle input sees the
same of the run and of what is heeded of it. -/
theorem outputs {α : Type} {f : ω → List α} (h : Heeds step idle s t u s')
    (hidle : ∀ m i o m', step m i o m' → idle m i → f o = []) :
    t.flatMap (fun x => f x.2) = u.flatMap (fun x => f x.2) := by
  induction h with
  | nil => rfl
  | idle _ hs hi ih =>
      rw [List.flatMap_append, ih, List.flatMap_singleton,
        hidle _ _ _ _ hs hi, List.append_nil]
  | heeded _ _ _ ih => rw [List.flatMap_append, List.flatMap_append, ih]

section unwinding

variable {R : σ → σ → Prop}

/-- What is heeded makes a run by itself, from every related state. -/
theorem replay (h : Heeds step idle s t u s')
    (hR : Unwinding step idle R) {k : σ} (hk : R s k) :
    ∃ k', Steps step k u k' ∧ R s' k' := by
  induction h with
  | nil => exact ⟨k, .nil, hk⟩
  | idle _ hs hi ih =>
      obtain ⟨k', hrun, hk'⟩ := ih
      exact ⟨k', hrun, hR.unheeded hk' hs hi⟩
  | heeded _ hs hi ih =>
      obtain ⟨k', hrun, hk'⟩ := ih
      obtain ⟨k'', hs', hk''⟩ := hR.heeded hk' hs hi
      exact ⟨k'', .snoc hrun hs', hk''⟩

/-- Two runs that heed the same inputs answer them alike. -/
theorem unique {k k' : σ} {v w : List (ι × ω)}
    (h : Heeds step idle s t u s') (h' : Heeds step idle k v w k')
    (hR : Unwinding step idle R) (hk : R s k)
    (hstep : ∀ m i o o' k k', step m i o k → step m i o' k' →
      o = o' ∧ k = k')
    (hinputs : u.map Prod.fst = w.map Prod.fst) : u = w := by
  obtain ⟨_, hu, -⟩ := h.replay hR hk
  obtain ⟨_, hw, -⟩ := h'.replay hR (hR.refl k)
  exact (hu.unique_outputs hw hinputs hstep).1

end unwinding

end Heeds

end DbusRouter.Lib
