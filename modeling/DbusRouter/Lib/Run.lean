/-
Runs of a labelled transition system with outputs, and the two induction
rules every statement about runs goes through.

A system is a relation `step s i o s'`: in state `s` the input `i` leads
to `s'` and emits `o`. A run is the list of its inputs with their
outputs, oldest first, so a statement about "every interleaving" is a
statement about every run, and a prefix of a run is a prefix of the list.
-/
import Mathlib.Data.List.Induction

namespace DbusRouter.Lib

variable {σ ι ω : Type}

/-- `Steps step s t s'`: the run with trace `t` leads from `s` to `s'`. -/
inductive Steps (step : σ → ι → ω → σ → Prop) (s : σ) :
    List (ι × ω) → σ → Prop
  | nil : Steps step s [] s
  | snoc {t : List (ι × ω)} {m : σ} {i : ι} {o : ω} {s' : σ} :
      Steps step s t m → step m i o s' → Steps step s (t ++ [(i, o)]) s'

namespace Steps

variable {step : σ → ι → ω → σ → Prop} {s s' : σ} {t : List (ι × ω)}

/-- One run after another. -/
theorem append {m : σ} {u v : List (ι × ω)} (h₁ : Steps step s u m)
    (h₂ : Steps step m v s') : Steps step s (u ++ v) s' := by
  induction h₂ with
  | nil =>
      rw [List.append_nil]
      exact h₁
  | snoc _ hs ih =>
      rw [← List.append_assoc]
      exact .snoc ih hs

/-- One step is a run. -/
theorem single {i : ι} {o : ω} (h : step s i o s') :
    Steps step s [(i, o)] s' :=
  .snoc .nil h

/-- The empty run stays where it is. -/
theorem of_nil (h : Steps step s [] s') : s' = s := by
  generalize hw : ([] : List (ι × ω)) = w at h
  cases h with
  | nil => rfl
  | snoc => simp at hw

/-- A run of one event is a step. -/
theorem of_single {i : ι} {o : ω} (h : Steps step s [(i, o)] s') :
    step s i o s' := by
  generalize hw : [(i, o)] = w at h
  cases h with
  | nil => cases hw
  | @snoc u m i' o' _ hr hs =>
      have hlen := congrArg List.length hw
      simp only [List.length_append, List.length_singleton] at hlen
      cases u with
      | nil =>
          cases hw
          rw [of_nil hr] at hs
          exact hs
      | cons x u => simp at hlen

/-- A predicate that holds at the start and survives each step holds at
the end. -/
theorem invariant {I : σ → Prop} (h : Steps step s t s') (h₀ : I s)
    (hstep : ∀ m i o m', I m → step m i o m' → I m') : I s' := by
  induction h with
  | nil => exact h₀
  | snoc _ hs ih => exact hstep _ _ _ _ ih hs

/-- A predicate of the trace and the state that holds of the empty run
and survives each step holds of the run. -/
theorem history {P : List (ι × ω) → σ → Prop} (h : Steps step s t s')
    (h₀ : P [] s)
    (hstep : ∀ t m i o m', Steps step s t m → P t m → step m i o m' →
      P (t ++ [(i, o)]) m') : P t s' := by
  induction h with
  | nil => exact h₀
  | snoc hr hs ih => exact hstep _ _ _ _ _ hr ih hs

/-- Every event of a run was a step of it: the run splits there. -/
theorem split {u v : List (ι × ω)} (h : Steps step s (u ++ v) s') :
    ∃ m, Steps step s u m ∧ Steps step m v s' := by
  induction v using List.reverseRecOn generalizing s' with
  | nil =>
      rw [List.append_nil] at h
      exact ⟨s', h, .nil⟩
  | append_singleton v x ih =>
      rw [← List.append_assoc] at h
      generalize hw : u ++ v ++ [x] = w at h
      cases h with
      | nil => simp at hw
      | snoc hr hs =>
          obtain ⟨hw₁, hw₂⟩ := List.append_inj' hw rfl
          subst hw₁
          cases hw₂
          obtain ⟨m, hu, hv⟩ := ih hr
          exact ⟨m, hu, .snoc hv hs⟩

/-- Every event of a run was a step from a state the run has reached. -/
theorem mem {i : ι} {o : ω} (h : Steps step s t s') (hmem : (i, o) ∈ t) :
    ∃ u m m', Steps step s u m ∧ step m i o m' := by
  obtain ⟨u, v, rfl⟩ := List.append_of_mem hmem
  obtain ⟨m, hu, hv⟩ := h.split
  obtain ⟨m', hfirst, -⟩ := Steps.split (u := [(i, o)]) hv
  exact ⟨u, m, m', hu, of_single hfirst⟩

/-- Where a step has one outcome, so has a run. -/
theorem unique {m : σ} (h : Steps step s t s') (h' : Steps step s t m)
    (hstep : ∀ s i o m m', step s i o m → step s i o m' → m = m') :
    m = s' := by
  induction t using List.reverseRecOn generalizing s' m with
  | nil => rw [of_nil h, of_nil h']
  | append_singleton t x ih =>
      obtain ⟨k, hk, hks⟩ := h.split
      obtain ⟨k', hk', hks'⟩ := h'.split
      rw [ih hk hk'] at hks'
      exact hstep _ _ _ _ _ (of_single hks') (of_single hks)

end Steps

-- ============================================================== conditions

/-- The steps whose state and input meet a condition. -/
def Meeting (step : σ → ι → ω → σ → Prop) (C : σ → ι → Prop) :
    σ → ι → ω → σ → Prop :=
  fun s i o s' => C s i ∧ step s i o s'

namespace Steps

variable {step : σ → ι → ω → σ → Prop} {C : σ → ι → Prop} {s s' : σ}
  {t : List (ι × ω)}

/-- A run whose steps meet a condition is a run. -/
theorem of_meeting (h : Steps (Meeting step C) s t s') :
    Steps step s t s' := by
  induction h with
  | nil => exact .nil
  | snoc _ hs ih => exact .snoc ih hs.2

/-- A weaker condition is met too. -/
theorem meeting_mono {D : σ → ι → Prop} (h : Steps (Meeting step C) s t s')
    (hle : ∀ m i, C m i → D m i) : Steps (Meeting step D) s t s' := by
  induction h with
  | nil => exact .nil
  | snoc _ hs ih => exact .snoc ih ⟨hle _ _ hs.1, hs.2⟩

/-- In a run whose steps meet a condition, each input was met in a
reachable state by a step that meets it. -/
theorem meeting_mem {i : ι} {o : ω} (h : Steps (Meeting step C) s t s')
    (hmem : (i, o) ∈ t) :
    ∃ u m m', Steps step s u m ∧ C m i ∧ step m i o m' := by
  obtain ⟨u, m, m', hu, hc, hs⟩ := h.mem hmem
  exact ⟨u, m, m', hu.of_meeting, hc, hs⟩

/-- An invariant of the steps that meet a condition holds in each state they
are made in, and at the end. -/
theorem meeting_invariant {I : σ → Prop} (h : Steps (Meeting step C) s t s')
    (h₀ : I s) (hstep : ∀ m i o m', I m → C m i → step m i o m' → I m') :
    Steps (Meeting step fun m i => I m ∧ C m i) s t s' ∧ I s' := by
  induction h with
  | nil => exact ⟨.nil, h₀⟩
  | snoc _ hs ih =>
      obtain ⟨hrun, hm⟩ := ih
      exact ⟨.snoc hrun ⟨⟨hm, hs.1⟩, hs.2⟩, hstep _ _ _ _ hm hs.1 hs.2⟩

/-- A run is one whose steps meet what each of them meets, with all that is
before and behind it known. -/
theorem meeting (h : Steps step s t s')
    (hc : ∀ u i o v m m', t = u ++ (i, o) :: v → Steps step s u m →
      step m i o m' → Steps step m' v s' → C m i) :
    Steps (Meeting step C) s t s' := by
  induction h with
  | nil => exact .nil
  | @snoc t m i o s' hr hs ih =>
      refine .snoc (ih ?_) ⟨hc t i o [] m s' rfl hr hs .nil, hs⟩
      intro u j p v k k' ht hu hj hv
      refine hc u j p (v ++ [(i, o)]) k k' ?_ hu hj (.snoc hv hs)
      rw [ht, List.append_assoc, List.cons_append]

end Steps

-- ============================================================ what is behind

/-- Each input of a trace has the property `P` of it and of all that comes
behind it. -/
def Behind (P : ι → List (ι × ω) → Prop) : List (ι × ω) → Prop
  | [] => True
  | x :: v => P x.1 v ∧ Behind P v

instance Behind.decidable (P : ι → List (ι × ω) → Prop)
    [∀ i v, Decidable (P i v)] : ∀ t, Decidable (Behind P t)
  | [] => isTrue trivial
  | _ :: v =>
      have := Behind.decidable P v
      inferInstanceAs (Decidable (_ ∧ _))

/-- What holds of each input and the run behind it, at any split of the run. -/
theorem behind_iff {P : ι → List (ι × ω) → Prop} {t : List (ι × ω)} :
    Behind P t ↔ ∀ u i o v, t = u ++ (i, o) :: v → P i v := by
  induction t with
  | nil =>
      refine ⟨fun _ u i o v h => ?_, fun _ => trivial⟩
      cases u <;> cases h
  | cons x t ih =>
      unfold Behind
      rw [ih]
      constructor
      · rintro ⟨hx, hrest⟩ u i o v h
        cases u with
        | nil =>
            cases h
            exact hx
        | cons y u =>
            cases h
            exact hrest u i o v rfl
      · intro h
        refine ⟨h [] x.1 x.2 t rfl, ?_⟩
        intro u i o v ht
        refine h (x :: u) i o v ?_
        rw [ht]
        rfl

-- =============================================================== execution

/-- Runs a step function on a list of inputs, up to the first one it has
no step for. -/
def follow (f : σ → ι → Option (ω × σ)) : σ → List ι → List (ι × ω) × σ
  | s, [] => ([], s)
  | s, i :: is =>
      match f s i with
      | none => ([], s)
      | some (o, m) => ((i, o) :: (follow f m is).1, (follow f m is).2)

/-- Following a function that takes steps is a run. -/
theorem steps_follow {step : σ → ι → ω → σ → Prop}
    {f : σ → ι → Option (ω × σ)}
    (hf : ∀ s i o s', f s i = some (o, s') → step s i o s') (s : σ)
    (is : List ι) : Steps step s (follow f s is).1 (follow f s is).2 := by
  induction is generalizing s with
  | nil => exact .nil
  | cons i is ih =>
      unfold follow
      split
      next => exact .nil
      next o m h => exact (Steps.single (hf s i o m h)).append (ih m)

-- ================================================================ counting

/-- What the inputs of a trace add up to. -/
def total (f : ι → Nat) (t : List (ι × ω)) : Nat :=
  t.foldl (fun n x => n + f x.1) 0

@[simp] theorem total_nil (f : ι → Nat) :
    total f ([] : List (ι × ω)) = 0 := rfl

@[simp] theorem total_snoc (f : ι → Nat) (t : List (ι × ω)) (i : ι)
    (o : ω) : total f (t ++ [(i, o)]) = total f t + f i := by
  simp [total]

/-- A run of inputs that count for nothing has a total of zero. -/
theorem total_eq_zero {f : ι → Nat} {t : List (ι × ω)}
    (h : ∀ x ∈ t, f x.1 = 0) : total f t = 0 := by
  induction t using List.reverseRecOn with
  | nil => rfl
  | append_singleton t x ih =>
      obtain ⟨i, o⟩ := x
      have hlast : f i = 0 := h (i, o) (by simp)
      have hrest := ih fun y hy => h y (List.mem_append_left _ hy)
      rw [total_snoc, hrest, hlast]

/-- What the outputs of a trace add up to, counted anew from each input
that resets the count. -/
def countSince (reset : ι → Bool) (f : ω → Nat) (t : List (ι × ω)) : Nat :=
  t.foldl (fun n x => (if reset x.1 then 0 else n) + f x.2) 0

@[simp] theorem countSince_nil (reset : ι → Bool) (f : ω → Nat) :
    countSince reset f ([] : List (ι × ω)) = 0 := rfl

@[simp] theorem countSince_snoc (reset : ι → Bool) (f : ω → Nat)
    (t : List (ι × ω)) (i : ι) (o : ω) :
    countSince reset f (t ++ [(i, o)])
      = (if reset i then 0 else countSince reset f t) + f o := by
  simp [countSince]

end DbusRouter.Lib
