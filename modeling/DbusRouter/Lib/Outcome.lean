/-
The three ways a call into Rust code can end: a value, an `Err`, or a
panic. Every modelled function whose source slices, indexes, unwraps or
does unsigned arithmetic returns an `Outcome`, so "this call does not
crash" is a statement about the model's result and not a reading of it.

A panic propagates through everything (`bind`); an `Err` propagates
through `?` (also `bind`) but a caller may catch it (`orElse`), which is
what the source's `if let Err(e) = … { warn!(…) }` and
`Err(_) => msg.raw.clone()` do.
-/
import Mathlib.Tactic.Common

namespace DbusRouter.Lib

/-- Why a call panicked. -/
inductive Panic where
  /-- a range of a slice outside the slice -/
  | slice
  /-- an index outside a slice -/
  | index
  /-- `unwrap` or `expect` on the wrong variant -/
  | unwrap
  /-- unsigned arithmetic that leaves the type's range -/
  | overflow
  deriving DecidableEq, Repr

/-- The result of a call: a value, an error of type `ε`, or a panic. -/
inductive Outcome (ε α : Type) where
  | ok (a : α)
  | err (e : ε)
  | panic (p : Panic)
  deriving DecidableEq, Repr

namespace Outcome

variable {ε α β : Type}

/-- Sequencing: only a value continues. -/
def bind (x : Outcome ε α) (f : α → Outcome ε β) : Outcome ε β :=
  match x with
  | ok a => f a
  | err e => err e
  | panic p => panic p

instance : Monad (Outcome ε) where
  pure := ok
  bind := bind

/-- `pure` is a success. -/
@[simp] theorem pure_eq (a : α) : (pure a : Outcome ε α) = ok a := rfl

/-- A success hands its value on. -/
@[simp] theorem ok_bind (a : α) (f : α → Outcome ε β) :
    (ok a >>= f) = f a := rfl

/-- An error is handed on. -/
@[simp] theorem err_bind (e : ε) (f : α → Outcome ε β) :
    (err e >>= f) = err e := rfl

/-- A panic is handed on. -/
@[simp] theorem panic_bind (p : Panic) (f : α → Outcome ε β) :
    (panic p >>= f) = panic p := rfl

/-- Inversion of a successful sequence: the first call succeeded and the
second succeeded on its value. -/
theorem bind_eq_ok {x : Outcome ε α} {f : α → Outcome ε β} {b : β}
    (h : (x >>= f) = ok b) : ∃ a, x = ok a ∧ f a = ok b := by
  cases x with
  | ok a => exact ⟨a, rfl, h⟩
  | err e => cases h
  | panic p => cases h

/-- Inversion of a failing sequence: one of the two calls failed. -/
theorem bind_eq_err {x : Outcome ε α} {f : α → Outcome ε β} {e : ε}
    (h : (x >>= f) = err e) :
    x = err e ∨ ∃ a, x = ok a ∧ f a = err e := by
  cases x with
  | ok a => exact Or.inr ⟨a, rfl, h⟩
  | err e' =>
      cases h
      exact Or.inl rfl
  | panic p => cases h

/-- An `Err` replaced by a value, a panic let through. -/
def orElse (x : Outcome ε α) (d : α) : Outcome ε α :=
  match x with
  | ok a => ok a
  | err _ => ok d
  | panic p => panic p

/-- A success keeps its value. -/
@[simp] theorem orElse_ok (a d : α) :
    (ok a : Outcome ε α).orElse d = ok a := rfl

/-- An error gives way to the other value. -/
@[simp] theorem orElse_err (e : ε) (d : α) :
    (err e : Outcome ε α).orElse d = ok d := rfl

/-- A panic is not caught. -/
@[simp] theorem orElse_panic (p : Panic) (d : α) :
    (panic p : Outcome ε α).orElse d = panic p := rfl

/-- A caught call never ends in an `Err`. -/
theorem orElse_eq_ok {x : Outcome ε α} {d a : α} (h : x.orElse d = ok a) :
    x = ok a ∨ ((∃ e, x = err e) ∧ a = d) := by
  cases x with
  | ok b =>
      left
      simpa using h
  | err e =>
      right
      simp only [orElse_err, ok.injEq] at h
      exact ⟨⟨e, rfl⟩, h.symm⟩
  | panic p => cases h

/-- The call does not panic. -/
def NoPanic (x : Outcome ε α) : Prop := ∀ p, x ≠ panic p

/-- A success is no panic. -/
@[simp] theorem noPanic_ok (a : α) : (ok a : Outcome ε α).NoPanic := by
  intro p h
  cases h

/-- An error is no panic. -/
@[simp] theorem noPanic_err (e : ε) : (err e : Outcome ε α).NoPanic := by
  intro p h
  cases h

@[simp] theorem not_noPanic_panic (p : Panic) :
    ¬(panic p : Outcome ε α).NoPanic :=
  fun h => h p rfl

instance (x : Outcome ε α) : Decidable x.NoPanic :=
  match x with
  | ok a => .isTrue (noPanic_ok a)
  | err e => .isTrue (noPanic_err e)
  | panic p => .isFalse (not_noPanic_panic p)

/-- A sequence does not panic when its first call does not and the second
does not on any value the first can give. -/
theorem NoPanic.bind {x : Outcome ε α} {f : α → Outcome ε β}
    (hx : x.NoPanic) (hf : ∀ a, x = ok a → (f a).NoPanic) :
    (x >>= f).NoPanic := by
  cases x with
  | ok a => exact hf a rfl
  | err e => exact noPanic_err e
  | panic p => exact absurd rfl (hx p)

/-- Catching an error adds no panic. -/
theorem NoPanic.orElse {x : Outcome ε α} {d : α} (hx : x.NoPanic) :
    (x.orElse d).NoPanic := by
  cases x with
  | ok a => exact noPanic_ok a
  | err e => exact noPanic_ok d
  | panic p => exact absurd rfl (hx p)

/-- The call does not end in an `Err`. -/
def NoErr (x : Outcome ε α) : Prop := ∀ e, x ≠ err e

@[simp] theorem noErr_ok (a : α) : (ok a : Outcome ε α).NoErr := by
  intro e h
  cases h

@[simp] theorem noErr_panic (p : Panic) :
    (panic p : Outcome ε α).NoErr := by
  intro e h
  cases h

/-- Two parts that do not fail do not fail together. -/
theorem NoErr.bind {x : Outcome ε α} {f : α → Outcome ε β}
    (hx : x.NoErr) (hf : ∀ a, x = ok a → (f a).NoErr) :
    (x >>= f).NoErr := by
  cases x with
  | ok a => exact hf a rfl
  | err e => exact absurd rfl (hx e)
  | panic p => exact noErr_panic p

/-- A caught call never ends in one. -/
theorem noErr_orElse (x : Outcome ε α) (d : α) : (x.orElse d).NoErr := by
  cases x with
  | ok a => exact noErr_ok a
  | err e => exact noErr_ok d
  | panic p => exact noErr_panic p

/-- What neither panics nor ends in an `Err` gives a value. -/
theorem NoPanic.exists_ok {x : Outcome ε α} (h : x.NoPanic)
    (herr : x.NoErr) : ∃ a, x = ok a := by
  cases x with
  | ok a => exact ⟨a, rfl⟩
  | err e => exact absurd rfl (herr e)
  | panic p => exact absurd rfl (h p)

end Outcome

end DbusRouter.Lib
