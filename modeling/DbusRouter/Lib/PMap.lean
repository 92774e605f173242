/-
Finite maps as partial functions: what a `HashMap` is when only lookups,
insertions and removals are observed.
-/
import Mathlib.Logic.Function.Basic

namespace DbusRouter.Lib

variable {κ α : Type} [DecidableEq κ]

/-- A map from keys to values. -/
abbrev PMap (κ α : Type) := κ → Option α

namespace PMap

/-- The empty map. -/
def empty : PMap κ α := fun _ => none

/-- The map with `k` bound to `v`. -/
def insert (m : PMap κ α) (k : κ) (v : α) : PMap κ α :=
  Function.update m k (some v)

/-- The map without a binding of `k`. -/
def remove (m : PMap κ α) (k : κ) : PMap κ α :=
  Function.update m k none

omit [DecidableEq κ] in
@[simp] theorem empty_apply (k : κ) : (empty : PMap κ α) k = none := rfl

/-- The key that is inserted has the value. -/
@[simp] theorem insert_self (m : PMap κ α) (k : κ) (v : α) :
    m.insert k v k = some v :=
  Function.update_self ..

/-- An insertion leaves the other keys theirs. -/
theorem insert_of_ne (m : PMap κ α) {k l : κ} (v : α) (h : l ≠ k) :
    m.insert k v l = m l :=
  Function.update_of_ne h ..

/-- The key that is removed has no value. -/
@[simp] theorem remove_self (m : PMap κ α) (k : κ) : m.remove k k = none :=
  Function.update_self ..

/-- A removal leaves the other keys theirs. -/
theorem remove_of_ne (m : PMap κ α) {k l : κ} (h : l ≠ k) :
    m.remove k l = m l :=
  Function.update_of_ne h ..

/-- Removing what is not bound changes nothing. -/
theorem remove_of_none {m : PMap κ α} {k : κ} (h : m k = none) :
    m.remove k = m := by
  unfold remove
  rw [← h, Function.update_eq_self]

/-- What an insertion leaves under any key. -/
theorem insert_apply (m : PMap κ α) (k l : κ) (v : α) :
    m.insert k v l = if l = k then some v else m l :=
  Function.update_apply ..

/-- What a removal leaves under any key. -/
theorem remove_apply (m : PMap κ α) (k l : κ) :
    m.remove k l = if l = k then none else m l :=
  Function.update_apply ..

end PMap

end DbusRouter.Lib
