/-
Buses and fake unique names (`bus.rs`, `fake_name.rs`).

A unique name `:x` of a bus is shown to the client as `:h.x` or `:s.x`,
so that the name says which bus it lives on. `fromFakeName_toFakeName` is
the round trip everything else relies on.
-/
import DbusRouter.Wire.Text

namespace DbusRouter.Model

open Wire

/-- Target bus for routing. -/
inductive Bus where
  | host
  | sandbox
  deriving DecidableEq, Repr

/-- `HOST_PREFIX`. -/
def hostPrefix : Text := utf8 ":h."

/-- `SANDBOX_PREFIX`. -/
def sandboxPrefix : Text := utf8 ":s."

/-- The prefix a bus's unique names carry once rewritten for the client. -/
def fakePrefix : Bus → Text
  | .host => hostPrefix
  | .sandbox => sandboxPrefix

/-- A unique name starts with a colon. -/
def isUniqueName (name : Text) : Bool := startsWith (utf8 ":") name

/-- The bus of a fake unique name. -/
def getBusFromFakeName (name : Text) : Option Bus :=
  if startsWith hostPrefix name then some .host
  else if startsWith sandboxPrefix name then some .sandbox
  else none

/-- A real unique name with the bus prefix; other names unchanged. -/
def toFakeName (real : Text) (source : Bus) : Text :=
  if !isUniqueName real then real
  else fakePrefix source ++ real.drop 1

/-- The real name and the bus of a fake unique name. -/
def fromFakeName (fake : Text) : Option (Text × Bus) :=
  (getBusFromFakeName fake).map fun bus =>
    (utf8 ":" ++ fake.drop (fakePrefix bus).length, bus)

/-- Either prefix has three bytes. -/
@[simp] theorem fakePrefix_length (b : Bus) : (fakePrefix b).length = 3 := by
  cases b <;> rfl

theorem colon_length : (utf8 ":").length = 1 := rfl

/-- A unique name begins with a colon. -/
theorem isUniqueName_iff {name : Text} :
    isUniqueName name = true ↔ ∃ x, name = utf8 ":" ++ x := by
  rw [isUniqueName, startsWith_iff]
  constructor
  · rintro ⟨x, hx⟩
    exact ⟨x, hx.symm⟩
  · rintro ⟨x, hx⟩
    exact ⟨x, hx.symm⟩

/-- A unique name is shown with its colon replaced by the prefix of its bus. -/
theorem toFakeName_of_unique {u : Text} (h : isUniqueName u = true)
    (b : Bus) : toFakeName u b = fakePrefix b ++ u.drop 1 := by
  rw [toFakeName, h]
  rfl

/-- A name that is not unique is shown as it is. -/
theorem toFakeName_of_not_unique {u : Text} (h : isUniqueName u = false)
    (b : Bus) : toFakeName u b = u := by
  rw [toFakeName, h]
  rfl

/-- A name behind a bus's prefix is a fake name of that bus. -/
theorem getBusFromFakeName_prefix (b : Bus) (x : Text) :
    getBusFromFakeName (fakePrefix b ++ x) = some b := by
  cases b <;> rfl

/-- A unique name shown as bus `b`'s is a fake name of bus `b`. -/
theorem getBusFromFakeName_toFakeName {u : Text}
    (h : isUniqueName u = true) (b : Bus) :
    getBusFromFakeName (toFakeName u b) = some b := by
  rw [toFakeName_of_unique h]
  exact getBusFromFakeName_prefix b _

/-- Undoing the prefix gives back the real name and its bus. -/
theorem fromFakeName_toFakeName {u : Text} (h : isUniqueName u = true)
    (b : Bus) : fromFakeName (toFakeName u b) = some (u, b) := by
  rw [fromFakeName, getBusFromFakeName_toFakeName h,
    toFakeName_of_unique h, Option.map_some, List.drop_left]
  obtain ⟨x, rfl⟩ := isUniqueName_iff.mp h
  rfl

/-- What a fake name is made of. -/
theorem fromFakeName_eq_some {f real : Text} {b : Bus}
    (h : fromFakeName f = some (real, b)) :
    ∃ x, f = fakePrefix b ++ x ∧ real = utf8 ":" ++ x := by
  unfold fromFakeName at h
  rw [Option.map_eq_some_iff] at h
  obtain ⟨b', hb, heq⟩ := h
  rw [Prod.mk.injEq] at heq
  obtain ⟨hreal, rfl⟩ := heq
  unfold getBusFromFakeName at hb
  split at hb
  next hp =>
    cases hb
    obtain ⟨x, rfl⟩ := startsWith_iff.mp hp
    rw [fakePrefix, List.drop_left] at hreal
    exact ⟨x, rfl, hreal.symm⟩
  next =>
    split at hb
    next hp =>
      cases hb
      obtain ⟨x, rfl⟩ := startsWith_iff.mp hp
      rw [fakePrefix, List.drop_left] at hreal
      exact ⟨x, rfl, hreal.symm⟩
    next => cases hb

/-- A name that is read as shown has the prefix of the bus it is read as from.
-/
theorem getBusFromFakeName_of_fromFakeName {f real : Text} {b : Bus}
    (h : fromFakeName f = some (real, b)) :
    getBusFromFakeName f = some b := by
  obtain ⟨x, rfl, -⟩ := fromFakeName_eq_some h
  exact getBusFromFakeName_prefix b x

/-- A fake name is a unique name. -/
theorem isUniqueName_of_getBus {f : Text} {b : Bus}
    (h : getBusFromFakeName f = some b) : isUniqueName f = true := by
  unfold getBusFromFakeName at h
  split at h
  next hp =>
    obtain ⟨x, rfl⟩ := startsWith_iff.mp hp
    rfl
  next =>
    split at h
    next hp =>
      obtain ⟨x, rfl⟩ := startsWith_iff.mp hp
      rfl
    next => cases h

/-- Adding the prefix changes a unique name. -/
theorem toFakeName_ne {u : Text} (h : isUniqueName u = true) (b : Bus) :
    toFakeName u b ≠ u := by
  intro heq
  have hlen := congrArg List.length heq
  rw [toFakeName_of_unique h] at hlen
  obtain ⟨x, rfl⟩ := isUniqueName_iff.mp h
  simp only [List.length_append, List.length_drop, fakePrefix_length,
    colon_length] at hlen
  omega

end DbusRouter.Model
