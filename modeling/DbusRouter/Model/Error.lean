/-
Error values of the router (`error.rs`), with the texts the code gives
them.
-/
import DbusRouter.Wire.Text
import DbusRouter.Lib.Outcome

namespace DbusRouter.Model

open Wire

/-- Error type for the router's operations. -/
inductive Error where
  /-- I/O error -/
  | io (text : Text)
  /-- zvariant error -/
  | zvariant
  /-- D-Bus protocol error -/
  | protocol (text : Text)
  /-- authentication error -/
  | auth (text : Text)
  deriving DecidableEq, Repr

/-- The result of a fallible operation. -/
abbrev Result := Lib.Outcome Error

/-- `{}` of a number. -/
def decimal (n : Nat) : Text := utf8 (toString n)

/-- `?` on a zvariant call. -/
def orZvariant {α : Type} : Option α → Result α
  | some a => .ok a
  | none => .err .zvariant

end DbusRouter.Model
