/-
Addresses of the upstream buses (`conn.rs`).

A D-Bus address is `unix:` and a list of `key=value` parts with commas between
them. The first part that names a socket decides; other keys are skipped.
Connecting to the socket is the operating system's business.
-/
import DbusRouter.Model.Error

namespace DbusRouter.Model

open Wire

/-- Parsed Unix socket address. -/
inductive UnixAddress where
  /-- filesystem path socket -/
  | path (path : Text)
  /-- abstract socket -/
  | abstract (name : Text)
  deriving DecidableEq, Repr

/-- The socket that one part of an address names. -/
def socketOfPart (part : Text) : Option UnixAddress :=
  match stripPrefix (utf8 "path=") part with
  | some path => some (.path path)
  | none =>
      match stripPrefix (utf8 "abstract=") part with
      | some name => some (.abstract name)
      | none => none

/-- Parses a D-Bus address string to extract the Unix socket address. -/
def parseUnixAddress (addr : Text) : Result UnixAddress :=
  if !startsWith (utf8 "unix:") addr then
    .err (.protocol (utf8 "Only unix: addresses are supported, got: " ++ addr))
  else
    match (splitOn ','.toUInt8 (addr.drop 5)).findSome? socketOfPart with
    | some socket => .ok socket
    | none =>
        .err (.protocol (utf8 "No path= or abstract= found in address: "
          ++ addr))

end DbusRouter.Model
