/-
What an address is read as.

Reading is the inverse of writing an address down: `parseUnixAddress` gives a
socket exactly for the addresses that are a list of parts of which the first
to name a socket names this one, and an error with the address in it for all
others (`parseUnixAddress_iff`).
-/
import DbusRouter.Model.Address
import DbusRouter.Wire.Split

namespace DbusRouter.Model

open Wire

/-- The part of an address that names a socket. -/
def UnixAddress.text : UnixAddress → Text
  | .path p => utf8 "path=" ++ p
  | .abstract n => utf8 "abstract=" ++ n

/-- The address with the given parts. -/
def addressText (parts : List Text) : Text :=
  utf8 "unix:" ++ [','.toUInt8].intercalate parts

/-- Parts that an address can have: one at least, and no comma in any. -/
def AddressParts (parts : List Text) : Prop :=
  parts ≠ [] ∧ ∀ part ∈ parts, ','.toUInt8 ∉ part

/-- The part names no socket. -/
def NamesNoSocket (part : Text) : Prop :=
  ∀ socket : UnixAddress, part ≠ socket.text

theorem socketOfPart_eq_some_iff {part : Text} {socket : UnixAddress} :
    socketOfPart part = some socket ↔ part = socket.text := by
  unfold socketOfPart
  cases hp : stripPrefix (utf8 "path=") part with
  | some p =>
      have hpart := stripPrefix_eq_some_iff.mp hp
      cases socket with
      | path p' =>
          rw [hpart]
          simp [UnixAddress.text]
      | abstract n =>
          refine iff_of_false (by simp) ?_
          intro h
          rw [hpart] at h
          cases h
  | none =>
      cases hn : stripPrefix (utf8 "abstract=") part with
      | some n =>
          have hpart := stripPrefix_eq_some_iff.mp hn
          cases socket with
          | path p =>
              refine iff_of_false (by simp) ?_
              intro h
              rw [hpart] at h
              cases h
          | abstract n' =>
              rw [hpart]
              simp [UnixAddress.text]
      | none =>
          refine iff_of_false (by simp) ?_
          intro h
          cases socket with
          | path p =>
              rw [stripPrefix_eq_some_iff.mpr h] at hp
              cases hp
          | abstract n =>
              rw [stripPrefix_eq_some_iff.mpr h] at hn
              cases hn

theorem socketOfPart_eq_none_iff {part : Text} :
    socketOfPart part = none ↔ NamesNoSocket part := by
  unfold NamesNoSocket
  rw [Option.eq_none_iff_forall_ne_some]
  exact forall_congr' fun socket => not_congr socketOfPart_eq_some_iff

/-- An address with the `unix:` in front is the address of its parts. -/
theorem addressText_iff {addr : Text} {parts : List Text} :
    AddressParts parts ∧ addr = addressText parts
      ↔ startsWith (utf8 "unix:") addr = true
        ∧ splitOn ','.toUInt8 (addr.drop 5) = parts := by
  unfold AddressParts addressText
  constructor
  · intro h
    obtain ⟨⟨hne, hparts⟩, rfl⟩ := h
    refine ⟨startsWith_iff.mpr (List.prefix_append ..), ?_⟩
    exact splitOn_eq_iff.mpr ⟨hne, hparts, rfl⟩
  · intro h
    obtain ⟨hstart, hsplit⟩ := h
    obtain ⟨rest, rfl⟩ := startsWith_iff.mp hstart
    obtain ⟨hne, hparts, hrest⟩ := splitOn_eq_iff.mp hsplit
    exact ⟨⟨hne, hparts⟩, congrArg (utf8 "unix:" ++ ·) hrest⟩

section read

variable {addr : Text} {socket : UnixAddress} {e : Error}

/-- The parts decide, behind the `unix:`. -/
theorem parseUnixAddress_eq_ok : parseUnixAddress addr = .ok socket
    ↔ startsWith (utf8 "unix:") addr = true
      ∧ (splitOn ','.toUInt8 (addr.drop 5)).findSome? socketOfPart
        = some socket := by
  unfold parseUnixAddress
  by_cases hstart : startsWith (utf8 "unix:") addr = true
  · rw [hstart]
    cases (splitOn ','.toUInt8 (addr.drop 5)).findSome? socketOfPart with
    | some found => simp
    | none => simp
  · rw [Bool.not_eq_true] at hstart
    rw [hstart]
    simp

theorem parseUnixAddress_eq_err : parseUnixAddress addr = .err e
    ↔ (startsWith (utf8 "unix:") addr = false ∧ e = .protocol
        (utf8 "Only unix: addresses are supported, got: " ++ addr))
      ∨ startsWith (utf8 "unix:") addr = true
        ∧ (splitOn ','.toUInt8 (addr.drop 5)).findSome? socketOfPart = none
        ∧ e = .protocol
          (utf8 "No path= or abstract= found in address: " ++ addr) := by
  unfold parseUnixAddress
  by_cases hstart : startsWith (utf8 "unix:") addr = true
  · rw [hstart]
    cases (splitOn ','.toUInt8 (addr.drop 5)).findSome? socketOfPart with
    | some found => simp
    | none => simp [eq_comm]
  · rw [Bool.not_eq_true] at hstart
    rw [hstart]
    simp [eq_comm]

/-- What is read is what the first part to name a socket names. -/
theorem parseUnixAddress_ok_iff : parseUnixAddress addr = .ok socket
    ↔ ∃ before behind, AddressParts (before ++ socket.text :: behind)
      ∧ (∀ part ∈ before, NamesNoSocket part)
      ∧ addr = addressText (before ++ socket.text :: behind) := by
  rw [parseUnixAddress_eq_ok]
  constructor
  · intro h
    obtain ⟨hstart, hfind⟩ := h
    obtain ⟨before, part, behind, hsplit, hpart, hbefore⟩ :=
      List.findSome?_eq_some_iff.mp hfind
    obtain rfl := socketOfPart_eq_some_iff.mp hpart
    obtain ⟨hparts, haddr⟩ := addressText_iff.mpr ⟨hstart, hsplit⟩
    exact ⟨before, behind, hparts,
      fun p hp => socketOfPart_eq_none_iff.mp (hbefore p hp), haddr⟩
  · intro h
    obtain ⟨before, behind, hparts, hbefore, haddr⟩ := h
    obtain ⟨hstart, hsplit⟩ := addressText_iff.mp ⟨hparts, haddr⟩
    refine ⟨hstart, ?_⟩
    rw [hsplit]
    exact List.findSome?_eq_some_iff.mpr ⟨before, socket.text, behind, rfl,
      socketOfPart_eq_some_iff.mpr rfl,
      fun p hp => socketOfPart_eq_none_iff.mpr (hbefore p hp)⟩

/-- What is refused is no address, or names no socket. -/
theorem parseUnixAddress_err_iff : parseUnixAddress addr = .err e
    ↔ (¬utf8 "unix:" <+: addr ∧ e = .protocol
        (utf8 "Only unix: addresses are supported, got: " ++ addr))
      ∨ ∃ parts, AddressParts parts ∧ (∀ part ∈ parts, NamesNoSocket part)
        ∧ addr = addressText parts ∧ e = .protocol
          (utf8 "No path= or abstract= found in address: " ++ addr) := by
  rw [parseUnixAddress_eq_err, ← startsWith_iff, Bool.not_eq_true]
  refine or_congr_right ?_
  constructor
  · intro h
    obtain ⟨hstart, hfind, he⟩ := h
    obtain ⟨hparts, haddr⟩ := addressText_iff.mpr ⟨hstart, rfl⟩
    rw [List.findSome?_eq_none_iff] at hfind
    exact ⟨_, hparts, fun p hp => socketOfPart_eq_none_iff.mp (hfind p hp),
      haddr, he⟩
  · intro h
    obtain ⟨parts, hparts, hnone, haddr, he⟩ := h
    obtain ⟨hstart, hsplit⟩ := addressText_iff.mp ⟨hparts, haddr⟩
    refine ⟨hstart, ?_, he⟩
    rw [hsplit, List.findSome?_eq_none_iff]
    exact fun p hp => socketOfPart_eq_none_iff.mpr (hnone p hp)

end read

/-- An address is read as the socket that the first of its parts to name one
names. One without such a part, or without the `unix:` in front, is refused
with an error that gives the address. -/
theorem parseUnixAddress_iff (addr : Text) :
    (∀ socket, parseUnixAddress addr = .ok socket ↔ ∃ before behind,
      AddressParts (before ++ socket.text :: behind)
        ∧ (∀ part ∈ before, NamesNoSocket part)
        ∧ addr = addressText (before ++ socket.text :: behind))
    ∧ ∀ e, parseUnixAddress addr = .err e ↔
      (¬utf8 "unix:" <+: addr ∧ e = .protocol
          (utf8 "Only unix: addresses are supported, got: " ++ addr))
        ∨ ∃ parts, AddressParts parts ∧ (∀ part ∈ parts, NamesNoSocket part)
          ∧ addr = addressText parts ∧ e = .protocol
            (utf8 "No path= or abstract= found in address: " ++ addr) :=
  ⟨fun _ => parseUnixAddress_ok_iff, fun _ => parseUnixAddress_err_iff⟩

/-- The guid of a bus is skipped. -/
example : parseUnixAddress (utf8 "unix:guid=abc,path=/run/bus,path=/b")
    = .ok (.path (utf8 "/run/bus")) := by
  decide +kernel

end DbusRouter.Model
