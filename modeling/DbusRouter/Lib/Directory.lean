/-
Directories of names, and several of them seen as one.

A directory says which connection owns a name; a connection is itself a name,
and owns it. Where the names of several sites are told apart in front of one
observer, each name has a home, and stands for a name there (`Showing`). The
observer then sees one directory (`Showing.directory`), and it is a directory
again: what he is told to be an owner is shown to him as a connection of its
own.

An observer who is told of each change of a fact knows the fact from the first
time he is told (`Steps.informed`). Of a name this is what changes at its home
alone (`owner_of_home`).
-/
import DbusRouter.Lib.Run

namespace DbusRouter.Lib

variable {Name Site : Type} {conn : Name → Prop}

/-- Who owns which name. -/
structure Directory (conn : Name → Prop) where
  owner : Name → Option Name
  /-- owners are connections -/
  conn_owner : ∀ {x u}, owner x = some u → conn u
  /-- that own their own names -/
  owner_self : ∀ {x u}, owner x = some u → owner u = some u

/-- How the names of several sites are shown. -/
structure Showing (conn : Name → Prop) (Site : Type) where
  /-- where a name is looked up -/
  home : Name → Site
  /-- the name that is looked up there -/
  real : Name → Name
  /-- the name a site's connection is shown under -/
  shown : Site → Name → Name
  conn_shown : ∀ b {u}, conn u → conn (shown b u)
  home_shown : ∀ b {u}, conn u → home (shown b u) = b
  real_shown : ∀ b {u}, conn u → real (shown b u) = u

namespace Showing

variable (S : Showing conn Site) (D : Site → Directory conn)

/-- Who owns which name, as it is shown. -/
def owner (x : Name) : Option Name :=
  ((D (S.home x)).owner (S.real x)).map (S.shown (S.home x))

variable {S D}

/-- The owner that is shown is the shown owner of the real name at its home. -/
theorem owner_eq_some {x v : Name} :
    S.owner D x = some v ↔ ∃ u, (D (S.home x)).owner (S.real x) = some u
      ∧ v = S.shown (S.home x) u := by
  unfold owner
  rw [Option.map_eq_some_iff]
  simp only [eq_comm]

/-- A connection that is shown is looked up where it is. -/
theorem owner_shown (b : Site) {u : Name} (hu : conn u) :
    S.owner D (S.shown b u) = ((D b).owner u).map (S.shown b) := by
  unfold owner
  rw [S.home_shown b hu, S.real_shown b hu]

variable (S D)

/-- The directories of all sites as one. -/
def directory : Directory conn where
  owner := S.owner D
  conn_owner h := by
    obtain ⟨u, hu, rfl⟩ := owner_eq_some.mp h
    exact S.conn_shown _ ((D _).conn_owner hu)
  owner_self h := by
    obtain ⟨u, hu, rfl⟩ := owner_eq_some.mp h
    rw [owner_shown _ ((D _).conn_owner hu), (D _).owner_self hu]
    rfl

variable {S D}

/-- A name depends on its home alone. -/
theorem owner_of_home {D' : Site → Directory conn} {x : Name}
    (h : (D' (S.home x)).owner (S.real x)
      = (D (S.home x)).owner (S.real x)) :
    (S.directory D').owner x = (S.directory D).owner x := by
  show S.owner D' x = S.owner D x
  unfold owner
  rw [h]

end Showing

-- ================================================================== observing

variable {σ ι ω α : Type} {step : σ → ι → ω → σ → Prop}

/-- Who is told of a fact `f` whenever it changes, and remembers in `k` what
he is told last, knows it once he has been told. -/
theorem Steps.informed {f : σ → α} {k : σ → Option α} {P : ι → Prop}
    {s s' : σ} {t : List (ι × ω)} (h : Steps step s t s')
    (hquiet : ∀ m i o m', step m i o m' → ¬P i → k m' = k m ∧ f m' = f m)
    (hnews : ∀ m i o m', step m i o m' → P i → k m' = some (f m'))
    (htold : k s = some (f s) ∨ ∃ x ∈ t, P x.1) : k s' = some (f s') := by
  induction h with
  | nil =>
      obtain hknown | ⟨x, hx, -⟩ := htold
      · exact hknown
      · cases hx
  | @snoc t m i o s' _ hs ih =>
      by_cases hi : P i
      · exact hnews m i o s' hs hi
      · obtain ⟨hknown, hfact⟩ := hquiet m i o s' hs hi
        rw [hknown, hfact]
        apply ih
        obtain hstart | ⟨x, hx, htells⟩ := htold
        · exact Or.inl hstart
        · obtain hx | hx := List.mem_append.mp hx
          · exact Or.inr ⟨x, hx, htells⟩
          · rw [List.mem_singleton.mp hx] at htells
            exact absurd htells hi

end DbusRouter.Lib
