/-
Programs at one end of a connection.

A `Dialog` is such a program between its calls: it writes, it reads one
symbol or the end of the stream, and it ends like any call, with an
`Outcome`. Reading one symbol at a time is no restriction: a program that
reads `n` of them waits for the last either way, and takes no more.

What a program does is a conversation, the list of its acts. `Holds` says
which conversations end it and how, `Begun` which it may have held so far.
Neither knows of the other end. A `Partner` does: it says more the more it
is told, and a program that reads what the partner does not say is stuck for
good. `talk` runs a program against a partner, and `talk_eq_some` connects
the two: a program ends against a partner exactly when it holds a
conversation the partner allows. So deadlock freedom is a matter of
`Allows`, and the code is looked at once, in `Holds`.
-/
import DbusRouter.Lib.Outcome

namespace DbusRouter.Lib

/-- A program at one end of a connection that carries `β`s. -/
inductive Dialog (ε β α : Type) where
  /-- ends -/
  | done (x : Outcome ε α)
  /-- writes, then goes on -/
  | write (bs : List β) (next : Dialog ε β α)
  /-- goes on with what it reads, nothing at the end of the stream -/
  | read (next : Option β → Dialog ε β α)

/-- What passes the connection, seen from the program. -/
inductive Act (β : Type) where
  | wrote (bs : List β)
  | heard (b : Option β)
  deriving DecidableEq, Repr

variable {ε β α γ : Type}

namespace Dialog

-- ================================================================ programs

/-- One program after another; only a value continues. -/
def bind : Dialog ε β α → (α → Dialog ε β γ) → Dialog ε β γ
  | done (.ok a), f => f a
  | done (.err e), _ => done (.err e)
  | done (.panic p), _ => done (.panic p)
  | write bs d, f => write bs (d.bind f)
  | read k, f => read fun b => (k b).bind f

instance : Monad (Dialog ε β) where
  pure a := done (.ok a)
  bind := bind

/-- Writes. -/
def put (bs : List β) : Dialog ε β Unit := write bs (pure ())

/-- Reads one symbol. -/
def get : Dialog ε β (Option β) := read pure

def fail (e : ε) : Dialog ε β α := done (.err e)

/-- Reads exactly `n` symbols, unless the stream ends before. -/
def exactly : Nat → Dialog ε β (Option (List β))
  | 0 => pure (some [])
  | n + 1 => do
      match ← get with
      | none => pure none
      | some b => do
          let rest ← exactly n
          pure (rest.map (b :: ·))

theorem pure_eq (a : α) : (pure a : Dialog ε β α) = done (.ok a) := rfl

/-- Behind a value the next part goes on. -/
theorem done_ok_bind (a : α) (f : α → Dialog ε β γ) :
    (done (.ok a) >>= f) = f a := rfl

/-- Behind an error nothing goes on. -/
theorem done_err_bind (e : ε) (f : α → Dialog ε β γ) :
    (done (.err e) >>= f) = done (.err e) := rfl

/-- Behind a panic nothing goes on. -/
theorem done_panic_bind (p : Panic) (f : α → Dialog ε β γ) :
    (done (.panic p) >>= f) = done (.panic p) := rfl

/-- What is written first is written before the next part. -/
theorem write_bind (bs : List β) (d : Dialog ε β α)
    (f : α → Dialog ε β γ) : (write bs d >>= f) = write bs (d >>= f) := rfl

/-- What is read first is read before the next part. -/
theorem read_bind (k : Option β → Dialog ε β α) (f : α → Dialog ε β γ) :
    (read k >>= f) = read fun b => k b >>= f := rfl

theorem put_bind (bs : List β) (f : Unit → Dialog ε β γ) :
    (put bs >>= f) = write bs (f ()) := rfl

theorem get_bind (f : Option β → Dialog ε β γ) :
    (get >>= f) = read f := rfl

-- =========================================================== conversations

/-- The program ends with `x` in the conversation `t`. -/
inductive Holds : Dialog ε β α → List (Act β) → Outcome ε α → Prop
  | done (x : Outcome ε α) : Holds (done x) [] x
  | write {d : Dialog ε β α} {t : List (Act β)} {x : Outcome ε α}
      (bs : List β) : Holds d t x → Holds (write bs d) (.wrote bs :: t) x
  | read {k : Option β → Dialog ε β α} {t : List (Act β)} {x : Outcome ε α}
      (b : Option β) : Holds (k b) t x → Holds (read k) (.heard b :: t) x

/-- The program may have held the conversation `t` so far. -/
inductive Begun : Dialog ε β α → List (Act β) → Prop
  | nil (d : Dialog ε β α) : Begun d []
  | write {d : Dialog ε β α} {t : List (Act β)} (bs : List β) :
      Begun d t → Begun (write bs d) (.wrote bs :: t)
  | read {k : Option β → Dialog ε β α} {t : List (Act β)} (b : Option β) :
      Begun (k b) t → Begun (read k) (.heard b :: t)

/-- Reading, symbol by symbol. -/
def hears (bs : List β) : List (Act β) := bs.map fun b => .heard (some b)

/-- What a conversation has written. -/
def written : List (Act β) → List β
  | [] => []
  | .wrote bs :: t => bs ++ written t
  | .heard _ :: t => written t

/-- What it has heard. -/
def heard : List (Act β) → List β
  | [] => []
  | .wrote _ :: t => heard t
  | .heard b :: t => b.toList ++ heard t

theorem hears_cons (b : β) (bs : List β) :
    hears (b :: bs) = .heard (some b) :: hears bs := rfl

/-- Two texts are heard one behind the other. -/
theorem hears_append (bs cs : List β) :
    hears (bs ++ cs) = hears bs ++ hears cs :=
  List.map_append

/-- What is written in two parts of a conversation. -/
theorem written_append (t u : List (Act β)) :
    written (t ++ u) = written t ++ written u := by
  induction t with
  | nil => rfl
  | cons a t ih =>
      cases a with
      | wrote bs =>
          rw [List.cons_append, written, written, ih, List.append_assoc]
      | heard b =>
          rw [List.cons_append, written, written, ih]

/-- What is heard in two parts of a conversation. -/
theorem heard_append (t u : List (Act β)) :
    heard (t ++ u) = heard t ++ heard u := by
  induction t with
  | nil => rfl
  | cons a t ih =>
      cases a with
      | wrote bs =>
          rw [List.cons_append, heard, heard, ih]
      | heard b =>
          rw [List.cons_append, heard, heard, ih, List.append_assoc]

/-- Hearing writes nothing. -/
@[simp] theorem written_hears (bs : List β) : written (hears bs) = [] := by
  induction bs with
  | nil => rfl
  | cons b bs ih => rw [hears_cons, written, ih]

/-- What is heard symbol by symbol is the text. -/
@[simp] theorem heard_hears (bs : List β) : heard (hears bs) = bs := by
  induction bs with
  | nil => rfl
  | cons b bs ih => rw [hears_cons, heard, ih]; rfl

section rules

variable {d : Dialog ε β α} {k : Option β → Dialog ε β α}
  {t : List (Act β)} {x y : Outcome ε α}

/-- A program that is over says and hears nothing. -/
theorem holds_done : Holds (done y : Dialog ε β α) t x ↔ t = [] ∧ x = y := by
  constructor
  · intro h
    cases h
    exact ⟨rfl, rfl⟩
  · rintro ⟨rfl, rfl⟩
    exact .done _

/-- A program that writes begins its conversation with that. -/
theorem holds_write {bs : List β} :
    Holds (write bs d) t x ↔ ∃ u, t = .wrote bs :: u ∧ Holds d u x := by
  constructor
  · intro h
    cases h with
    | write _ h => exact ⟨_, rfl, h⟩
  · rintro ⟨u, rfl, h⟩
    exact .write bs h

/-- A program that reads goes on with what it hears, or with the end. -/
theorem holds_read :
    Holds (read k) t x ↔ ∃ b u, t = .heard b :: u ∧ Holds (k b) u x := by
  constructor
  · intro h
    cases h with
    | read b h => exact ⟨b, _, rfl, h⟩
  · rintro ⟨b, u, rfl, h⟩
    exact .read b h

/-- A failing program returns no value. -/
theorem not_holds_fail {e : ε} {a : α} :
    ¬Holds (fail e : Dialog ε β α) t (.ok a) := by
  intro h
  cases h

/-- A program that returns a value says and hears nothing. -/
theorem holds_pure {a b : α} :
    Holds (pure b : Dialog ε β α) t (.ok a) ↔ t = [] ∧ a = b := by
  rw [pure_eq, holds_done, Outcome.ok.injEq]

end rules

/-- A sequence ends with a value when its parts do, one behind the other. -/
theorem holds_bind {d : Dialog ε β α} {f : α → Dialog ε β γ}
    {t : List (Act β)} {c : γ} :
    Holds (d >>= f) t (.ok c)
      ↔ ∃ u v a, t = u ++ v ∧ Holds d u (.ok a) ∧ Holds (f a) v (.ok c) := by
  induction d generalizing t with
  | done x =>
      cases x with
      | ok a =>
          rw [done_ok_bind]
          constructor
          · intro h
            exact ⟨[], t, a, rfl, .done _, h⟩
          · rintro ⟨u, v, a', rfl, hd, hf⟩
            cases hd
            exact hf
      | err e =>
          rw [done_err_bind]
          constructor
          · intro h
            cases h
          · rintro ⟨u, v, a, -, hd, -⟩
            cases hd
      | panic p =>
          rw [done_panic_bind]
          constructor
          · intro h
            cases h
          · rintro ⟨u, v, a, -, hd, -⟩
            cases hd
  | write bs d ih =>
      rw [write_bind, holds_write]
      constructor
      · rintro ⟨w, rfl, h⟩
        obtain ⟨u, v, a, rfl, hd, hf⟩ := ih.mp h
        exact ⟨.wrote bs :: u, v, a, rfl, .write bs hd, hf⟩
      · rintro ⟨u, v, a, rfl, hd, hf⟩
        obtain ⟨w, rfl, hw⟩ := holds_write.mp hd
        exact ⟨w ++ v, rfl, ih.mpr ⟨w, v, a, rfl, hw, hf⟩⟩
  | read k ih =>
      rw [read_bind, holds_read]
      constructor
      · rintro ⟨b, w, rfl, h⟩
        obtain ⟨u, v, a, rfl, hd, hf⟩ := (ih b).mp h
        exact ⟨.heard b :: u, v, a, rfl, .read b hd, hf⟩
      · rintro ⟨u, v, a, rfl, hd, hf⟩
        obtain ⟨b, w, rfl, hw⟩ := holds_read.mp hd
        exact ⟨b, w ++ v, rfl, (ih b).mpr ⟨w, v, a, rfl, hw, hf⟩⟩

/-- A conversation that is held to its end is held so far at every point. -/
theorem Holds.begun {d : Dialog ε β α} {u v : List (Act β)}
    {x : Outcome ε α} (h : Holds d (u ++ v) x) : Begun d u := by
  induction u generalizing d with
  | nil => exact .nil _
  | cons act u ih =>
      rw [List.cons_append] at h
      cases h with
      | write bs h => exact .write bs (ih h)
      | read b h => exact .read b (ih h)

/-- A sequence is in its first part, or has ended that with a value and is in
its second. -/
theorem Begun.of_bind {d : Dialog ε β α} {f : α → Dialog ε β γ}
    {t : List (Act β)} (h : Begun (d >>= f) t) :
    Begun d t ∨ ∃ u v a, t = u ++ v ∧ Holds d u (.ok a)
      ∧ Begun (f a) v := by
  induction d generalizing t with
  | done x =>
      cases x with
      | ok a =>
          right
          exact ⟨[], t, a, rfl, .done _, h⟩
      | err e =>
          left
          rw [done_err_bind] at h
          cases h
          exact .nil _
      | panic p =>
          left
          rw [done_panic_bind] at h
          cases h
          exact .nil _
  | write bs d ih =>
      rw [write_bind] at h
      cases h with
      | nil =>
          left
          exact .nil _
      | write _ h =>
          rcases ih h with hd | ⟨u, v, a, rfl, hd, hf⟩
          · left
            exact .write bs hd
          · right
            exact ⟨.wrote bs :: u, v, a, rfl, .write bs hd, hf⟩
  | read k ih =>
      rw [read_bind] at h
      cases h with
      | nil =>
          left
          exact .nil _
      | read b h =>
          rcases ih b h with hd | ⟨u, v, a, rfl, hd, hf⟩
          · left
            exact .read b hd
          · right
            exact ⟨.heard b :: u, v, a, rfl, .read b hd, hf⟩

/-- `exactly` hears as many symbols as it is asked for. -/
theorem holds_exactly {n : Nat} {t : List (Act β)} {bs : List β} :
    Holds (exactly n : Dialog ε β _) t (.ok (some bs))
      ↔ t = hears bs ∧ bs.length = n := by
  induction n generalizing t bs with
  | zero =>
      rw [exactly, holds_pure, Option.some.injEq, List.length_eq_zero_iff]
      constructor
      · rintro ⟨rfl, rfl⟩
        exact ⟨rfl, rfl⟩
      · rintro ⟨rfl, rfl⟩
        exact ⟨rfl, rfl⟩
  | succ n ih =>
      rw [exactly, get_bind, holds_read]
      constructor
      · rintro ⟨b, u, rfl, h⟩
        cases b with
        | none =>
            rw [holds_pure] at h
            cases h.2
        | some b =>
            obtain ⟨u, v, rest, rfl, hrest, hv⟩ := holds_bind.mp h
            obtain ⟨rfl, hbs⟩ := holds_pure.mp hv
            cases rest with
            | none => cases hbs
            | some rest =>
                cases hbs
                obtain ⟨rfl, hlen⟩ := ih.mp hrest
                refine ⟨?_, congrArg (· + 1) hlen⟩
                rw [List.append_nil, hears_cons]
      · rintro ⟨rfl, hlen⟩
        cases bs with
        | nil => cases hlen
        | cons b bs =>
            refine ⟨some b, hears bs, rfl, holds_bind.mpr
              ⟨hears bs, [], some bs, (List.append_nil _).symm, ?_, ?_⟩⟩
            · exact ih.mpr ⟨rfl, Nat.succ.inj hlen⟩
            · exact holds_pure.mpr ⟨rfl, rfl⟩

-- ========================================================= silent programs

/-- The program writes nothing. -/
def Silent : Dialog ε β α → Prop
  | done _ => True
  | write _ _ => False
  | read k => ∀ b, (k b).Silent

/-- Two silent parts are silent together. -/
theorem Silent.bind {d : Dialog ε β α} {f : α → Dialog ε β γ}
    (hd : d.Silent) (hf : ∀ a, (f a).Silent) : (d >>= f).Silent := by
  induction d with
  | done x =>
      cases x with
      | ok a => exact hf a
      | err e => trivial
      | panic p => trivial
  | write bs d _ => exact absurd hd id
  | read k ih => exact fun b => ih b (hd b)

/-- Reading a number of symbols writes nothing. -/
theorem silent_exactly (n : Nat) : (exactly n : Dialog ε β _).Silent := by
  induction n with
  | zero => trivial
  | succ n ih =>
      intro b
      cases b with
      | none => trivial
      | some b => exact ih.bind fun _ => trivial

/-- So nothing is written in its conversations. -/
theorem Silent.written_eq {d : Dialog ε β α} {t : List (Act β)}
    (hd : d.Silent) (h : Begun d t) : written t = [] := by
  induction h with
  | nil => rfl
  | write _ _ _ => exact absurd hd id
  | read b _ ih => exact ih (hd b)

end Dialog

-- ================================================================= partners

/-- The other end of a connection: what it has said once it has been told so
much, and whether it has then closed. It takes nothing back. -/
structure Partner (β : Type) where
  tells : List β → List β
  closed : List β → Bool
  tells_mono : ∀ {w w'}, w <+: w' → tells w <+: tells w'
  closed_last : ∀ {w w'}, w <+: w' → closed w = true → tells w' = tells w

/-- How far a program has got: what it has written and what it has heard. -/
structure Place (β : Type) where
  written : List β
  heard : List β
  deriving DecidableEq, Repr

def Place.start : Place β := ⟨[], []⟩

namespace Partner

/-- Runs a program against the partner. It is stuck where it reads what the
partner does not say. -/
def talk (P : Partner β) : Dialog ε β α → Place β →
    Option (Outcome ε α) × Place β
  | .done x, p => (some x, p)
  | .write bs d, p => P.talk d ⟨p.written ++ bs, p.heard⟩
  | .read k, p =>
      match (P.tells p.written)[p.heard.length]? with
      | some b => P.talk (k (some b)) ⟨p.written, p.heard ++ [b]⟩
      | none => if P.closed p.written then P.talk (k none) p else (none, p)

/-- The partner lets a program hold the conversation, from one place to the
other. -/
def Allows (P : Partner β) (p : Place β) : List (Act β) → Place β → Prop
  | [], q => q = p
  | .wrote bs :: t, q => P.Allows ⟨p.written ++ bs, p.heard⟩ t q
  | .heard (some b) :: t, q =>
      (P.tells p.written)[p.heard.length]? = some b
        ∧ P.Allows ⟨p.written, p.heard ++ [b]⟩ t q
  | .heard none :: t, q =>
      (P.tells p.written)[p.heard.length]? = none
        ∧ P.closed p.written = true ∧ P.Allows p t q

/-- A program ends against a partner exactly in a conversation the partner
allows. -/
theorem talk_eq_some {P : Partner β} {d : Dialog ε β α} {p q : Place β}
    {x : Outcome ε α} :
    P.talk d p = (some x, q) ↔ ∃ t, d.Holds t x ∧ P.Allows p t q := by
  induction d generalizing p with
  | done y =>
      rw [talk, Prod.mk.injEq, Option.some.injEq]
      constructor
      · rintro ⟨rfl, rfl⟩
        exact ⟨[], .done _, rfl⟩
      · rintro ⟨t, h, ht⟩
        cases h
        exact ⟨rfl, ht.symm⟩
  | write bs d ih =>
      rw [talk, ih]
      constructor
      · rintro ⟨t, h, ht⟩
        exact ⟨_, .write bs h, ht⟩
      · rintro ⟨t, h, ht⟩
        obtain ⟨u, rfl, hu⟩ := Dialog.holds_write.mp h
        exact ⟨u, hu, ht⟩
  | read k ih =>
      rw [talk]
      constructor
      · intro h
        split at h
        next b hb =>
          obtain ⟨t, hk, ht⟩ := (ih _).mp h
          exact ⟨_, .read (some b) hk, hb, ht⟩
        next hb =>
          split at h
          next hc =>
            obtain ⟨t, hk, ht⟩ := (ih _).mp h
            exact ⟨_, .read none hk, hb, hc, ht⟩
          next => cases h
      · rintro ⟨t, h, ht⟩
        obtain ⟨b, u, rfl, hk⟩ := Dialog.holds_read.mp h
        cases b with
        | some b =>
            obtain ⟨hb, hu⟩ := ht
            rw [hb]
            exact (ih _).mpr ⟨u, hk, hu⟩
        | none =>
            obtain ⟨hb, hc, hu⟩ := ht
            rw [hb]
            refine (if_pos hc).trans ?_
            exact (ih _).mpr ⟨u, hk, hu⟩

section allows

variable {P : Partner β} {p q : Place β}

/-- A partner allows two parts of a conversation one behind the other. -/
theorem allows_append {t u : List (Act β)} :
    P.Allows p (t ++ u) q ↔ ∃ m, P.Allows p t m ∧ P.Allows m u q := by
  induction t generalizing p with
  | nil =>
      constructor
      · intro h
        exact ⟨p, rfl, h⟩
      · rintro ⟨m, rfl, h⟩
        exact h
  | cons a t ih =>
      cases a with
      | wrote bs => exact ih
      | heard b =>
          cases b with
          | some b =>
              constructor
              · rintro ⟨hb, h⟩
                obtain ⟨m, ht, hu⟩ := ih.mp h
                exact ⟨m, ⟨hb, ht⟩, hu⟩
              · rintro ⟨m, ⟨hb, ht⟩, hu⟩
                exact ⟨hb, ih.mpr ⟨m, ht, hu⟩⟩
          | none =>
              constructor
              · rintro ⟨hb, hc, h⟩
                obtain ⟨m, ht, hu⟩ := ih.mp h
                exact ⟨m, ⟨hb, hc, ht⟩, hu⟩
              · rintro ⟨m, ⟨hb, hc, ht⟩, hu⟩
                exact ⟨hb, hc, ih.mpr ⟨m, ht, hu⟩⟩

/-- To hear `bs` is to wait until the partner has said that much. -/
theorem allows_hears {bs : List β} (h : p.heard <+: P.tells p.written) :
    P.Allows p (Dialog.hears bs) q
      ↔ p.heard ++ bs <+: P.tells p.written
        ∧ q = ⟨p.written, p.heard ++ bs⟩ := by
  induction bs generalizing p with
  | nil =>
      rw [List.append_nil]
      constructor
      · intro hq
        exact ⟨h, hq⟩
      · rintro ⟨-, hq⟩
        exact hq
  | cons b bs ih =>
      obtain ⟨more, hmore⟩ := h
      have hnext : (P.tells p.written)[p.heard.length]? = more[0]? := by
        rw [← hmore, List.getElem?_append_right (Nat.le_refl _),
          Nat.sub_self]
      rw [Dialog.hears_cons, Allows, hnext]
      constructor
      · rintro ⟨hb, hrest⟩
        cases more with
        | nil => cases hb
        | cons c more =>
            cases hb
            have hheard : p.heard ++ [b] <+: P.tells p.written :=
              ⟨more, by rw [← hmore, List.append_assoc]; rfl⟩
            obtain ⟨hsaid, hq⟩ := (ih hheard).mp hrest
            rw [List.append_assoc] at hsaid hq
            exact ⟨hsaid, hq⟩
      · rintro ⟨⟨rest, hrest⟩, hq⟩
        have heq : more = b :: (bs ++ rest) := by
          refine List.append_cancel_left (hmore.trans ?_)
          rw [← hrest, List.append_assoc]
          rfl
        subst heq
        have hheard : p.heard ++ [b] <+: P.tells p.written :=
          ⟨bs ++ rest, by rw [← hmore, List.append_assoc]; rfl⟩
        refine ⟨rfl, (ih hheard).mpr ⟨⟨rest, ?_⟩, ?_⟩⟩
        · rw [← hrest]
          simp only [List.append_assoc, List.cons_append, List.nil_append]
        · rw [hq, List.append_assoc]
          rfl

end allows

end Partner

end DbusRouter.Lib
