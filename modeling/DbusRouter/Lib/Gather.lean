/-
A buffer filled from a stream that comes in pieces.

`gather n held pieces` takes pieces into the buffer until it holds `n`
symbols: it is what a reader does that wants `n` symbols and cannot ask for
fewer than a piece. `Admits` says that a check passes for every piece that
is taken, and `admits_iff` states that by positions in the stream, without
the reader.
-/
import Mathlib.Data.List.Infix

namespace DbusRouter.Lib

variable {α : Type}

/-- Takes pieces until `n` symbols are held. -/
def gather (n : Nat) : List α → List (List α) → List α × List (List α)
  | held, [] => (held, [])
  | held, p :: ps =>
      if n ≤ held.length then (held, p :: ps) else gather n (held ++ p) ps

/-- A check passes for each piece that is taken, given what is held. -/
def Admits (ok : List α → List α → Prop) (n : Nat) :
    List α → List (List α) → Prop
  | _, [] => True
  | held, p :: ps =>
      n ≤ held.length ∨ (ok held p ∧ Admits ok n (held ++ p) ps)

/-- With enough held nothing is taken. -/
theorem gather_of_le {n : Nat} {held : List α} (ps : List (List α))
    (h : n ≤ held.length) : gather n held ps = (held, ps) := by
  cases ps with
  | nil => rfl
  | cons p ps =>
      unfold gather
      rw [if_pos h]

/-- The stream stays what it is. -/
theorem gather_stream (n : Nat) (held : List α) (ps : List (List α)) :
    (gather n held ps).1 ++ (gather n held ps).2.flatten
      = held ++ ps.flatten := by
  induction ps generalizing held with
  | nil => rfl
  | cons p ps ih =>
      unfold gather
      split
      next => rfl
      next => rw [ih, List.append_assoc, List.flatten_cons]

/-- A long enough stream gives what is asked for. -/
theorem le_gather {n : Nat} {held : List α} {ps : List (List α)}
    (h : n ≤ (held ++ ps.flatten).length) :
    n ≤ (gather n held ps).1.length := by
  induction ps generalizing held with
  | nil => simpa [gather] using h
  | cons p ps ih =>
      unfold gather
      split
      next hle => exact hle
      next =>
        apply ih
        rw [List.append_assoc]
        exact h

/-- It gives no more than one piece beyond that. -/
theorem gather_length_le {n b : Nat} {held : List α} {ps : List (List α)}
    (hps : ∀ p ∈ ps, p.length ≤ b) (h : held.length ≤ n + b) :
    (gather n held ps).1.length ≤ n + b := by
  induction ps generalizing held with
  | nil => exact h
  | cons p ps ih =>
      unfold gather
      split
      next => exact h
      next hlt =>
        have hp := hps p (List.mem_cons_self ..)
        apply ih fun q hq => hps q (List.mem_cons_of_mem _ hq)
        rw [List.length_append]
        omega

/-- What is left are pieces of those that were there. -/
theorem mem_of_mem_gather {n : Nat} {held p : List α} {ps : List (List α)}
    (h : p ∈ (gather n held ps).2) : p ∈ ps := by
  induction ps generalizing held with
  | nil => exact h
  | cons q ps ih =>
      unfold gather at h
      split at h
      next => exact h
      next => exact List.mem_cons_of_mem _ (ih h)

/-- Asking for less first makes no difference. -/
theorem gather_gather {k n : Nat} (hk : k ≤ n) (held : List α)
    (ps : List (List α)) :
    gather n (gather k held ps).1 (gather k held ps).2
      = gather n held ps := by
  induction ps generalizing held with
  | nil => rfl
  | cons p ps ih =>
      by_cases h : k ≤ held.length
      · rw [gather_of_le _ h]
      · have hn : ¬n ≤ held.length := by omega
        simp only [gather, if_neg h, if_neg hn]
        exact ih _

/-- Gathering more is gathering less and then the rest. -/
theorem admits_gather {ok : List α → List α → Prop} {k n : Nat}
    (hk : k ≤ n) (held : List α) (ps : List (List α)) :
    Admits ok n held ps ↔ Admits ok k held ps
      ∧ Admits ok n (gather k held ps).1 (gather k held ps).2 := by
  induction ps generalizing held with
  | nil => exact (and_self_iff).symm
  | cons p ps ih =>
      by_cases h : k ≤ held.length
      · rw [gather_of_le _ h]
        exact ⟨fun ha => ⟨Or.inl h, ha⟩, fun ha => ha.2⟩
      · have hn : ¬n ≤ held.length := by omega
        simp only [Admits, gather, h, hn, if_false, false_or]
        rw [ih, and_assoc]

/-- The pieces that are taken are those that begin before `n` symbols. -/
theorem admits_iff {ok : List α → List α → Prop} {n : Nat} {held : List α}
    {ps : List (List α)} :
    Admits ok n held ps ↔ ∀ u p v, ps = u ++ p :: v →
      (held ++ u.flatten).length < n → ok (held ++ u.flatten) p := by
  induction ps generalizing held with
  | nil =>
      refine ⟨fun _ u p v h => ?_, fun _ => trivial⟩
      simp at h
  | cons q ps ih =>
      unfold Admits
      rw [ih]
      constructor
      · rintro hor u p v h hlt
        have hheld : held.length < n := by
          rw [List.length_append] at hlt
          omega
        rcases hor with hle | ⟨hq, hrest⟩
        · omega
        · cases u with
          | nil =>
              cases h
              simpa using hq
          | cons w u =>
              cases h
              have hp := hrest u p v rfl
              simp only [List.append_assoc, List.flatten_cons] at hp hlt ⊢
              exact hp hlt
      · intro h
        by_cases hle : n ≤ held.length
        · exact Or.inl hle
        · refine Or.inr ⟨?_, fun u p v hps hlt => ?_⟩
          · have hq := h [] q ps rfl
            simp only [List.flatten_nil, List.append_nil] at hq
            exact hq (by omega)
          · have hp := h (q :: u) p v (by rw [hps]; rfl)
            simp only [List.flatten_cons, ← List.append_assoc] at hp
            exact hp hlt

/-- A piece that begins behind `n` symbols is left. -/
theorem exists_left {n : Nat} {held p : List α} {ps u v : List (List α)}
    (hps : ps = u ++ p :: v) (h : n ≤ (held ++ u.flatten).length) :
    ∃ w, (gather n held ps).2 = w ++ p :: v
      ∧ (gather n held ps).1 ++ w.flatten = held ++ u.flatten := by
  induction u generalizing held ps with
  | nil =>
      simp only [List.flatten_nil, List.append_nil] at h
      rw [gather_of_le _ h]
      exact ⟨[], hps, rfl⟩
  | cons q u ih =>
      subst hps
      by_cases hle : n ≤ held.length
      · rw [gather_of_le _ hle]
        exact ⟨q :: u, rfl, rfl⟩
      · simp only [List.cons_append, gather, if_neg hle]
        rw [List.flatten_cons, ← List.append_assoc] at h ⊢
        exact ih rfl h

/-- And what is left began where it did. -/
theorem left_of_gather {n : Nat} {held p : List α} {ps w v : List (List α)}
    (h : (gather n held ps).2 = w ++ p :: v) :
    ∃ u, ps = u ++ p :: v
      ∧ held ++ u.flatten = (gather n held ps).1 ++ w.flatten := by
  induction ps generalizing held with
  | nil => simp [gather] at h
  | cons q ps ih =>
      by_cases hle : n ≤ held.length
      · rw [gather_of_le _ hle] at h ⊢
        exact ⟨w, h, rfl⟩
      · simp only [gather, if_neg hle] at h ⊢
        obtain ⟨u, hu, hflat⟩ := ih h
        refine ⟨q :: u, by rw [hu]; rfl, ?_⟩
        rw [← hflat, List.flatten_cons, List.append_assoc]

end DbusRouter.Lib
