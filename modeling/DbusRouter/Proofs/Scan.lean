/-
The whole walk of `rewriteHeaderField`.

The position between two turns matters only up to the next multiple of 8
(`walkField_congr`), so the walk gets past passable fields although it may
stand a few bytes before the end of one (`findFrom_pass`). Behind them it
finds the wanted field, ends at one that it stops at, or runs out of fields.
On plain fields it does what `locate` does (`findHeaderField_layout`).
-/
import DbusRouter.Proofs.Walk

namespace DbusRouter.Model

open Wire Lib

-- =================================================================== fuel

section fuel

variable {raw : Bytes} {e : Endian} {fieldsEnd : Nat}

theorem alignPos_le {a n p : Nat} (ha : IsAlign a)
    (h : alignPos a n = .ok p) : n ≤ p := by
  obtain ⟨top, htop, h⟩ := Outcome.bind_eq_ok h
  have htop := addUsize_eq_ok htop
  cases h
  rcases ha with rfl | rfl | rfl | rfl <;> omega

theorem skipString_next {pos p : Nat}
    (h : skipString raw e fieldsEnd pos = .ok (.next p)) : pos ≤ p := by
  obtain ⟨lenEnd, hend, h⟩ := Outcome.bind_eq_ok h
  have hend := addUsize_eq_ok hend
  split at h
  next => cases h
  next =>
    obtain ⟨len, -, h⟩ := Outcome.bind_eq_ok h
    obtain ⟨next, hnext, h⟩ := Outcome.bind_eq_ok h
    have hnext := addUsize_eq_ok hnext
    cases h
    omega

theorem skipSignature_next {pos p : Nat}
    (h : skipSignature raw fieldsEnd pos = .ok (.next p)) : pos ≤ p := by
  unfold skipSignature at h
  split at h
  next => cases h
  next =>
    obtain ⟨len, -, h⟩ := Outcome.bind_eq_ok h
    obtain ⟨next, hnext, h⟩ := Outcome.bind_eq_ok h
    have hnext := addUsize_eq_ok hnext
    cases h
    omega

theorem skipBytes_next {n pos p : Nat}
    (h : skipBytes n pos = .ok (.next p)) : pos ≤ p := by
  obtain ⟨next, hnext, h⟩ := Outcome.bind_eq_ok h
  have hnext := addUsize_eq_ok hnext
  cases h
  omega

theorem skipVariantValue_next {sig : UInt8} {pos p : Nat}
    (h : skipVariantValue raw e fieldsEnd sig pos = .ok (.next p)) :
    pos ≤ p := by
  unfold skipVariantValue at h
  split at h
  next => exact skipString_next h
  next =>
    split at h
    next => exact skipSignature_next h
    next =>
      split at h
      next => exact skipBytes_next h
      next => cases h

theorem skipVariant_next {pos p : Nat}
    (h : skipVariant raw e fieldsEnd pos = .ok (.next p)) : pos ≤ p := by
  unfold skipVariant at h
  split at h
  next => cases h
  next =>
    obtain ⟨len, -, h⟩ := Outcome.bind_eq_ok h
    obtain ⟨sigEnd, hend, h⟩ := Outcome.bind_eq_ok h
    have hend := addUsize_eq_ok hend
    split at h
    next => cases h
    next =>
      dsimp only at h
      -- the letter is read only when the signature has one
      obtain ⟨sig, hsig⟩ : ∃ sig, (alignPos (valueAlign sig) sigEnd >>=
          skipVariantValue raw e fieldsEnd sig) = .ok (.next p) := by
        split at h
        next =>
          obtain ⟨sig, -, h⟩ := Outcome.bind_eq_ok h
          exact ⟨sig, h⟩
        next => exact ⟨0, h⟩
      obtain ⟨start, hstart, h⟩ := Outcome.bind_eq_ok hsig
      have hstart := alignPos_le (isAlign_valueAlign sig) hstart
      have hvalue := skipVariantValue_next h
      omega

theorem skipValue_next {sig : UInt8} {pos p : Nat}
    (h : skipValue raw e fieldsEnd sig pos = .ok (.next p)) : pos ≤ p := by
  unfold skipValue at h
  split at h
  next => exact skipString_next h
  next =>
    split at h
    next => exact skipSignature_next h
    next =>
      split at h
      next => exact skipBytes_next h
      next =>
        split at h
        next =>
          obtain ⟨lenEnd, hend, h⟩ := Outcome.bind_eq_ok h
          have hend := addUsize_eq_ok hend
          split at h
          next => cases h
          next =>
            obtain ⟨len, -, h⟩ := Outcome.bind_eq_ok h
            obtain ⟨next, hnext, h⟩ := Outcome.bind_eq_ok h
            have hnext := addUsize_eq_ok hnext
            cases h
            omega
        next =>
          split at h
          next => exact skipVariant_next h
          next =>
            obtain ⟨_, -, h⟩ := Outcome.bind_eq_ok h
            obtain ⟨_, -, h⟩ := Outcome.bind_eq_ok h
            cases h

/-- A turn that goes on has moved past the field's code. -/
theorem walkField_next_gt {code : UInt8} {pos p : Nat}
    (h : walkField raw e fieldsEnd code pos = .ok (.next p)) : pos < p := by
  obtain ⟨start, hstart, h⟩ := Outcome.bind_eq_ok h
  have hstart := alignPos_le (.inr (.inr (.inr rfl))) hstart
  split at h
  next => cases h
  next =>
    obtain ⟨c, -, h⟩ := Outcome.bind_eq_ok h
    obtain ⟨sigStart, hsig, h⟩ := Outcome.bind_eq_ok h
    have hsig := addUsize_eq_ok hsig
    split at h
    next => cases h
    next =>
      obtain ⟨len, -, h⟩ := Outcome.bind_eq_ok h
      obtain ⟨sigEnd, hend, h⟩ := Outcome.bind_eq_ok h
      have hend := addUsize_eq_ok hend
      obtain ⟨sig, -, h⟩ := Outcome.bind_eq_ok h
      obtain ⟨value, hvalue, h⟩ := Outcome.bind_eq_ok h
      have hvalue := alignPos_le (isAlign_valueAlign sig) hvalue
      split at h
      next => cases h
      next =>
        obtain ⟨sig', -, h⟩ := Outcome.bind_eq_ok h
        have hnext := skipValue_next h
        omega

/-- More fuel than bytes left changes nothing: the walk ends by itself. -/
theorem findFrom_fuel {code : UInt8} : ∀ (fuel fuel' pos : Nat),
    fieldsEnd - pos ≤ fuel → fieldsEnd - pos ≤ fuel' →
      findFrom raw e fieldsEnd code fuel pos
        = findFrom raw e fieldsEnd code fuel' pos := by
  -- a position at the end of the fields needs no fuel
  have hstop : ∀ {fuel pos : Nat}, fieldsEnd ≤ pos →
      findFrom raw e fieldsEnd code fuel pos = .ok none := by
    intro fuel pos h
    cases fuel with
    | zero => rfl
    | succ fuel => rw [findFrom, if_pos h]
  intro fuel
  induction fuel with
  | zero =>
      intro fuel' pos h _
      rw [hstop (by omega), hstop (by omega)]
  | succ fuel ih =>
      intro fuel' pos h h'
      by_cases hp : fieldsEnd ≤ pos
      · rw [hstop hp, hstop hp]
      · obtain ⟨fuel', rfl⟩ : ∃ m, fuel' = m + 1 := ⟨fuel' - 1, by omega⟩
        rw [findFrom, findFrom, if_neg hp, if_neg hp]
        cases hw : walkField raw e fieldsEnd code pos with
        | err | panic => rfl
        | ok w =>
            cases w with
            | stop | found => rfl
            | next p =>
                have hgt := walkField_next_gt hw
                simp only [Outcome.ok_bind]
                exact ih fuel' p (by omega) (by omega)

end fuel

-- =============================================================== the walk

section run

variable {raw : Bytes} {e : Endian} {fieldsEnd : Nat} {code : UInt8}

/-- Offset of the value that `locate` finds. -/
def locatedAt (e : Endian) (p : Nat) (pre : List Field) (f : Field) : Nat :=
  valueStart (p + (marshalFields e p pre).length) f

/-- A turn begins at the next multiple of 8. -/
theorem walkField_congr {p q : Nat} (h : alignUp 8 p = alignUp 8 q)
    (hp : p < 2 ^ 63) (hq : q < 2 ^ 63) :
    walkField raw e fieldsEnd code p = walkField raw e fieldsEnd code q := by
  unfold walkField
  rw [alignPos_ok isAlign_eight hp, alignPos_ok isAlign_eight hq, h]

theorem walkField_end {p : Nat} (h : fieldsEnd ≤ alignUp 8 p)
    (hp : p < 2 ^ 63) : walkField raw e fieldsEnd code p = .ok .stop := by
  unfold walkField
  rw [alignPos_ok isAlign_eight hp, Outcome.ok_bind, if_pos h]

/-- The walk gets past passable fields: whatever it finds, it finds from
their end, or from before it and behind the last multiple of 8. -/
theorem findFrom_pass (pre : List Field) :
    ∀ {p q fuel : Nat}, ValidFields e p pre →
      (∀ f ∈ pre, f.1 ≠ code ∧ passable e f.2 = true) →
      At raw p (marshalFields e p pre) →
      p + (marshalFields e p pre).length ≤ fieldsEnd → raw.length < 2 ^ 62 →
      alignUp 8 q = alignUp 8 p → fieldsEnd - q ≤ fuel →
      ∃ q' fuel', alignUp 8 q'
          = alignUp 8 (p + (marshalFields e p pre).length)
        ∧ fieldsEnd - q' ≤ fuel'
        ∧ findFrom raw e fieldsEnd code fuel q
          = findFrom raw e fieldsEnd code fuel' q' := by
  induction pre with
  | nil =>
      intro p q fuel _ _ _ _ _ hq hfuel
      exact ⟨q, fuel, hq, hfuel, rfl⟩
  | cons f pre ih =>
      intro p q fuel hv hpre h hend hraw hq hfuel
      rw [ValidFields] at hv
      rw [marshalFields] at h hend ⊢
      rw [List.length_append] at hend ⊢
      obtain ⟨hcode, hpass⟩ := hpre f (List.mem_cons_self ..)
      have hlen := field_end (e := e) f p
      have hle := h.left.le
      have hqup := le_alignUp isAlign_eight q
      have hpup := le_alignUp isAlign_eight p
      have hlt : q < fieldsEnd := by omega
      obtain ⟨p', hturn, hp'⟩ := walkField_pass hv.1 hpass hcode h.left
        (show p + (marshalField e p f).length ≤ fieldsEnd by omega) hraw
      rw [← walkField_congr (p := q) hq (by omega) (by omega)] at hturn
      have hgt := walkField_next_gt hturn
      obtain ⟨fuel, rfl⟩ := Nat.exists_eq_succ_of_ne_zero
        (show fuel ≠ 0 by omega)
      obtain ⟨q', fuel', hq', hfuel', hsame⟩ := ih
        hv.2 (fun g hg => hpre g (List.mem_cons_of_mem _ hg)) h.right
        (by omega) hraw hp' (show fieldsEnd - p' ≤ fuel by omega)
      refine ⟨q', fuel', ?_, hfuel', ?_⟩
      · rw [hq', Nat.add_assoc]
      · rw [← hsame, findFrom, if_neg (by omega), hturn]
        rfl

section fields

variable {fs pre post : List Field} {f : Field} {p fuel : Nat}

/-- Behind passable fields the walk takes a turn at the next one. -/
theorem findFrom_turn (hfs : fs = pre ++ f :: post)
    (hv : ValidFields e p fs)
    (hpre : ∀ g ∈ pre, g.1 ≠ code ∧ passable e g.2 = true)
    (h : At raw p (marshalFields e p fs))
    (hend : p + (marshalFields e p fs).length = fieldsEnd)
    (hraw : raw.length < 2 ^ 62) (hfuel : fieldsEnd - p ≤ fuel) :
    ∃ q fuel', q < fieldsEnd
      ∧ findFrom raw e fieldsEnd code fuel p
        = findFrom raw e fieldsEnd code (fuel' + 1) q
      ∧ walkField raw e fieldsEnd code q = walkField raw e fieldsEnd code
          (p + (marshalFields e p pre).length) := by
  subst hfs
  rw [validFields_append, ValidFields] at hv
  rw [marshalFields_append, marshalFields] at h hend
  simp only [List.length_append] at hend
  have hle := h.le
  simp only [List.length_append] at hle
  have hlen := field_end (e := e) f (p + (marshalFields e p pre).length)
  obtain ⟨q, fuel', hq, hfuel', hsame⟩ := findFrom_pass pre
    hv.1 hpre h.left (show _ ≤ fieldsEnd by omega) hraw rfl hfuel
  have hqup := le_alignUp isAlign_eight q
  have hpup := le_alignUp isAlign_eight
    (p + (marshalFields e p pre).length)
  obtain ⟨fuel', rfl⟩ := Nat.exists_eq_succ_of_ne_zero
    (show fuel' ≠ 0 by omega)
  exact ⟨q, fuel', by omega, hsame, walkField_congr hq (by omega) (by omega)⟩

/-- The first field with the code, behind passable ones, is found. -/
theorem findFrom_found (hfs : fs = pre ++ f :: post)
    (hv : ValidFields e p fs)
    (hpre : ∀ g ∈ pre, g.1 ≠ code ∧ passable e g.2 = true)
    (h : At raw p (marshalFields e p fs))
    (hend : p + (marshalFields e p fs).length = fieldsEnd)
    (hraw : raw.length < 2 ^ 62) (hfuel : fieldsEnd - p ≤ fuel)
    (hcode : f.1 = code) :
    findFrom raw e fieldsEnd code fuel p
      = .ok (some (locatedAt e p pre f)) := by
  obtain ⟨q, fuel', hlt, hsame, hturn⟩ :=
    findFrom_turn hfs hv hpre h hend hraw hfuel
  subst hfs
  rw [validFields_append, ValidFields] at hv
  rw [marshalFields_append, marshalFields] at h hend
  simp only [List.length_append] at hend
  rw [hsame, findFrom, if_neg (by omega), hturn,
    walkField_found hv.2.1 hcode h.right.left (by omega) hraw]
  rfl

/-- A field that the walk stops at, behind passable ones, ends it. -/
theorem findFrom_stopped (hfs : fs = pre ++ f :: post)
    (hv : ValidFields e p fs)
    (hpre : ∀ g ∈ pre, g.1 ≠ code ∧ passable e g.2 = true)
    (h : At raw p (marshalFields e p fs))
    (hend : p + (marshalFields e p fs).length = fieldsEnd)
    (hraw : raw.length < 2 ^ 62) (hfuel : fieldsEnd - p ≤ fuel)
    (hcode : f.1 ≠ code) (hs : stops f.2 = true) :
    findFrom raw e fieldsEnd code fuel p = .ok none := by
  obtain ⟨q, fuel', hlt, hsame, hturn⟩ :=
    findFrom_turn hfs hv hpre h hend hraw hfuel
  subst hfs
  rw [validFields_append, ValidFields] at hv
  rw [marshalFields_append, marshalFields] at h hend
  simp only [List.length_append] at hend
  rw [hsame, findFrom, if_neg (by omega), hturn,
    walkField_stop hv.2.1 hs hcode h.right.left (by omega) hraw]
  rfl

/-- Where all fields are passable and none has the code, nothing is
found. -/
theorem findFrom_absent (hv : ValidFields e p fs)
    (hall : ∀ g ∈ fs, g.1 ≠ code ∧ passable e g.2 = true)
    (h : At raw p (marshalFields e p fs))
    (hend : p + (marshalFields e p fs).length = fieldsEnd)
    (hraw : raw.length < 2 ^ 62) (hfuel : fieldsEnd - p ≤ fuel) :
    findFrom raw e fieldsEnd code fuel p = .ok none := by
  obtain ⟨q, fuel', hq, hfuel', hsame⟩ := findFrom_pass fs
    hv hall h (Nat.le_of_eq hend) hraw rfl hfuel
  have hle := h.le
  have hqup := le_alignUp isAlign_eight q
  have hup := le_alignUp isAlign_eight fieldsEnd
  have hmost : alignUp 8 fieldsEnd < fieldsEnd + 8 := by
    unfold alignUp
    omega
  rw [hend] at hq
  rw [hsame]
  by_cases hlt : q < fieldsEnd
  · obtain ⟨fuel', rfl⟩ := Nat.exists_eq_succ_of_ne_zero
      (show fuel' ≠ 0 by omega)
    rw [findFrom, if_neg (by omega), walkField_end (by omega) (by omega)]
    rfl
  · cases fuel' with
    | zero => rfl
    | succ fuel' => rw [findFrom, if_pos (by omega)]

end fields

/-- On plain fields the walk is `locate`. -/
theorem findFrom_fields {fs : List Field} {p fuel : Nat}
    (hv : ValidFields e p fs) (hp : Plain code fs)
    (h : At raw p (marshalFields e p fs))
    (hend : p + (marshalFields e p fs).length = fieldsEnd)
    (hraw : raw.length < 2 ^ 62) (hfuel : fieldsEnd - p ≤ fuel) :
    findFrom raw e fieldsEnd code fuel p
      = .ok ((locate code fs).map fun x =>
        locatedAt e p x.1 (code, x.2.1)) := by
  cases hl : locate code fs with
  | some x =>
      obtain ⟨pre, v, post⟩ := x
      obtain ⟨hfs, hpre⟩ := locate_eq_some hl
      exact findFrom_found hfs hv
        (fun g hg => ⟨hpre g hg, passable_of_skippable (locate_pre hl g hg)⟩)
        h hend hraw hfuel rfl
  | none =>
      rcases hp.locate_none hv hl with hall | ⟨pre, f, post, hfs, hpre, hf, hs⟩
      · exact findFrom_absent hv (fun g hg => ⟨(hall g hg).1,
          passable_of_skippable (hall g hg).2⟩) h hend hraw hfuel
      · exact findFrom_stopped hfs hv (fun g hg => ⟨(hpre g hg).1,
          passable_of_skippable (hpre g hg).2⟩) h hend hraw hfuel hf hs

end run

section layout

variable (e : Endian) {code : UInt8} {fixed padding body : Bytes}
  {fs pre post : List Field} {f : Field}

/-- The walk over a message whose array holds plain fields. -/
theorem findHeaderField_layout (hf : fixed.length = 12)
    (hv : ValidFields e 16 fs) (hp : Plain code fs)
    (hraw : (layout e fixed (marshalFields e 16 fs) padding body).length
      < 2 ^ 62) :
    findHeaderField (layout e fixed (marshalFields e 16 fs) padding body) e
        (16 + (marshalFields e 16 fs).length) code
      = .ok ((locate code fs).map fun x =>
          locatedAt e 16 x.1 (code, x.2.1)) :=
  findFrom_fields hv hp (layout_at_array e _ _ _ hf) rfl hraw
    (by unfold minHeaderSize; omega)

/-- And over one where passable fields stand before the wanted one. -/
theorem findHeaderField_found (hf : fixed.length = 12)
    (hfs : fs = pre ++ f :: post) (hv : ValidFields e 16 fs)
    (hpre : ∀ g ∈ pre, g.1 ≠ code ∧ passable e g.2 = true)
    (hcode : f.1 = code)
    (hraw : (layout e fixed (marshalFields e 16 fs) padding body).length
      < 2 ^ 62) :
    findHeaderField (layout e fixed (marshalFields e 16 fs) padding body) e
        (16 + (marshalFields e 16 fs).length) code
      = .ok (some (locatedAt e 16 pre f)) :=
  findFrom_found hfs hv hpre (layout_at_array e _ _ _ hf) rfl hraw
    (by unfold minHeaderSize; omega) hcode

/-- Or before one that it stops at. -/
theorem findHeaderField_stopped (hf : fixed.length = 12)
    (hfs : fs = pre ++ f :: post) (hv : ValidFields e 16 fs)
    (hpre : ∀ g ∈ pre, g.1 ≠ code ∧ passable e g.2 = true)
    (hcode : f.1 ≠ code) (hs : stops f.2 = true)
    (hraw : (layout e fixed (marshalFields e 16 fs) padding body).length
      < 2 ^ 62) :
    findHeaderField (layout e fixed (marshalFields e 16 fs) padding body) e
        (16 + (marshalFields e 16 fs).length) code
      = .ok none :=
  findFrom_stopped hfs hv hpre (layout_at_array e _ _ _ hf) rfl hraw
    (by unfold minHeaderSize; omega) hcode hs

end layout

end DbusRouter.Model
