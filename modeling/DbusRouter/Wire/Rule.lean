/-
The grammar of match rules.

A rule is a list of `key=value` pairs with commas between them, no key
twice. Between apostrophes every character of a value stands for itself, a
comma too; outside of them a comma ends the value, an apostrophe opens a
quotation and the two characters `\'` are an apostrophe. A backslash before
anything else is a backslash.

`Reads` has one rule for each of these; `readValue` is the scanner.
-/
import DbusRouter.Wire.Text

namespace DbusRouter.Wire

-- ===================================================================== values

/-- `raw` is written for `value`; the flag says whether an apostrophe is
open. -/
inductive Reads : Bool → Text → Text → Prop
  | done : Reads false [] []
  | opening {raw value : Text} (h : Reads true raw value) :
      Reads false ('\''.toUInt8 :: raw) value
  | closing {raw value : Text} (h : Reads false raw value) :
      Reads true ('\''.toUInt8 :: raw) value
  | quoted {b : UInt8} {raw value : Text} (hb : b ≠ '\''.toUInt8)
      (h : Reads true raw value) : Reads true (b :: raw) (b :: value)
  | escaped {raw value : Text} (h : Reads false raw value) :
      Reads false ('\\'.toUInt8 :: '\''.toUInt8 :: raw)
        ('\''.toUInt8 :: value)
  | plain {b : UInt8} {raw value : Text} (hb : b ≠ '\''.toUInt8)
      (hcomma : b ≠ ','.toUInt8)
      (hescape : b = '\\'.toUInt8 → raw.head? ≠ some '\''.toUInt8)
      (h : Reads false raw value) : Reads false (b :: raw) (b :: value)

/-- The value that is written, `none` where a comma ends it or an
apostrophe is missing. -/
def readValue : Bool → Text → Option Text
  | false, [] => some []
  | true, [] => none
  | true, b :: s =>
      if b = '\''.toUInt8 then readValue false s
      else (readValue true s).map (b :: ·)
  | false, [b] =>
      if b = '\''.toUInt8 ∨ b = ','.toUInt8 then none else some [b]
  | false, b :: c :: s =>
      if b = '\''.toUInt8 then readValue true (c :: s)
      else if b = ','.toUInt8 then none
      else if b = '\\'.toUInt8 ∧ c = '\''.toUInt8 then
        (readValue false s).map (c :: ·)
      else (readValue false (c :: s)).map (b :: ·)

/-- The reader of values reads what the grammar has. -/
theorem readValue_of_reads {quoted : Bool} {raw value : Text}
    (h : Reads quoted raw value) : readValue quoted raw = some value := by
  induction h with
  | done => rfl
  | @opening raw value _ ih =>
      cases raw with
      | nil => cases ih
      | cons c s =>
          rw [readValue, if_pos rfl, ih]
  | closing _ ih => rw [readValue, if_pos rfl, ih]
  | quoted hb _ ih =>
      rw [readValue, if_neg hb, ih]
      rfl
  | escaped _ ih =>
      rw [readValue, if_neg (by decide), if_neg (by decide),
        if_pos ⟨rfl, rfl⟩, ih]
      rfl
  | @plain b raw value hb hcomma hescape _ ih =>
      cases raw with
      | nil =>
          cases ih
          rw [readValue, if_neg (by simp only [hb, hcomma, or_self,
            not_false_eq_true])]
      | cons c s =>
          rw [readValue, if_neg hb, if_neg hcomma, if_neg, ih]
          · rfl
          · rintro ⟨hslash, rfl⟩
            exact hescape hslash rfl

/-- And nothing else. -/
theorem reads_of_readValue {quoted : Bool} {raw value : Text}
    (h : readValue quoted raw = some value) : Reads quoted raw value := by
  fun_induction readValue quoted raw generalizing value with
  | case1 =>
      cases h
      exact .done
  | case2 => cases h
  | case3 s ih => exact .closing (ih h)
  | case4 b s hb ih =>
      obtain ⟨rest, hrest, rfl⟩ := Option.map_eq_some_iff.mp h
      exact .quoted hb (ih hrest)
  | case5 => cases h
  | case6 b hb =>
      cases h
      rw [not_or] at hb
      exact .plain hb.1 hb.2 (fun _ => by simp) .done
  | case7 c s ih => exact .opening (ih h)
  | case8 => cases h
  | case9 b c s hb hcomma hslash ih =>
      obtain ⟨rest, hrest, rfl⟩ := Option.map_eq_some_iff.mp h
      obtain ⟨rfl, rfl⟩ := hslash
      exact .escaped (ih hrest)
  | case10 b c s hb hcomma hslash ih =>
      obtain ⟨rest, hrest, rfl⟩ := Option.map_eq_some_iff.mp h
      refine .plain hb hcomma ?_ (ih hrest)
      rintro hback hquote
      exact hslash ⟨hback, Option.some.inj hquote⟩

/-- The grammar of values is what the reader reads. -/
theorem reads_iff {quoted : Bool} {raw value : Text} :
    Reads quoted raw value ↔ readValue quoted raw = some value :=
  ⟨readValue_of_reads, reads_of_readValue⟩

instance (quoted : Bool) (raw value : Text) :
    Decidable (Reads quoted raw value) :=
  decidable_of_iff _ reads_iff.symm

section reads

variable {quoted : Bool} {raw value : Text}

/-- Only escapes take backslashes out. -/
theorem Reads.count_backslash (h : Reads quoted raw value) :
    raw.count '\\'.toUInt8
      = value.count '\\'.toUInt8 + value.count '\''.toUInt8 := by
  have hne : '\''.toUInt8 ≠ '\\'.toUInt8 := by decide
  induction h with
  | done => rfl
  | opening _ ih => rw [List.count_cons_of_ne hne, ih]
  | closing _ ih => rw [List.count_cons_of_ne hne, ih]
  | quoted hb _ ih =>
      rw [List.count_cons, List.count_cons, List.count_cons_of_ne hb, ih]
      omega
  | escaped _ ih =>
      rw [List.count_cons_self, List.count_cons_of_ne hne,
        List.count_cons_of_ne hne, List.count_cons_self, ih]
      omega
  | plain hb _ _ _ ih =>
      rw [List.count_cons, List.count_cons, List.count_cons_of_ne hb, ih]
      omega

/-- A value without apostrophes is what is written without the
apostrophes. -/
theorem Reads.eq_filter (h : Reads quoted raw value)
    (hno : '\''.toUInt8 ∉ value) :
    raw.filter (· != '\''.toUInt8) = value := by
  induction h with
  | done => rfl
  | opening _ ih => exact ih hno
  | closing _ ih => exact ih hno
  | quoted hb _ ih =>
      rw [List.mem_cons, not_or] at hno
      rw [List.filter_cons_of_pos (by simpa using hb), ih hno.2]
  | escaped => exact absurd (List.mem_cons_self ..) hno
  | plain hb _ _ _ ih =>
      rw [List.mem_cons, not_or] at hno
      rw [List.filter_cons_of_pos (by simpa using hb), ih hno.2]

/-- Commas are kept. -/
theorem Reads.comma_mem (h : Reads quoted raw value)
    (hmem : ','.toUInt8 ∈ raw) : ','.toUInt8 ∈ value := by
  induction h with
  | done => exact hmem
  | opening _ ih =>
      exact ih ((List.mem_cons.mp hmem).resolve_left (by decide))
  | closing _ ih =>
      exact ih ((List.mem_cons.mp hmem).resolve_left (by decide))
  | quoted _ _ ih =>
      rw [List.mem_cons] at hmem ⊢
      exact hmem.imp_right ih
  | escaped _ ih =>
      have hrest := (List.mem_cons.mp hmem).resolve_left (by decide)
      exact List.mem_cons_of_mem _
        (ih ((List.mem_cons.mp hrest).resolve_left (by decide)))
  | plain _ _ _ _ ih =>
      rw [List.mem_cons] at hmem ⊢
      exact hmem.imp_right ih

/-- What may follow a value: nothing, or a comma. -/
def EndsValue (s : Text) : Prop := ∀ b ∈ s.head?, b = ','.toUInt8

/-- A value that ends where a quote stands begins with that quote. -/
theorem head?_of_append {t s : Text} (ht : EndsValue t)
    (heq : raw ++ t = '\''.toUInt8 :: s) :
    raw.head? = some '\''.toUInt8 := by
  cases raw with
  | nil =>
      obtain rfl : t = '\''.toUInt8 :: s := heq
      exact absurd (ht _ rfl) (by decide)
  | cons b raw => rw [List.head?_cons, (List.cons.inj heq).1]

/-- How far a value goes, and what it is, is determined by the text. -/
theorem Reads.unique {raw' value' t t' : Text} (h : Reads quoted raw value)
    (h' : Reads quoted raw' value') (ht : EndsValue t) (ht' : EndsValue t')
    (heq : raw ++ t = raw' ++ t') : raw = raw' ∧ value = value' := by
  induction h generalizing raw' value' with
  | done =>
      obtain rfl : t = raw' ++ t' := heq
      cases h' with
      | done => exact ⟨rfl, rfl⟩
      | opening => exact absurd (ht _ rfl) (by decide)
      | escaped => exact absurd (ht _ rfl) (by decide)
      | plain _ hcomma => exact absurd (ht _ rfl) hcomma
  | @opening raw value _ ih =>
      cases h' with
      | done =>
          obtain rfl : t' = '\''.toUInt8 :: raw ++ t := heq.symm
          exact absurd (ht' _ rfl) (by decide)
      | opening h' =>
          obtain ⟨rfl, rfl⟩ := ih h' (List.cons.inj heq).2
          exact ⟨rfl, rfl⟩
      | escaped => exact absurd (List.cons.inj heq).1 (by decide)
      | plain hb => exact absurd (List.cons.inj heq).1.symm hb
  | closing _ ih =>
      cases h' with
      | closing h' =>
          obtain ⟨rfl, rfl⟩ := ih h' (List.cons.inj heq).2
          exact ⟨rfl, rfl⟩
      | quoted hb => exact absurd (List.cons.inj heq).1.symm hb
  | quoted hb _ ih =>
      cases h' with
      | closing => exact absurd (List.cons.inj heq).1 hb
      | quoted _ h' =>
          obtain ⟨rfl, hrest⟩ := List.cons.inj heq
          obtain ⟨rfl, rfl⟩ := ih h' hrest
          exact ⟨rfl, rfl⟩
  | @escaped raw value _ ih =>
      cases h' with
      | done =>
          obtain rfl : t' = '\\'.toUInt8 :: '\''.toUInt8 :: raw ++ t :=
            heq.symm
          exact absurd (ht' _ rfl) (by decide)
      | opening => exact absurd (List.cons.inj heq).1 (by decide)
      | escaped h' =>
          obtain ⟨rfl, rfl⟩ :=
            ih h' (List.cons.inj (List.cons.inj heq).2).2
          exact ⟨rfl, rfl⟩
      | @plain b raw' value' _ _ hescape =>
          obtain ⟨hslash, hrest⟩ := List.cons.inj heq
          exact absurd (head?_of_append ht' hrest.symm)
            (hescape hslash.symm)
  | @plain b raw value hb hcomma hescape _ ih =>
      cases h' with
      | done =>
          obtain rfl : t' = b :: raw ++ t := heq.symm
          exact absurd (ht' _ rfl) hcomma
      | opening => exact absurd (List.cons.inj heq).1 hb
      | escaped =>
          obtain ⟨hslash, hrest⟩ := List.cons.inj heq
          exact absurd (head?_of_append ht hrest) (hescape hslash)
      | plain _ _ _ h' =>
          obtain ⟨rfl, hrest⟩ := List.cons.inj heq
          obtain ⟨rfl, rfl⟩ := ih h' hrest
          exact ⟨rfl, rfl⟩

end reads

-- ====================================================================== rules

/-- A character of a key. -/
def isKeyChar (b : UInt8) : Bool :=
  ('a'.toUInt8 ≤ b && b ≤ 'z'.toUInt8) || ('A'.toUInt8 ≤ b && b ≤ 'Z'.toUInt8)
    || ('0'.toUInt8 ≤ b && b ≤ '9'.toUInt8) || b == '_'.toUInt8

/-- A pair of a rule. -/
@[ext]
structure RuleEntry where
  key : Text
  raw : Text
  value : Text
  key_ne : key ≠ []
  key_plain : ∀ b ∈ key, isKeyChar b = true
  reads : Reads false raw value

def RuleEntry.text (e : RuleEntry) : Text := e.key ++ '='.toUInt8 :: e.raw

/-- Pairs with commas between them. -/
def entriesText (entries : List RuleEntry) : Text :=
  [','.toUInt8].intercalate (entries.map RuleEntry.text)

/-- A match rule. -/
@[ext]
structure MatchRule where
  entries : List RuleEntry
  distinct : (entries.map RuleEntry.key).Nodup

def MatchRule.text (rule : MatchRule) : Text := entriesText rule.entries

/-- The value of a key. -/
def MatchRule.value? (rule : MatchRule) (key : Text) : Option Text :=
  (rule.entries.find? (·.key == key)).map RuleEntry.value

/-- What follows a pair. -/
def following : List RuleEntry → Text
  | [] => []
  | e :: entries => ','.toUInt8 :: entriesText (e :: entries)

/-- Entries are written one behind the other. -/
theorem entriesText_cons (e : RuleEntry) (entries : List RuleEntry) :
    entriesText (e :: entries) = e.text ++ following entries := by
  cases entries with
  | nil =>
      show [','.toUInt8].intercalate [e.text] = e.text ++ []
      simp [List.intercalate]
  | cons e' entries =>
      show [','.toUInt8].intercalate
          (e.text :: e'.text :: entries.map RuleEntry.text) = _
      simp [List.intercalate, following, entriesText]

/-- What follows an entry ends its value. -/
theorem endsValue_following (entries : List RuleEntry) :
    EndsValue (following entries) := by
  cases entries with
  | nil =>
      intro b hb
      cases hb
  | cons e entries =>
      intro b hb
      exact (Option.some.inj hb).symm

/-- The text behind an entry determines the text of the entries behind it. -/
theorem following_injective {entries entries' : List RuleEntry}
    (h : following entries = following entries') :
    entriesText entries = entriesText entries' := by
  cases entries <;> cases entries'
  · rfl
  · cases h
  · cases h
  · exact (List.cons.inj h).2

/-- A key has no equals sign. -/
theorem RuleEntry.key_no_equals (e : RuleEntry) :
    '='.toUInt8 ∉ e.key := by
  intro h
  exact absurd (e.key_plain _ h) (by decide)

/-- A text is written for one list of pairs only. -/
theorem entriesText_injective {entries entries' : List RuleEntry}
    (h : entriesText entries = entriesText entries') :
    entries = entries' := by
  induction entries generalizing entries' with
  | nil =>
      cases entries' with
      | nil => rfl
      | cons e entries =>
          rw [entriesText_cons, RuleEntry.text, List.append_assoc,
            List.cons_append] at h
          have hmem : '='.toUInt8 ∈ entriesText [] := by
            rw [h]
            simp
          cases hmem
  | cons e entries ih =>
      rw [entriesText_cons, RuleEntry.text, List.append_assoc,
        List.cons_append] at h
      cases entries' with
      | nil =>
          have hmem : '='.toUInt8 ∈ entriesText [] := by
            rw [← h]
            simp
          cases hmem
      | cons e' entries' =>
          rw [entriesText_cons, RuleEntry.text, List.append_assoc,
            List.cons_append] at h
          have hsplit := congrArg (splitOnce '='.toUInt8) h
          rw [splitOnce_append _ e.key_no_equals,
            splitOnce_append _ e'.key_no_equals] at hsplit
          obtain ⟨hkey, hrest⟩ := Prod.mk.inj (Option.some.inj hsplit)
          obtain ⟨hraw, hvalue⟩ := e.reads.unique e'.reads
            (endsValue_following _) (endsValue_following _) hrest
          obtain rfl : e = e' := RuleEntry.ext hkey hraw hvalue
          rw [ih (following_injective (List.append_cancel_left hrest))]

/-- A text is a match rule in one way only. -/
theorem MatchRule.text_injective {rule rule' : MatchRule}
    (h : rule.text = rule'.text) : rule = rule' :=
  MatchRule.ext (entriesText_injective h)

end DbusRouter.Wire
