/-
Match rules read against their grammar.

The router cuts a rule at every comma; the grammar has commas inside
apostrophes too. So a value with such a comma is cut in pieces, and a piece
in it that begins with `sender=` is taken for a sender of the rule
(`writtenFor_entries`). What is left of a key's own value is trimmed of
apostrophes at its ends and of white space behind, and nothing is done about
those in the middle or about escapes. `rules_read_as_written` says which
rules are read as the grammar has them all the same.
-/
import DbusRouter.Wire.Rule
import DbusRouter.Proofs.Rules

namespace DbusRouter.Model

open Wire

-- ================================================================== the pieces

/-- What the router sees of a value: up to the first comma in it. -/
def firstPiece (raw : Text) : Text := (splitOn ','.toUInt8 raw).headD []

/-- The pieces behind a comma in the value. -/
def innerPieces (raw : Text) : List Text := (splitOn ','.toUInt8 raw).tail

/-- What pieces of a rule are read to say of a key. -/
def namedIn (key : Text) (pieces : List Text) : List Text :=
  pieces.filterMap fun piece =>
    (splitOnce '='.toUInt8 (trim piece)).bind (valueFor key)

/-- What is read of a key inside the values of pairs. -/
def namedInside (key : Text) (entries : List RuleEntry) : List Text :=
  entries.flatMap fun e => namedIn key (innerPieces e.raw)

/-- The pieces of a rule are the first and those behind the commas. -/
theorem splitOn_pieces (raw : Text) :
    splitOn ','.toUInt8 raw = firstPiece raw :: innerPieces raw := by
  unfold firstPiece innerPieces
  cases hs : splitOn ','.toUInt8 raw with
  | nil => exact absurd (splitOn_eq _ raw ▸ hs) (List.splitOn_ne_nil _ raw)
  | cons piece pieces => rfl

/-- A text without a comma is its own first piece. -/
theorem firstPiece_of_no_comma {raw : Text} (h : ','.toUInt8 ∉ raw) :
    firstPiece raw = raw := by
  obtain ⟨piece, pieces, hnil, hraw⟩ := splitOn_append h []
  obtain ⟨rfl, -⟩ := List.cons.inj hnil
  rw [List.append_nil] at hraw
  unfold firstPiece
  rw [hraw]
  rfl

/-- No piece has a comma in it. -/
theorem comma_not_mem_firstPiece (raw : Text) :
    ','.toUInt8 ∉ firstPiece raw :=
  not_mem_of_splitOn (splitOn_pieces raw ▸ List.mem_cons_self ..)

/-- The values of a key are those of the pieces that name it. -/
theorem writtenFor_eq (key rule : Text) :
    writtenFor key rule = namedIn key (splitOn ','.toUInt8 rule) := by
  unfold writtenFor rulePairs namedIn
  rw [List.filterMap_filterMap]

/-- A character of a key begins no white space. -/
theorem whiteSpace_not_key : ∀ w ∈ whiteSpace, w ≠ []
    ∧ ∀ b ∈ w.head?, isKeyChar b = false := by decide +kernel

section entry

variable (e : RuleEntry)

/-- A piece is cut at the first sign of equality, behind the key. -/
theorem splitOnce_trim_entry (piece : Text) :
    splitOnce '='.toUInt8 (trim (e.key ++ '='.toUInt8 :: piece))
      = some (e.key, trimEnd piece) := by
  have hplain : PlainChar '='.toUInt8 := by decide
  have hfront (fuel : Nat) : dropPieces whiteSpace fuel
      (e.key ++ '='.toUInt8 :: piece) = e.key ++ '='.toUInt8 :: piece := by
    refine dropPieces_of_none fuel ?_
    rintro w hw hprefix
    obtain ⟨hne, hhead⟩ := whiteSpace_not_key w hw
    obtain ⟨b, key, hkey⟩ := List.exists_cons_of_ne_nil e.key_ne
    obtain ⟨c, w, rfl⟩ := List.exists_cons_of_ne_nil hne
    rw [hkey, List.cons_append] at hprefix
    have hb : isKeyChar b = true := e.key_plain b (by rw [hkey]; simp)
    have hc := hhead c rfl
    rw [(List.cons_prefix_cons.mp hprefix).1, hb] at hc
    cases hc
  have htrim : trim (e.key ++ '='.toUInt8 :: piece)
      = trimEnd (dropPieces whiteSpace _ (e.key ++ '='.toUInt8 :: piece)) :=
    rfl
  rw [htrim, hfront, trimEnd_append hplain,
    splitOnce_append _ e.key_no_equals]

/-- A key has no comma in it. -/
theorem comma_not_mem_key : ','.toUInt8 ∉ e.key ++ ['='.toUInt8] := by
  rw [List.mem_append, not_or]
  refine ⟨fun h => ?_, by decide⟩
  exact absurd (e.key_plain _ h) (by decide)

/-- The pieces of a pair: its own, and those inside its value. -/
theorem splitOn_entry_text : splitOn ','.toUInt8 e.text
    = (e.key ++ '='.toUInt8 :: firstPiece e.raw) :: innerPieces e.raw := by
  obtain ⟨piece, pieces, hraw, htext⟩ :=
    splitOn_append (comma_not_mem_key e) e.raw
  rw [splitOn_pieces] at hraw
  obtain ⟨rfl, rfl⟩ := List.cons.inj hraw
  rw [List.append_assoc, List.append_assoc] at htext
  exact htext

/-- What is read of a key in a pair. -/
theorem namedIn_entry_text (key : Text) :
    namedIn key (splitOn ','.toUInt8 e.text)
      = (if e.key = key then [trimEnd (firstPiece e.raw)] else [])
        ++ namedIn key (innerPieces e.raw) := by
  rw [splitOn_entry_text]
  unfold namedIn
  rw [List.filterMap_cons, splitOnce_trim_entry, Option.bind_some, valueFor]
  split
  next h =>
    split at h
    next => cases h
    next hkey => rw [if_neg hkey, List.nil_append]
  next h =>
    split at h
    next hkey =>
      cases h
      rw [if_pos hkey, List.singleton_append]
    next => cases h

end entry

/-- What is read of a key in a rule. -/
theorem writtenFor_entries (key : Text) (entries : List RuleEntry) :
    writtenFor key (entriesText entries)
      = entries.flatMap fun e =>
        (if e.key = key then [trimEnd (firstPiece e.raw)] else [])
          ++ namedIn key (innerPieces e.raw) := by
  rw [writtenFor_eq]
  induction entries with
  | nil => rfl
  | cons e entries ih =>
      rw [entriesText_cons, List.flatMap_cons, ← namedIn_entry_text, ← ih]
      cases entries with
      | nil =>
          rw [following, List.append_nil]
          exact (List.append_nil _).symm
      | cons e' entries =>
          rw [following, splitOn_append_cons]
          exact List.filterMap_append

-- ================================================================ a key's value

/-- The value has no comma and no apostrophe, and is written with
apostrophes at its ends alone and no white space behind. -/
structure EndsQuoted (e : RuleEntry) : Prop where
  comma : ','.toUInt8 ∉ e.value
  apostrophe : '\''.toUInt8 ∉ e.value
  ends : '\''.toUInt8 ∉ trimMatches '\''.toUInt8 e.raw
  trimmed : trimEnd e.raw = e.raw

/-- The same with one apostrophe at each end, or none. -/
structure SimplyQuoted (e : RuleEntry) : Prop where
  comma : ','.toUInt8 ∉ e.value
  apostrophe : '\''.toUInt8 ∉ e.value
  ends : e.raw = e.value ∨ e.raw = utf8 "'" ++ e.value ++ utf8 "'"
  trimmed : trimEnd e.raw = e.raw

/-- Where there is no quote none is left out. -/
theorem filter_eq_self_of_not_mem {s : Text} (h : '\''.toUInt8 ∉ s) :
    s.filter (· != '\''.toUInt8) = s := by
  rw [List.filter_eq_self]
  rintro b hb
  have hne : b ≠ '\''.toUInt8 := fun heq => h (heq ▸ hb)
  simpa using hne

/-- Trimming takes nothing but quotes. -/
theorem filter_unquoted (value : Text) :
    (unquoted value).filter (· != '\''.toUInt8)
      = value.filter (· != '\''.toUInt8) := by
  have hquote : (utf8 "'").filter (· != '\''.toUInt8) = [] := by decide
  rcases unquoted_cases value with ⟨h, -⟩ | h
  · rw [h]
  · conv_rhs => rw [h]
    rw [List.filter_append, List.filter_append, hquote, List.append_nil,
      List.nil_append]

/-- Leaving quotes out keeps every backslash. -/
theorem count_filter (s : Text) :
    (s.filter (· != '\''.toUInt8)).count '\\'.toUInt8
      = s.count '\\'.toUInt8 :=
  List.count_filter (by decide)

/-- A reading that keeps all but apostrophes at the ends: when it gives the
value of the pair, nothing but these was there to be lost. -/
theorem read_exact (e : RuleEntry) {read : Text → Text}
    (hsubset : ∀ s, read s ⊆ s)
    (hfilter : ∀ s, (read s).filter (· != '\''.toUInt8)
      = s.filter (· != '\''.toUInt8))
    (h : read (trimEnd (firstPiece e.raw)) = e.value) :
    ','.toUInt8 ∉ e.value ∧ '\''.toUInt8 ∉ e.value
      ∧ trimEnd e.raw = e.raw ∧ firstPiece e.raw = e.raw := by
  obtain ⟨removed, hremoved, hwhite⟩ := trimEnd_split (firstPiece e.raw)
  have hcomma : ','.toUInt8 ∉ e.value := by
    intro hmem
    rw [← h] at hmem
    refine comma_not_mem_firstPiece e.raw ?_
    rw [hremoved]
    exact List.mem_append_left _ (hsubset _ hmem)
  have hfirst : firstPiece e.raw = e.raw :=
    firstPiece_of_no_comma fun hmem => hcomma (e.reads.comma_mem hmem)
  rw [hfirst] at h hremoved
  -- no escape: each would have taken a backslash out
  have happostrophe : '\''.toUInt8 ∉ e.value := by
    have hnone : removed.count '\\'.toUInt8 = 0 :=
      List.count_eq_zero_of_not_mem fun hmem => hwhite _ hmem (by decide)
    have hread : (read (trimEnd e.raw)).count '\\'.toUInt8
        = (trimEnd e.raw).count '\\'.toUInt8 := by
      rw [← count_filter, hfilter, count_filter]
    have hcount := e.reads.count_backslash
    rw [hremoved, List.count_append, hnone, ← hread, h] at hcount
    exact List.count_eq_zero.mp (by omega)
  have htrimmed : trimEnd e.raw = e.raw := by
    have hvalue := e.reads.eq_filter happostrophe
    have hread := hfilter (trimEnd e.raw)
    rw [h, filter_eq_self_of_not_mem happostrophe, ← hvalue] at hread
    conv at hread => lhs; rw [hremoved]
    rw [List.filter_append, List.append_right_eq_self] at hread
    have hnil : removed = [] := by
      rw [← filter_eq_self_of_not_mem (s := removed)
        fun hmem => hwhite _ hmem (by decide)]
      exact hread
    rw [hnil, List.append_nil] at hremoved
    exact hremoved.symm
  exact ⟨hcomma, happostrophe, htrimmed, hfirst⟩

/-- The last value is right exactly when it is quoted at its ends. -/
theorem trimMatches_read_iff (e : RuleEntry) :
    trimMatches '\''.toUInt8 (trimEnd (firstPiece e.raw)) = e.value
      ↔ EndsQuoted e := by
  constructor
  · intro h
    obtain ⟨hcomma, happostrophe, htrimmed, hfirst⟩ :=
      read_exact e (trimMatches_subset _) (filter_trimMatches _) h
    rw [hfirst, htrimmed] at h
    exact ⟨hcomma, happostrophe, by rwa [h], htrimmed⟩
  · intro h
    rw [firstPiece_of_no_comma fun hmem => h.comma (e.reads.comma_mem hmem),
      h.trimmed, ← filter_eq_self_of_not_mem h.ends, filter_trimMatches]
    exact e.reads.eq_filter h.apostrophe

/-- The first value is right exactly when it is quoted once or not at
all. -/
theorem unquoted_read_iff (e : RuleEntry) :
    unquoted (trimEnd (firstPiece e.raw)) = e.value
      ↔ SimplyQuoted e := by
  constructor
  · intro h
    obtain ⟨hcomma, happostrophe, htrimmed, hfirst⟩ :=
      read_exact e unquoted_subset filter_unquoted h
    rw [hfirst, htrimmed] at h
    refine ⟨hcomma, happostrophe, ?_, htrimmed⟩
    rcases unquoted_cases e.raw with ⟨hraw, -⟩ | hraw
    · exact .inl (hraw.symm.trans h)
    · rw [h] at hraw
      exact .inr hraw
  · intro h
    rw [firstPiece_of_no_comma fun hmem => h.comma (e.reads.comma_mem hmem),
      h.trimmed]
    rcases unquoted_cases e.raw with ⟨hraw, hno⟩ | hraw
    · exact hraw.trans (h.ends.resolve_right (hno _))
    · rcases h.ends with hends | hends
      · rw [hends] at hraw
        refine absurd ?_ h.apostrophe
        rw [hraw]
        exact List.mem_append_right _ (List.mem_singleton_self _)
      · conv at hraw => lhs; rw [hends]
        exact (List.append_cancel_left (List.append_cancel_right hraw)).symm

-- ====================================================================== a rule

/-- The key's pair and those behind it. -/
def entriesFrom (rule : MatchRule) (key : Text) : List RuleEntry :=
  rule.entries.dropWhile (·.key != key)

/-- The pairs before the key's. -/
def entriesBefore (rule : MatchRule) (key : Text) : List RuleEntry :=
  rule.entries.takeWhile (·.key != key)

/-- The last value read for the key is right: a key that the rule has not is
named inside no value; one that it has is quoted at its ends and named
inside no value from there on, or last named there with the same value. -/
def LastRight (rule : MatchRule) (key : Text) : Prop :=
  match rule.entries.find? (·.key == key) with
  | none => namedInside key rule.entries = []
  | some e =>
      match (namedInside key (entriesFrom rule key)).getLast? with
      | none => EndsQuoted e
      | some value => trimMatches '\''.toUInt8 value = e.value

/-- The first value read for the key is right: as for the last, with the
values before the key's pair. -/
def FirstRight (rule : MatchRule) (key : Text) : Prop :=
  match rule.entries.find? (·.key == key) with
  | none => namedInside key rule.entries = []
  | some e =>
      match (namedInside key (entriesBefore rule key)).head? with
      | none => SimplyQuoted e
      | some value => unquoted value = e.value

/-- What is read of a key that no pair has. -/
theorem flatMap_absent {key : Text} {entries : List RuleEntry}
    (h : ∀ e ∈ entries, e.key ≠ key) :
    (entries.flatMap fun e =>
        (if e.key = key then [trimEnd (firstPiece e.raw)] else [])
          ++ namedIn key (innerPieces e.raw))
      = namedInside key entries := by
  unfold namedInside
  refine List.flatMap_congr fun e he => ?_
  rw [if_neg (h e he), List.nil_append]

/-- A key that no entry has is only found inside the values. -/
theorem writtenFor_absent {rule : MatchRule} {key : Text}
    (h : rule.entries.find? (·.key == key) = none) :
    writtenFor key rule.text = namedInside key rule.entries := by
  rw [List.find?_eq_none] at h
  unfold MatchRule.text
  rw [writtenFor_entries]
  exact flatMap_absent fun e he => by simpa using h e he

/-- What is read of a key that a pair has: what stands for it inside the
values before, its own value, and what stands inside the values from there
on. -/
theorem writtenFor_present {rule : MatchRule} {key : Text} {e : RuleEntry}
    (h : rule.entries.find? (·.key == key) = some e) :
    writtenFor key rule.text
      = namedInside key (entriesBefore rule key)
        ++ trimEnd (firstPiece e.raw)
          :: namedInside key (entriesFrom rule key) := by
  obtain ⟨hkey, before, after, hentries, hbefore⟩ :=
    List.find?_eq_some_iff_append.mp h
  have hkey : e.key = key := by simpa using hkey
  have hdistinct := rule.distinct
  rw [hentries, List.map_append, List.map_cons] at hdistinct
  have hafter : ∀ e' ∈ after, e'.key ≠ key := by
    intro e' he' hsame
    have hbehind := (List.nodup_append.mp hdistinct).2.1
    have hnotin := (List.nodup_cons.mp hbehind).1
    refine hnotin ?_
    rw [hkey, ← hsame]
    exact List.mem_map_of_mem he'
  have hne : (e.key != key) = false := by simp [hkey]
  have hpass : ∀ e' ∈ before, (e'.key != key) = true := hbefore
  unfold entriesBefore entriesFrom MatchRule.text
  rw [hentries, List.takeWhile_append_of_pos hpass,
    List.dropWhile_append_of_pos hpass, List.takeWhile_cons,
    List.dropWhile_cons, hne, writtenFor_entries, List.flatMap_append,
    List.flatMap_cons, flatMap_absent hafter, flatMap_absent, if_pos hkey]
  · unfold namedInside
    simp
  · intro e' he'
    simpa using hpass e' he'

/-- Which rules have the last value of a key read right. -/
theorem ruleValue_right_iff (rule : MatchRule) (key : Text) :
    ruleValue key rule.text = rule.value? key ↔ LastRight rule key := by
  unfold ruleValue LastRight MatchRule.value?
  cases h : rule.entries.find? (·.key == key) with
  | none =>
      rw [writtenFor_absent h]
      simp
  | some e =>
      rw [writtenFor_present h, List.getLast?_append, List.getLast?_cons]
      cases (namedInside key (entriesFrom rule key)).getLast? with
      | none =>
          dsimp only
          rw [← trimMatches_read_iff]
          simp
      | some value => simp

/-- Which rules have the first value of a key read right. -/
theorem firstValue_right_iff (rule : MatchRule) (key : Text) :
    (writtenFor key rule.text).head?.map unquoted = rule.value? key
      ↔ FirstRight rule key := by
  unfold FirstRight MatchRule.value?
  cases h : rule.entries.find? (·.key == key) with
  | none =>
      rw [writtenFor_absent h]
      simp
  | some e =>
      rw [writtenFor_present h, List.head?_append]
      cases (namedInside key (entriesBefore rule key)).head? with
      | none =>
          dsimp only
          rw [← unquoted_read_iff]
          simp
      | some value => simp

/-- A value in one pair of apostrophes, with no comma and no apostrophe in
it. -/
structure PlainlyQuoted (e : RuleEntry) : Prop where
  comma : ','.toUInt8 ∉ e.value
  apostrophe : '\''.toUInt8 ∉ e.value
  raw : e.raw = utf8 "'" ++ e.value ++ utf8 "'"

/-- Plain quoting is one of the simple ones. -/
theorem PlainlyQuoted.simply {e : RuleEntry} (h : PlainlyQuoted e) :
    SimplyQuoted e := by
  refine ⟨h.comma, h.apostrophe, .inr h.raw, ?_⟩
  have hplain : PlainChar '\''.toUInt8 := by decide
  have hend := trimEnd_append hplain (utf8 "'" ++ e.value) []
  rw [h.raw]
  exact hend

/-- A plainly quoted value ends with a quote. -/
theorem PlainlyQuoted.endsQuoted {e : RuleEntry} (h : PlainlyQuoted e) :
    EndsQuoted e := by
  refine ⟨h.comma, h.apostrophe, ?_, h.simply.trimmed⟩
  have hraw : e.raw = '\''.toUInt8 :: (e.value ++ ['\''.toUInt8]) := h.raw
  rw [hraw, trimMatches_quoted h.apostrophe]
  exact h.apostrophe

/-- Without a comma in a value nothing is read inside it. -/
theorem namedInside_eq_nil {key : Text} {entries : List RuleEntry}
    (h : ∀ e ∈ entries, ','.toUInt8 ∉ e.value) :
    namedInside key entries = [] := by
  unfold namedInside
  rw [List.flatMap_eq_nil_iff]
  intro e he
  have hno : ','.toUInt8 ∉ e.raw := fun hmem =>
    h e he (e.reads.comma_mem hmem)
  obtain ⟨piece, pieces, hnil, hraw⟩ := splitOn_append hno []
  obtain ⟨-, rfl⟩ := List.cons.inj hnil
  rw [List.append_nil] at hraw
  unfold innerPieces
  rw [hraw]
  rfl

/-- A rule of plainly quoted values is read right, for every key. -/
theorem plain_rule_right {rule : MatchRule}
    (h : ∀ e ∈ rule.entries, PlainlyQuoted e) (key : Text) :
    LastRight rule key ∧ FirstRight rule key := by
  have hnone (entries : List RuleEntry) (hsub : entries ⊆ rule.entries) :
      namedInside key entries = [] :=
    namedInside_eq_nil fun e he => (h e (hsub he)).comma
  have hbehind := hnone (entriesFrom rule key)
    (List.dropWhile_suffix _).subset
  have hbefore := hnone (entriesBefore rule key)
    ( List.takeWhile_prefix _).subset
  unfold LastRight FirstRight
  rw [hbehind, hbefore]
  cases hfind : rule.entries.find? (·.key == key) with
  | none => exact ⟨hnone _ (List.Subset.refl _), hnone _ (List.Subset.refl _)⟩
  | some e =>
      have he := h e (List.mem_of_find?_eq_some hfind)
      exact ⟨he.endsQuoted, he.simply⟩

/-- The router reads a match rule as the grammar has it exactly when, of the
sender and the interface, the last value it comes by is right, and of the
sender the first one too. -/
theorem rules_read_as_written (rule : MatchRule) :
    (parseMatchRule rule.text
        = ⟨rule.value? (utf8 "sender"), rule.value? (utf8 "interface")⟩
      ∧ parseMatchRuleSender rule.text = rule.value? (utf8 "sender"))
      ↔ LastRight rule (utf8 "sender") ∧ LastRight rule (utf8 "interface")
        ∧ FirstRight rule (utf8 "sender") := by
  rw [parseMatchRule_eq, MatchRuleInfo.mk.injEq, parseMatchRuleSender_eq,
    ruleValue_right_iff, ruleValue_right_iff, firstValue_right_iff, and_assoc]

/-- Signals whose first argument is `x,sender=:h.1.5`. -/
def commaInArg : MatchRule where
  entries := [
    ⟨utf8 "type", utf8 "'signal'", utf8 "signal", by decide,
      by decide +kernel, by decide +kernel⟩,
    ⟨utf8 "arg0", utf8 "'x,sender=:h.1.5'", utf8 "x,sender=:h.1.5",
      by decide, by decide +kernel, by decide +kernel⟩]
  distinct := by decide

/-- The argument is taken for a sender, which the rule has not. -/
theorem commaInArg_misread :
    commaInArg.text = utf8 "type='signal',arg0='x,sender=:h.1.5'"
    ∧ commaInArg.value? (utf8 "sender") = none
    ∧ (parseMatchRule commaInArg.text).sender = some (utf8 ":h.1.5")
    ∧ ¬(parseMatchRule commaInArg.text
          = ⟨commaInArg.value? (utf8 "sender"),
            commaInArg.value? (utf8 "interface")⟩
        ∧ parseMatchRuleSender commaInArg.text
          = commaInArg.value? (utf8 "sender")) := by
  decide +kernel

end DbusRouter.Model
