/-
Match rules whose sender is translated.

Routing reads the last sender of a rule, whatever quotes stand around it.
The rewriter reads the first, and replaces it wherever it stands in quotes
behind the text `sender=`. The bus receives the rule that was meant exactly
when both find the same name, the last sender is written in quotes and the
text that is replaced stands nowhere in what else is read
(`rule_translated`).
-/
import DbusRouter.Wire.Replace
import DbusRouter.Proofs.Rules
import DbusRouter.Proofs.Owner

namespace DbusRouter.Model

open Wire Lib

-- ========================================================== the text replaced

/-- The text in which a sender is replaced. -/
def senderText (sender : Text) : Text :=
  utf8 "sender='" ++ sender ++ utf8 "'"

/-- A pair as it is written. -/
def pairText (key value : Text) : Text := key ++ '='.toUInt8 :: value

/-- The text that is replaced starts with a letter of its own. -/
theorem senderText_cons (x : Text) : senderText x
    = 's'.toUInt8 :: (utf8 "ender='" ++ x ++ utf8 "'") := rfl

/-- It is the key, the sign and the quoted name. -/
theorem senderText_key (x : Text) : senderText x
    = utf8 "sender" ++ '='.toUInt8 :: (utf8 "'" ++ x ++ utf8 "'") := rfl

/-- The text that is replaced is not empty. -/
theorem senderText_ne (x : Text) : senderText x ≠ [] :=
  List.cons_ne_nil _ _

/-- No white space has a letter of it in it. -/
theorem whiteSpace_no_sender : ∀ w ∈ whiteSpace,
    's'.toUInt8 ∉ w ∧ '\''.toUInt8 ∉ w := by decide

/-- It has a comma only if the name has one. -/
theorem comma_not_mem_senderText {x : Text} (h : ','.toUInt8 ∉ x) :
    ','.toUInt8 ∉ senderText x := by
  have hfront : ','.toUInt8 ∉ utf8 "sender='" := by decide
  have hback : ','.toUInt8 ∉ utf8 "'" := by decide
  simp only [senderText, List.mem_append, not_or]
  exact ⟨⟨hfront, h⟩, hback⟩

-- ============================================================ pair by pair

section pairs

variable {x u r r' : Text}

/-- What is left of a value: the sender of the pair is replaced. -/
abbrev ValueReplaced (x u key value value' : Text) : Prop :=
  Replaced (senderText x) (senderText u) (pairText key value)
    (pairText key value')

/-- The keys stay, and the values are those of the replaced pairs. -/
theorem rulePairs_replaced (hx : ','.toUInt8 ∉ x) (hu : ','.toUInt8 ∉ u)
    (h : Replaced (senderText x) (senderText u) r r') :
    List.Forall₂ (fun pair pair' => pair'.1 = pair.1
        ∧ ValueReplaced x u pair.1 pair.2 pair'.2)
      (rulePairs r) (rulePairs r') := by
  have hparts := h.splitOn (comma_not_mem_senderText hx)
    (comma_not_mem_senderText hu)
  refine List.rel_filterMap ?_ hparts
  intro part part' hpart
  dsimp only
  have htrim : Replaced (senderText x) (senderText u) (trim part)
      (trim part') :=
    Replaced.trim (senderText_cons x).symm (senderText_cons u).symm
      (fun w hw => (whiteSpace_no_sender w hw).1)
      (fun w hw => (whiteSpace_no_sender w hw).2) hpart
  have hkey : '='.toUInt8 ∉ utf8 "sender" := by decide
  have hkeys := Replaced.splitOnce hkey htrim
  cases hs : splitOnce '='.toUInt8 (trim part) with
  | none =>
      rw [hs, Option.map_none, Option.map_eq_none_iff] at hkeys
      rw [hkeys]
      exact .none
  | some pair =>
      obtain ⟨key, value⟩ := pair
      rw [hs, Option.map_some, Option.map_eq_some_iff] at hkeys
      obtain ⟨⟨key', value'⟩, hs', hsame⟩ := hkeys
      obtain rfl : key' = key := hsame
      rw [hs']
      rw [(splitOnce_eq_some_iff.mp hs).1, (splitOnce_eq_some_iff.mp hs').1]
        at htrim
      exact .some ⟨rfl, htrim⟩

/-- Replacing a text without commas changes a rule pair by pair. -/
theorem writtenFor_replaced (hx : ','.toUInt8 ∉ x) (hu : ','.toUInt8 ∉ u)
    (h : Replaced (senderText x) (senderText u) r r') (key : Text) :
    List.Forall₂ (ValueReplaced x u key) (writtenFor key r)
      (writtenFor key r') := by
  refine List.rel_filterMap ?_ (rulePairs_replaced hx hu h)
  rintro ⟨key', value⟩ ⟨_, value'⟩ ⟨rfl, hvalue⟩
  unfold valueFor
  dsimp only
  split
  next heq =>
    subst heq
    exact .some hvalue
  next => exact .none

/-- The last value that is written for a key. -/
theorem last_replaced (hx : ','.toUInt8 ∉ x) (hu : ','.toUInt8 ∉ u)
    (h : Replaced (senderText x) (senderText u) r r') (key : Text) :
    Option.Rel (ValueReplaced x u key) (writtenFor key r).getLast?
      (writtenFor key r').getLast? := by
  have hvalues := writtenFor_replaced hx hu h key
  rw [← List.forall₂_reverse_iff] at hvalues
  rw [← List.head?_reverse, ← List.head?_reverse]
  revert hvalues
  generalize (writtenFor key r).reverse = values
  generalize (writtenFor key r').reverse = values'
  intro hvalues
  cases hvalues with
  | nil => exact .none
  | cons hvalue => exact .some hvalue

end pairs

-- ============================================================= value by value

/-- How many characters of a text are no quotes. -/
def letters (s : Text) : Nat := s.countP (· != '\''.toUInt8)

/-- Letters are counted part by part. -/
theorem letters_append (s t : Text) :
    letters (s ++ t) = letters s + letters t := List.countP_append

/-- Quotes are no letters. -/
theorem letters_trimMatches (s : Text) :
    letters (trimMatches '\''.toUInt8 s) = letters s := by
  unfold letters
  rw [List.countP_eq_length_filter, filter_trimMatches,
    ← List.countP_eq_length_filter]

/-- A shown name has two letters more than the real one. -/
theorem letters_shown (b : Bus) (y : Text) :
    letters (fakePrefix b ++ y) = letters (utf8 ":" ++ y) + 2 := by
  have hprefix : letters (fakePrefix b) = letters (utf8 ":") + 2 := by
    cases b <;> decide
  rw [letters_append, letters_append, hprefix]
  omega

section values

variable {x u y key value value' : Text} {b : Bus}

/-- The sender loses its prefix and with it two letters. -/
theorem letters_senderText (hx : x = fakePrefix b ++ y)
    (hu : u = utf8 ":" ++ y) :
    letters (senderText x) = letters (senderText u) + 2 := by
  rw [senderText, senderText, letters_append, letters_append, letters_append,
    letters_append, hx, hu, letters_shown]
  omega

/-- The letters of a pair are those of its key and its value, and the sign. -/
theorem letters_pairText (key value : Text) :
    letters (pairText key value)
      = letters key + 1 + letters (trimMatches '\''.toUInt8 value) := by
  have heq : letters (utf8 "=") = 1 := by decide
  have hpair : pairText key value = key ++ (utf8 "=" ++ value) := rfl
  rw [letters_trimMatches, hpair, letters_append, letters_append, heq,
    Nat.add_assoc]

/-- So a replacement that takes place leaves fewer letters. -/
theorem letters_lt (hx : x = fakePrefix b ++ y) (hu : u = utf8 ":" ++ y)
    {s s' : Text} (h : Replaced (senderText x) (senderText u) s s')
    (hin : senderText x <:+: s) : letters s' < letters s := by
  have hcount := letters_senderText hx hu
  exact h.count_lt _ (by unfold letters at hcount; omega) hin

/-- The value of a pair is what it was exactly when there is nothing in the
pair to replace. -/
theorem trimMatches_replaced (hx : x = fakePrefix b ++ y)
    (hu : u = utf8 ":" ++ y) (h : ValueReplaced x u key value value') :
    trimMatches '\''.toUInt8 value' = trimMatches '\''.toUInt8 value
      ↔ ¬senderText x <:+: pairText key value := by
  constructor
  · intro hsame hin
    have hlt := letters_lt hx hu h hin
    rw [letters_pairText, letters_pairText, hsame] at hlt
    exact absurd hlt (Nat.lt_irrefl _)
  · intro hno
    have hsame := h.eq_of_not_infix hno
    rw [pairText, pairText, List.append_cancel_left_eq,
      List.cons.injEq] at hsame
    rw [hsame.2]

/-- Trimming quotes around a shown name leaves it alone. -/
theorem trimMatches_shown (front rest : Text) (b : Bus) :
    trimMatches '\''.toUInt8 (front ++ fakePrefix b ++ rest)
      = front.dropWhile (· == '\''.toUInt8) ++ fakePrefix b
        ++ rest.rdropWhile (· == '\''.toUInt8) := by
  cases b <;>
    exact trimMatches_append (by decide) (by decide +kernel)
      (by decide +kernel) _ _

/-- So it does around a real one. -/
theorem trimMatches_colon (front rest : Text) :
    trimMatches '\''.toUInt8 (front ++ utf8 ":" ++ rest)
      = front.dropWhile (· == '\''.toUInt8) ++ utf8 ":"
        ++ rest.rdropWhile (· == '\''.toUInt8) :=
  trimMatches_append (by decide) (by decide +kernel) (by decide +kernel) _ _

/-- A shown name is translated whatever follows the prefix. -/
theorem fromFakeName_shown (b : Bus) (z : Text) :
    fromFakeName (fakePrefix b ++ z) = some (utf8 ":" ++ z, b) := by
  rw [fromFakeName, getBusFromFakeName_prefix, Option.map_some, List.drop_left]

/-- The pair of a sender starts with its key. -/
theorem pairText_sender_eq (value : Text) :
    pairText (utf8 "sender") value = utf8 "sender=" ++ value := rfl

/-- With a quoted value it is the text that is replaced. -/
theorem pairText_sender (x rest : Text) :
    pairText (utf8 "sender") (utf8 "'" ++ x ++ utf8 "'" ++ rest)
      = senderText x ++ rest := by
  rw [pairText, senderText_key]
  simp only [List.append_assoc, List.cons_append]

/-- A pair tells its value. -/
theorem pairText_injective {v v' : Text}
    (h : pairText key v = pairText key v') : v = v' :=
  (List.cons.inj (List.append_cancel_left h)).2

/-- In quotes at the front, the sender is translated. -/
theorem translated_at_front (hx : x = fakePrefix b ++ y)
    (hu : u = utf8 ":" ++ y) {rest : Text}
    (hno : ¬senderText x <:+: rest)
    (h : ValueReplaced x u (utf8 "sender") (utf8 "'" ++ x ++ utf8 "'" ++ rest)
      value') :
    fromFakeName (trimMatches '\''.toUInt8
        (utf8 "'" ++ x ++ utf8 "'" ++ rest))
      = some (trimMatches '\''.toUInt8 value', b) := by
  have hrest := replaced_replace (senderText_ne x) (senderText u) rest
  rw [hrest.eq_of_not_infix hno] at hrest
  unfold ValueReplaced at h
  rw [pairText_sender] at h
  have hvalue' := h.unique (senderText_ne x) (.hit hrest)
  rw [← pairText_sender] at hvalue'
  rw [pairText_injective hvalue', hx, hu]
  have hfake := trimMatches_shown (utf8 "'") (y ++ utf8 "'" ++ rest) b
  have hreal := trimMatches_colon (utf8 "'") (y ++ utf8 "'" ++ rest)
  simp only [List.append_assoc] at hfake hreal ⊢
  rw [hfake, hreal]
  exact fromFakeName_shown b _

/-- A match behind the front lies in the value. -/
theorem front_of_sender {front rest : Text} (hne : front ≠ [])
    (h : pairText (utf8 "sender") value = front ++ (senderText x ++ rest)) :
    ∃ inner, front = utf8 "sender=" ++ inner := by
  rw [pairText_sender_eq] at h
  rcases List.append_eq_append_iff.mp h with ⟨inner, hfront, -⟩ |
    ⟨t, hfront, ht⟩
  · exact ⟨inner, hfront⟩
  · -- behind its first letter `sender=` has that letter no more
    refine ⟨[], ?_⟩
    cases t with
    | nil =>
        rw [hfront, List.append_nil, List.append_nil]
    | cons d t =>
        obtain ⟨c, front, rfl⟩ := List.exists_cons_of_ne_nil hne
        rw [senderText_cons, List.cons_append, List.cons_append,
          List.cons.injEq] at ht
        have htail : utf8 "ender=" = front ++ d :: t :=
          (List.cons.inj hfront).2
        have hmem : 's'.toUInt8 ∈ utf8 "ender=" := by
          rw [htail, ht.1]
          simp
        exact absurd hmem (by decide)

/-- Behind other text, replacing the sender does not translate what is
read. -/
theorem not_translated_behind {b b' : Bus} {front rest z : Text}
    (hfake : front ++ (utf8 "sender='" ++ (fakePrefix b ++ rest))
      = fakePrefix b' ++ z) :
    front ++ (utf8 "sender='" ++ (utf8 ":" ++ rest)) ≠ utf8 ":" ++ z := by
  intro hreal
  cases front with
  | nil => exact absurd (List.cons.inj hreal).1 (by decide)
  | cons c front =>
      have hz : z = front ++ (utf8 "sender='" ++ (utf8 ":" ++ rest)) :=
        (List.cons.inj hreal).2.symm
      -- the third character of the text stands where the first one should
      have hn : (fakePrefix b' ++ z)[front.length + 3]? = some 'n'.toUInt8 := by
        rw [← hfake, List.cons_append, List.getElem?_cons_succ,
          List.getElem?_append_right (by omega), Nat.add_sub_cancel_left]
        rfl
      have hs : (fakePrefix b' ++ z)[front.length + 3]? = some 's'.toUInt8 := by
        rw [List.getElem?_append_right (by rw [fakePrefix_length]; omega),
          fakePrefix_length, Nat.add_sub_cancel, hz,
          List.getElem?_append_right (Nat.le_refl _), Nat.sub_self]
        rfl
      rw [hn] at hs
      exact absurd (Option.some.inj hs) (by decide)

/-- A text that loses the two letters of one prefix has one match. -/
theorem one_match (hx : x = fakePrefix b ++ y) (hu : u = utf8 ":" ++ y)
    {s s' : Text} (h : Replaced (senderText x) (senderText u) s s')
    (hletters : letters s = letters s' + 2) :
    ∃ front rest, s = front ++ (senderText x ++ rest)
      ∧ s' = front ++ (senderText u ++ rest) ∧ ¬senderText x <:+: rest := by
  have hin : senderText x <:+: s := by
    by_contra hno
    rw [h.eq_of_not_infix hno] at hletters
    omega
  obtain ⟨front, rest, rest', hold, hnew, hrest⟩ :=
    (h.first hin).resolve_left (senderText_ne x)
  have hno : ¬senderText x <:+: rest := by
    intro hin'
    have hlt := letters_lt hx hu hrest hin'
    have hsender := letters_senderText hx hu
    rw [hold, hnew] at hletters
    simp only [letters_append] at hletters
    omega
  rw [hrest.eq_of_not_infix hno] at hnew
  exact ⟨front, rest, hold, hnew, hno⟩

/-- What is read of a value in which a sender stands behind other text, if
trimming leaves the head of that sender alone. -/
theorem trimMatches_behind {p : Text}
    (htrims : ∀ front rest : Text, trimMatches '\''.toUInt8 (front ++ p ++ rest)
      = front.dropWhile (· == '\''.toUInt8) ++ p
        ++ rest.rdropWhile (· == '\''.toUInt8))
    (hx : x = p ++ y) (inner rest : Text) :
    trimMatches '\''.toUInt8 (inner ++ (senderText x ++ rest))
      = inner.dropWhile (· == '\''.toUInt8) ++ (utf8 "sender='"
        ++ (p ++ (y ++ utf8 "'" ++ rest).rdropWhile (· == '\''.toUInt8))) := by
  have hfront : (inner ++ utf8 "sender='").dropWhile (· == '\''.toUInt8)
      = inner.dropWhile (· == '\''.toUInt8) ++ utf8 "sender='" :=
    dropWhile_append_cons (show 's'.toUInt8 ≠ '\''.toUInt8 by decide) ..
  have htrim := htrims (inner ++ utf8 "sender='") (y ++ utf8 "'" ++ rest)
  rw [hfront] at htrim
  rw [senderText, hx]
  simp only [List.append_assoc] at htrim ⊢
  exact htrim

/-- A sender that is translated stands in quotes at the front. -/
theorem quoted_of_translated (hx : x = fakePrefix b ++ y)
    (hu : u = utf8 ":" ++ y)
    (h : ValueReplaced x u (utf8 "sender") value value')
    {b' : Bus}
    (hfake : fromFakeName (trimMatches '\''.toUInt8 value)
      = some (trimMatches '\''.toUInt8 value', b')) :
    ∃ rest, value = utf8 "'" ++ x ++ utf8 "'" ++ rest
      ∧ ¬senderText x <:+: rest := by
  obtain ⟨z, hvalue, hvalue'⟩ := fromFakeName_eq_some hfake
  have hletters : letters (pairText (utf8 "sender") value)
      = letters (pairText (utf8 "sender") value') + 2 := by
    rw [letters_pairText, letters_pairText, hvalue, hvalue', letters_shown]
    omega
  obtain ⟨front, rest, hold, hnew, hno⟩ := one_match hx hu h hletters
  by_cases hne : front = []
  · subst hne
    refine ⟨rest, ?_, hno⟩
    rw [List.nil_append, ← pairText_sender] at hold
    exact pairText_injective hold
  · obtain ⟨inner, rfl⟩ := front_of_sender hne hold
    rw [pairText_sender_eq, List.append_assoc (utf8 "sender=")] at hold hnew
    rw [List.append_cancel_left hold,
      trimMatches_behind (fun front rest => trimMatches_shown front rest b) hx]
      at hvalue
    rw [List.append_cancel_left hnew, trimMatches_behind trimMatches_colon hu]
      at hvalue'
    exact absurd hvalue' (not_translated_behind hvalue)

end values

-- =============================================================== rule by rule

/-- The first sender that is written, if it is a fake unique name. -/
def firstShown (rule : Text) : Option Text :=
  ((writtenFor (utf8 "sender") rule).head?.map unquoted).filter
    fun sender => (getBusFromFakeName sender).isSome

/-- The rule that is forwarded. -/
def forwardedRule (rule : Text) : Text :=
  match stripRule rule with
  | some (new, _) => new
  | none => rule

/-- In the new rule the real name is read where a fake one was read, and the
other keys have the values they had; a rule without a fake sender stays as
it is. -/
def RuleTranslated (rule new : Text) : Prop :=
  match (parseMatchRule rule).sender.bind fromFakeName with
  | some (real, _) => (parseMatchRule new).sender = some real
      ∧ ∀ key, key ≠ utf8 "sender" → ruleValue key new = ruleValue key rule
  | none => new = rule

/-- The last sender that is written is the first one, in quotes, and the
text that is replaced stands nowhere else in what is read. A rule whose last
sender is no fake name has no such text. -/
def OneSender (rule : Text) : Prop :=
  if ((ruleValue (utf8 "sender") rule).bind fromFakeName).isSome then
    ∃ sender, firstShown rule = some sender
      ∧ (∃ rest, (writtenFor (utf8 "sender") rule).getLast?
          = some (utf8 "'" ++ sender ++ utf8 "'" ++ rest)
        ∧ ¬senderText sender <:+: rest)
      ∧ ∀ key, key ≠ utf8 "sender" →
        ∀ value ∈ (writtenFor key rule).getLast?,
          ¬senderText sender <:+: pairText key value
  else ∀ sender, firstShown rule = some sender →
    ¬senderText sender <:+: rule

/-- What is written for a key has no comma. -/
theorem comma_not_mem_written {key rule value : Text}
    (h : value ∈ writtenFor key rule) : ','.toUInt8 ∉ value := by
  obtain ⟨⟨key', value'⟩, hpair, hvalue⟩ := List.mem_filterMap.mp h
  obtain ⟨part, hpart, hsplit⟩ := List.mem_filterMap.mp hpair
  obtain ⟨heq, -⟩ := splitOnce_eq_some_iff.mp hsplit
  unfold valueFor at hvalue
  split at hvalue
  next =>
    cases hvalue
    intro hmem
    have htrim : ','.toUInt8 ∈ trim part := by
      rw [heq]
      exact List.mem_append_right _ (List.mem_cons_of_mem _ hmem)
    exact not_mem_of_splitOn hpart (trim_subset part htrim)
  next => cases hvalue

/-- The first shown name of a rule is the one the code reads. -/
theorem firstShown_eq_some {rule sender : Text}
    (h : firstShown rule = some sender) :
    ','.toUInt8 ∉ sender
    ∧ ∃ b y, sender = fakePrefix b ++ y
      ∧ parseMatchRuleSender rule = some sender := by
  obtain ⟨hfirst, hfake⟩ := Option.filter_eq_some_iff.mp h
  obtain ⟨value, hvalue, rfl⟩ := Option.map_eq_some_iff.mp hfirst
  refine ⟨fun hmem => comma_not_mem_written (List.mem_of_head? hvalue)
    (unquoted_subset value hmem), ?_⟩
  obtain ⟨b, hb⟩ := Option.isSome_iff_exists.mp hfake
  have hreal : fromFakeName (unquoted value)
      = some (utf8 ":" ++ (unquoted value).drop 3, b) := by
    rw [fromFakeName, hb, Option.map_some, fakePrefix_length]
  obtain ⟨y, hy, -⟩ := fromFakeName_eq_some hreal
  refine ⟨b, y, hy, ?_⟩
  rw [parseMatchRuleSender_eq, hvalue]
  rfl

/-- A rule without one is forwarded as it is. -/
theorem forwardedRule_of_none {rule : Text} (h : firstShown rule = none) :
    forwardedRule rule = rule := by
  have hstrip : stripRule rule = none := by
    unfold stripRule
    unfold firstShown at h
    rw [parseMatchRuleSender_eq]
    cases hfirst : (writtenFor (utf8 "sender") rule).head?.map unquoted with
    | none => rfl
    | some sender =>
        rw [hfirst, Option.filter_some, ite_eq_right_iff] at h
        have hnone : getBusFromFakeName sender = none := by
          cases hb : getBusFromFakeName sender with
          | none => rfl
          | some b =>
              rw [hb] at h
              cases h rfl
        rw [Option.bind_some, fromFakeName, hnone]
        rfl
  unfold forwardedRule
  rw [hstrip]

/-- One with it is searched for the quoted name. -/
theorem forwardedRule_of_some {rule sender y : Text} {b : Bus}
    (hfirst : parseMatchRuleSender rule = some sender)
    (hy : sender = fakePrefix b ++ y) :
    forwardedRule rule
      = replace rule (senderText sender) (senderText (utf8 ":" ++ y)) := by
  have hstrip : stripRule rule = some
      (replace rule (senderText sender) (senderText (utf8 ":" ++ y)), b) := by
    unfold stripRule
    rw [hfirst, Option.bind_some, hy, fromFakeName_shown]
    rfl
  unfold forwardedRule
  rw [hstrip]

section rule

variable {rule sender y : Text} {b : Bus}

/-- The real name has no comma either. -/
theorem comma_not_mem_real (hcomma : ','.toUInt8 ∉ sender)
    (hy : sender = fakePrefix b ++ y) : ','.toUInt8 ∉ utf8 ":" ++ y := by
  have hcolon : ','.toUInt8 ∉ utf8 ":" := by decide
  rw [hy, List.mem_append, not_or] at hcomma
  rw [List.mem_append, not_or]
  exact ⟨hcolon, hcomma.2⟩

/-- A key keeps its value exactly when the text that is replaced is not in
its pair. -/
theorem ruleValue_replaced (hcomma : ','.toUInt8 ∉ sender)
    (hy : sender = fakePrefix b ++ y) (key : Text) :
    ruleValue key (replace rule (senderText sender)
        (senderText (utf8 ":" ++ y))) = ruleValue key rule
      ↔ ∀ value ∈ (writtenFor key rule).getLast?,
        ¬senderText sender <:+: pairText key value := by
  have hlast := last_replaced hcomma (comma_not_mem_real hcomma hy)
    (replaced_replace (senderText_ne sender) _ rule) key
  unfold ruleValue
  revert hlast
  generalize (writtenFor key rule).getLast? = last
  generalize (writtenFor key _).getLast? = last'
  intro hlast
  cases hlast with
  | none => simp
  | @some value value' h =>
      rw [Option.map_some, Option.map_some, Option.some.injEq,
        trimMatches_replaced hy rfl h]
      simp

/-- The sender that is read becomes the real one exactly when it is the
first sender, in quotes. -/
theorem ruleValue_sender_replaced (hcomma : ','.toUInt8 ∉ sender)
    (hy : sender = fakePrefix b ++ y) {read real : Text} {b' : Bus}
    (hread : ruleValue (utf8 "sender") rule = some read)
    (hreal : fromFakeName read = some (real, b')) :
    ruleValue (utf8 "sender") (replace rule (senderText sender)
        (senderText (utf8 ":" ++ y))) = some real
      ↔ ∃ rest, (writtenFor (utf8 "sender") rule).getLast?
          = some (utf8 "'" ++ sender ++ utf8 "'" ++ rest)
        ∧ ¬senderText sender <:+: rest := by
  have hlast := last_replaced hcomma (comma_not_mem_real hcomma hy)
    (replaced_replace (senderText_ne sender) _ rule) (utf8 "sender")
  unfold ruleValue at hread ⊢
  revert hlast hread
  generalize (writtenFor (utf8 "sender") rule).getLast? = last
  generalize (writtenFor (utf8 "sender") _).getLast? = last'
  intro hread hlast
  cases hlast with
  | none => cases hread
  | @some value value' h =>
      rw [Option.map_some, Option.some.injEq] at hread
      subst hread
      rw [Option.map_some, Option.some.injEq]
      constructor
      · intro hvalue'
        rw [← hvalue'] at hreal
        obtain ⟨rest, hvalue, hno⟩ := quoted_of_translated hy rfl h hreal
        exact ⟨rest, by rw [hvalue], hno⟩
      · rintro ⟨rest, hvalue, hno⟩
        obtain rfl := Option.some.inj hvalue
        rw [translated_at_front hy rfl hno h] at hreal
        exact (Prod.mk.inj (Option.some.inj hreal)).1

/-- A rule stays as it is only if the quoted name is not in it. -/
theorem replace_eq_self_iff (hy : sender = fakePrefix b ++ y) :
    replace rule (senderText sender) (senderText (utf8 ":" ++ y)) = rule
      ↔ ¬senderText sender <:+: rule := by
  have h := replaced_replace (senderText_ne sender)
    (senderText (utf8 ":" ++ y)) rule
  constructor
  · intro hsame hin
    have hlt := letters_lt hy rfl h hin
    rw [hsame] at hlt
    exact absurd hlt (Nat.lt_irrefl _)
  · exact h.eq_of_not_infix

end rule

/-- A translation differs from what was read. -/
theorem fromFakeName_ne {read real : Text} {b : Bus}
    (h : fromFakeName read = some (real, b)) : read ≠ real := by
  obtain ⟨y, rfl, rfl⟩ := fromFakeName_eq_some h
  intro hsame
  have hletters := congrArg letters hsame
  rw [letters_shown] at hletters
  omega

/-- A match rule is translated exactly when it has one sender, in quotes. -/
theorem rule_translated (rule : Text) :
    RuleTranslated rule (forwardedRule rule) ↔ OneSender rule := by
  have hsender (rule : Text) : (parseMatchRule rule).sender
      = ruleValue (utf8 "sender") rule := by rw [parseMatchRule_eq]
  unfold RuleTranslated OneSender
  rw [hsender, hsender]
  cases hfirst : firstShown rule with
  | none =>
      rw [forwardedRule_of_none hfirst]
      cases hread : (ruleValue (utf8 "sender") rule).bind fromFakeName with
      | none => simp
      | some shown =>
          obtain ⟨real, b⟩ := shown
          obtain ⟨read, hvalue, hreal⟩ := Option.bind_eq_some_iff.mp hread
          have hne := fromFakeName_ne hreal
          simp [hvalue, hne]
  | some sender =>
      obtain ⟨hcomma, b, y, hy, hparsed⟩ := firstShown_eq_some hfirst
      rw [forwardedRule_of_some hparsed hy]
      cases hread : (ruleValue (utf8 "sender") rule).bind fromFakeName with
      | none =>
          dsimp only
          rw [replace_eq_self_iff hy]
          simp
      | some shown =>
          obtain ⟨real, b'⟩ := shown
          obtain ⟨read, hvalue, hreal⟩ := Option.bind_eq_some_iff.mp hread
          dsimp only
          rw [ruleValue_sender_replaced hcomma hy hvalue hreal]
          simp only [ruleValue_replaced hcomma hy]
          simp

-- ============================================================= quoted rules

/-- Quotes come off again. -/
theorem unquoted_quote (value : Text) : unquoted (quote value) = value := by
  have hquote : quote value = utf8 "'" ++ value ++ utf8 "'" := rfl
  rcases unquoted_cases (quote value) with ⟨-, hno⟩ | hsame
  · exact absurd hquote (hno value)
  · conv at hsame => lhs; rw [hquote]
    exact (List.append_cancel_left (List.append_cancel_right hsame)).symm

/-- A sender in quotes stands in a quoted pair only if the key ends in
`sender`. -/
theorem sender_of_quoted_pair {sender key value : Text}
    (hkey : '='.toUInt8 ∉ key) (hvalue : '\''.toUInt8 ∉ value)
    (h : senderText sender <:+: pairText key (quote value)) :
    utf8 "sender" <:+ key := by
  obtain ⟨front, behind, heq⟩ := h
  have hequals : '='.toUInt8 ∉ utf8 "sender" := by decide
  rw [senderText_key, List.append_assoc, List.append_assoc,
    List.cons_append, ← List.append_assoc front] at heq
  by_cases hfront : '='.toUInt8 ∈ front
  · -- the sender would begin inside the quotes, and has two itself
    exfalso
    obtain ⟨before, inner, rfl, hbefore⟩ :=
      List.eq_append_cons_of_mem hfront
    have hsplit := congrArg (splitOnce '='.toUInt8) heq
    rw [pairText, splitOnce_append _ hkey, List.append_assoc,
      List.append_assoc, List.cons_append, splitOnce_append _ hbefore]
      at hsplit
    have hquoted := (Prod.mk.inj (Option.some.inj hsplit)).2
    have hcount := congrArg (List.count '\''.toUInt8) hquoted
    have htwo : (quote value).count '\''.toUInt8 = 2 := by
      have hnone := List.count_eq_zero_of_not_mem hvalue
      simp [quote, hnone]
    rw [htwo] at hcount
    cases inner with
    | nil => exact absurd (List.cons.inj hquoted).1 (by decide)
    | cons c inner =>
        have hc : c = '\''.toUInt8 := (List.cons.inj hquoted).1
        subst hc
        have hword : (utf8 "sender").count '\''.toUInt8 = 0 := by decide
        have hone : (utf8 "'").count '\''.toUInt8 = 1 := by decide
        have hequals : '='.toUInt8 ≠ '\''.toUInt8 := by decide
        simp only [List.cons_append, List.count_cons_self, List.count_append,
          List.count_cons_of_ne hequals, hword, hone] at hcount
        omega
  · have hword : '='.toUInt8 ∉ front ++ utf8 "sender" := by
      rw [List.mem_append, not_or]
      exact ⟨hfront, hequals⟩
    have hsplit := congrArg (splitOnce '='.toUInt8) heq
    rw [splitOnce_append _ hword, pairText, splitOnce_append _ hkey] at hsplit
    have hsame := (Prod.mk.inj (Option.some.inj hsplit)).1
    exact ⟨front, hsame⟩

/-- A rule of quoted pairs with one sender, a fake name, has nothing else to
be replaced. -/
theorem oneSender_ruleText {pairs : List RulePair} {sender : Text}
    (h : valuesOf (utf8 "sender") pairs = [sender])
    (hfake : (getBusFromFakeName sender).isSome = true)
    (hkeys : ∀ p ∈ pairs, p.key ≠ utf8 "sender" →
      ¬utf8 "sender" <:+ p.key) :
    OneSender (ruleText pairs) := by
  have hne : pairs ≠ [] := by
    rintro rfl
    cases h
  have hwritten : writtenFor (utf8 "sender") (ruleText pairs)
      = [quote sender] := by
    rw [writtenFor_ruleText hne, h]
    rfl
  have hread : ((ruleValue (utf8 "sender") (ruleText pairs)).bind
      fromFakeName).isSome = true := by
    have hsender := parseMatchRule_sender h
    rw [parseMatchRule_eq] at hsender
    rw [show ruleValue _ _ = some sender from hsender, Option.bind_some,
      fromFakeName, Option.isSome_map, hfake]
  have hfirst : firstShown (ruleText pairs) = some sender := by
    unfold firstShown
    rw [hwritten, List.head?_cons, Option.map_some, unquoted_quote,
      Option.filter_some, if_pos hfake]
  unfold OneSender
  rw [if_pos hread]
  refine ⟨sender, hfirst, ⟨[], ?_, ?_⟩, ?_⟩
  · rw [hwritten, List.append_nil]
    rfl
  · rw [List.infix_nil]
    exact senderText_ne sender
  · intro key hkey value hvalue hin
    rw [writtenFor_ruleText hne] at hvalue
    obtain ⟨v, hv, rfl⟩ := List.mem_map.mp (List.mem_of_getLast? hvalue)
    obtain ⟨p, hp, rfl⟩ := List.mem_map.mp hv
    obtain ⟨hmem, hpkey⟩ := List.mem_filter.mp hp
    obtain rfl : p.key = key := by simpa using hpkey
    refine hkeys p hmem hkey (sender_of_quoted_pair ?_ ?_ hin)
    · exact fun hequals => (p.key_plain _ hequals).1 rfl
    · exact fun hquote => (p.value_plain _ hquote).1 rfl

-- ================================================================== a call

/-- An `AddMatch` or `RemoveMatch` for the bus daemon. -/
structure Message.RuleCall (msg : Message) (rule : Text) : Prop where
  call : msg.header.msgType = .methodCall
  destination : msg.header.destination = some busName
  member : msg.header.member.any isMatchRuleMember = true
  text : IsStr rule
  body : msg.body = strBytes msg.header.endian rule

/-- The bytes carry a rule that is translated, and are those of the message
if its sender is not a fake name. -/
def Message.RuleDelivered (msg : Message) (rule : Text) (raw : Bytes) :
    Prop :=
  ∃ new start, HasBody msg.header.endian raw start
      (strBytes msg.header.endian new)
    ∧ RuleTranslated rule new
    ∧ ((parseMatchRule rule).sender.bind fromFakeName = none → raw = msg.raw)

/-- The rule is translated in all that is written for the message. -/
def Session.TranslatesRule (L : Libs) (s : Session) (msg : Message)
    (rule : Text) : Prop :=
  ∃ ws s', s.Step L (.client msg) ws s' ∧ ws ≠ []
    ∧ ∀ w ∈ ws, msg.RuleDelivered rule w.raw

/-- The forwarded rule is no longer than the one that came. -/
theorem forwardedRule_length (rule : Text) :
    (forwardedRule rule).length ≤ rule.length := by
  cases hfirst : firstShown rule with
  | none => rw [forwardedRule_of_none hfirst]
  | some sender =>
      obtain ⟨-, b, y, hy, hparsed⟩ := firstShown_eq_some hfirst
      rw [forwardedRule_of_some hparsed hy]
      have h := replaced_replace (senderText_ne sender)
        (senderText (utf8 ":" ++ y)) rule
      have hcount := h.count_le (fun _ => true) (by
        rw [List.countP_true, hy, senderText, senderText]
        simp only [List.length_append, fakePrefix_length, colon_length]
        omega)
      rwa [List.countP_true] at hcount

section call

variable {L : Libs} {s : Session} {msg : Message} {rule : Text}

/-- The code reads the rule in the body and takes the prefix of its sender
out. -/
theorem Message.RuleCall.bodyString (h : msg.RuleCall rule) :
    ((stringIn msg.header.endian msg.body).map fromUtf8Lossy).bind stripRule
      = stripRule rule := by
  rw [h.body, stringIn_strBytes _ h.text.2.2, Option.map_some,
    fromUtf8Lossy_of_valid h.text.1, Option.bind_some]

/-- A call with a rule is always handled. -/
theorem Message.RuleCall.handled (hz : L.zvariant.FollowsSpec)
    (hacc : msg.Accepted L.zvariant) (h : msg.RuleCall rule) :
    ∃ ws s', s.Step L (.client msg) ws s' := by
  refine client_handled hz hacc
    ⟨destinationPlain_of_busName h.destination, fun _ _ => Or.inr ?_⟩
  rw [h.body, strBytes_length]
  omega

/-- What is written for the call: the message, or the message with the new
rule. -/
theorem Message.RuleCall.written (h : msg.RuleCall rule) {start : Nat}
    (hbody : HasBody msg.header.endian msg.raw start msg.body)
    {ws : List Write} {s' : Session}
    (hstep : s.Step L (.client msg) ws s') :
    ws ≠ [] ∧ ∀ w ∈ ws, w.raw = restringed msg start (stripRule rule) := by
  have hstrip : strippedString msg msg.body = stripRule rule := by
    unfold strippedString
    rw [stripFor_of_matchRule h.member, h.bodyString]
  rw [← hstrip]
  refine restringed_writes hstep (not_answers_of_call h.call s) h.destination
    hbody (Or.inr ?_)
  rw [h.body, strBytes_length]
  omega

/-- The written bytes carry the forwarded rule. -/
theorem Message.RuleCall.carried (h : msg.RuleCall rule)
    (hacc : msg.Accepted L.zvariant) {start : Nat}
    (hbody : HasBody msg.header.endian msg.raw start msg.body) :
    HasBody msg.header.endian (restringed msg start (stripRule rule)) start
        (strBytes msg.header.endian (forwardedRule rule))
    ∧ (forwardedRule rule = rule →
      restringed msg start (stripRule rule) = msg.raw) := by
  have hlen := forwardedRule_length rule
  unfold forwardedRule at hlen ⊢
  cases hstrip : stripRule rule with
  | none =>
      rw [h.body] at hbody
      exact ⟨hbody, fun _ => rfl⟩
  | some stripped =>
      obtain ⟨new, b⟩ := stripped
      rw [hstrip] at hlen
      dsimp only [restringed] at hlen ⊢
      have hnew : new.length < 2 ^ 32 := by
        have htext := h.text.2.2
        omega
      rw [stringBody_eq _ hnew]
      refine ⟨hasBody_rebuilt hacc hbody _, ?_⟩
      rintro rfl
      rw [← h.body]
      exact rebuilt_self hacc hbody

/-- A string is known by its bytes. -/
theorem strBytes_injective {e : Endian} {t t' : Text}
    (h : strBytes e t = strBytes e t') : t = t' := by
  unfold strBytes at h
  exact List.append_cancel_right (List.append_inj_right h (by simp))

/-- What is written holds the translated rule if that is the one the code
forwards. -/
theorem Message.RuleCall.delivered_iff (h : msg.RuleCall rule)
    (hacc : msg.Accepted L.zvariant) {start : Nat}
    (hbody : HasBody msg.header.endian msg.raw start msg.body) :
    msg.RuleDelivered rule (restringed msg start (stripRule rule))
      ↔ RuleTranslated rule (forwardedRule rule) := by
  obtain ⟨hnew, hsame⟩ := h.carried hacc hbody
  constructor
  · rintro ⟨new, start', hnew', htranslated, -⟩
    rwa [strBytes_injective (hnew.unique hnew').2]
  · intro htranslated
    refine ⟨_, _, hnew, htranslated, fun hnone => hsame ?_⟩
    unfold RuleTranslated at htranslated
    rwa [hnone] at htranslated

/-- The session translates a rule if the forwarded text does. -/
theorem translatesRule_iff (hz : L.zvariant.FollowsSpec)
    (hacc : msg.Accepted L.zvariant) (h : msg.RuleCall rule) :
    s.TranslatesRule L msg rule
      ↔ RuleTranslated rule (forwardedRule rule) := by
  obtain ⟨start, hbody⟩ := hacc.hasBody
  rw [← h.delivered_iff hacc hbody]
  constructor
  · rintro ⟨ws, s', hstep, hne, hall⟩
    obtain ⟨-, hraw⟩ := h.written hbody hstep
    obtain ⟨w, ws, rfl⟩ := List.exists_cons_of_ne_nil hne
    rw [← hraw w (List.mem_cons_self ..)]
    exact hall w (List.mem_cons_self ..)
  · intro hdelivered
    obtain ⟨ws, s', hstep⟩ := h.handled (s := s) hz hacc
    obtain ⟨hne, hraw⟩ := h.written hbody hstep
    refine ⟨ws, s', hstep, hne, ?_⟩
    intro w hw
    rw [hraw w hw]
    exact hdelivered

/-- An `AddMatch` or `RemoveMatch` is forwarded with its sender translated
exactly when the rule has one sender, in quotes. -/
theorem match_rule_translated (hz : L.zvariant.FollowsSpec)
    (hacc : msg.Accepted L.zvariant) (h : msg.RuleCall rule) :
    s.TranslatesRule L msg rule ↔ OneSender rule :=
  (translatesRule_iff hz hacc h).trans (rule_translated rule)

end call

-- ================================================================ one of each

/-- Watch the host's `:1.5`. -/
def watchQuoted : Message :=
  .daemonCall 7 "AddMatch" "type='signal',sender=':h.1.5'"

/-- The rule names its sender once. -/
theorem watchQuoted_oneSender :
    OneSender (utf8 "type='signal',sender=':h.1.5'") := by
  obtain ⟨pairs, hrule, hsender, hkeys⟩ : ∃ pairs : List RulePair,
      ruleText pairs = utf8 "type='signal',sender=':h.1.5'"
      ∧ valuesOf (utf8 "sender") pairs = [utf8 ":h.1.5"]
      ∧ ∀ p ∈ pairs, p.key ≠ utf8 "sender" → ¬utf8 "sender" <:+ p.key :=
    ⟨[⟨utf8 "type", utf8 "signal", by decide +kernel, by decide +kernel,
        by decide +kernel⟩,
      ⟨utf8 "sender", utf8 ":h.1.5", by decide +kernel, by decide +kernel,
        by decide +kernel⟩],
      by decide +kernel, by decide +kernel, by decide +kernel⟩
  rw [← hrule]
  exact oneSender_ruleText hsender (by decide) hkeys

/-- The rule reaches the host with the real name. -/
theorem watchQuoted_translated :
    (Session.new sandboxOnly none).TranslatesRule referenceLibs watchQuoted
      (utf8 "type='signal',sender=':h.1.5'") :=
  (match_rule_translated (L := referenceLibs) Zvariant.reference_followsSpec
    (by decide +kernel)
    ⟨rfl, rfl, by decide, by decide +kernel, by decide +kernel⟩).mpr
    watchQuoted_oneSender

/-- Watch it without quotes. -/
def watchUnquoted : Message :=
  .daemonCall 7 "AddMatch" "type='signal',sender=:h.1.5"

/-- Without quotes the sender is read as a fake name, and the rule is
forwarded with that name in it. -/
theorem watchUnquoted_not_translated :
    watchUnquoted.Accepted .reference
    ∧ watchUnquoted.RuleCall (utf8 "type='signal',sender=:h.1.5")
    ∧ ¬(Session.new sandboxOnly none).TranslatesRule referenceLibs
      watchUnquoted (utf8 "type='signal',sender=:h.1.5") := by
  have hacc : watchUnquoted.Accepted .reference := by decide +kernel
  have hcall : watchUnquoted.RuleCall
      (utf8 "type='signal',sender=:h.1.5") :=
    ⟨rfl, rfl, by decide, by decide +kernel, by decide +kernel⟩
  refine ⟨hacc, hcall, ?_⟩
  rw [translatesRule_iff (L := referenceLibs) Zvariant.reference_followsSpec
    hacc hcall]
  intro htranslated
  unfold RuleTranslated at htranslated
  have hread : (parseMatchRule
      (utf8 "type='signal',sender=:h.1.5")).sender.bind fromFakeName
      = some (utf8 ":1.5", .host) := by decide +kernel
  rw [hread] at htranslated
  exact absurd htranslated.1 (by decide +kernel)

end DbusRouter.Model
