/-
How the router reads a match rule.

It splits the rule at every comma, trims the parts and splits each at its
first `=`: `rulePairs`. Of a key that is written more than once
`parse_match_rule` takes the last value and `parse_match_rule_sender` the
first one; the former trims quotes off both ends of the value, however many
there are, and the latter takes off one pair if there is one. Both are
stated here over `writtenFor`, the values that are written for a key.
-/
import DbusRouter.Wire.Trim
import DbusRouter.Model.Rewrite

namespace DbusRouter.Model

open Wire

-- ================================================================= what is read

/-- The `key=value` parts of a match rule. -/
def rulePairs (rule : Text) : List (Text × Text) :=
  (splitOn ','.toUInt8 rule).filterMap fun part =>
    splitOnce '='.toUInt8 (trim part)

/-- The value that is written, if it is for the key. -/
def valueFor (key : Text) (pair : Text × Text) : Option Text :=
  if pair.1 = key then some pair.2 else none

/-- The values that are written for a key, as they are written. -/
def writtenFor (key rule : Text) : List Text :=
  (rulePairs rule).filterMap (valueFor key)

/-- The value of a key: the last that is written, without the quotes at its
ends. -/
def ruleValue (key rule : Text) : Option Text :=
  (writtenFor key rule).getLast?.map (trimMatches '\''.toUInt8)

/-- A value without the pair of quotes around it, if there is one. -/
def unquoted (value : Text) : Text :=
  match (stripPrefix (utf8 "'") value).bind (stripSuffix (utf8 "'")) with
  | some inner => inner
  | none => value

-- ================================================================ parsing a rule

/-- Entering a part. -/
theorem enter_eq (info : MatchRuleInfo) (part : Text) :
    info.enter part
      = match splitOnce '='.toUInt8 (trim part) with
        | none => info
        | some pair =>
            { sender := ((valueFor (utf8 "sender") pair).map
                (trimMatches '\''.toUInt8)).or info.sender
              interface := ((valueFor (utf8 "interface") pair).map
                (trimMatches '\''.toUInt8)).or info.interface } := by
  unfold MatchRuleInfo.enter
  cases splitOnce '='.toUInt8 (trim part) with
  | none => rfl
  | some pair =>
      obtain ⟨key, value⟩ := pair
      have hne : utf8 "sender" ≠ utf8 "interface" := by decide
      dsimp only [valueFor]
      by_cases hsender : key = utf8 "sender"
      · subst hsender
        rw [if_pos rfl, if_pos rfl, if_neg hne]
        rfl
      · rw [if_neg hsender, if_neg hsender]
        by_cases hinterface : key = utf8 "interface"
        · rw [if_pos hinterface, if_pos hinterface]
          rfl
        · rw [if_neg hinterface, if_neg hinterface]
          rfl

/-- The last value behind a new first one. -/
theorem getLast?_cons_map {α β : Type} (f : α → β) (first : Option α)
    (rest : List α) (before : Option β) :
    ((first.toList ++ rest).getLast?.map f).or before
      = (rest.getLast?.map f).or ((first.map f).or before) := by
  cases first with
  | none => rfl
  | some a =>
      rw [Option.toList_some, List.singleton_append, List.getLast?_cons]
      cases rest.getLast? <;> rfl

theorem foldl_enter (parts : List Text) (info : MatchRuleInfo) :
    parts.foldl MatchRuleInfo.enter info
      = let pairs := parts.filterMap fun part =>
          splitOnce '='.toUInt8 (trim part)
        { sender := ((pairs.filterMap (valueFor (utf8 "sender"))).getLast?.map
            (trimMatches '\''.toUInt8)).or info.sender
          interface := ((pairs.filterMap
            (valueFor (utf8 "interface"))).getLast?.map
            (trimMatches '\''.toUInt8)).or info.interface } := by
  induction parts generalizing info with
  | nil => rfl
  | cons part parts ih =>
      rw [List.foldl_cons, ih, enter_eq, List.filterMap_cons]
      cases splitOnce '='.toUInt8 (trim part) with
      | none => rfl
      | some pair =>
          have hcons (key : Text) (pairs : List (Text × Text)) :
              (pair :: pairs).filterMap (valueFor key)
                = (valueFor key pair).toList
                  ++ pairs.filterMap (valueFor key) := by
            rw [List.filterMap_cons]
            cases valueFor key pair <;> rfl
          dsimp only
          rw [hcons, hcons, getLast?_cons_map, getLast?_cons_map]

/-- `parse_match_rule` reads the value of each key. -/
theorem parseMatchRule_eq (rule : Text) :
    parseMatchRule rule
      = ⟨ruleValue (utf8 "sender") rule,
        ruleValue (utf8 "interface") rule⟩ := by
  unfold parseMatchRule
  rw [foldl_enter]
  dsimp only
  rw [Option.or_none, Option.or_none]
  rfl

-- ============================================================== the first sender

/-- Taking the quotes off. -/
theorem unquoted_cases (value : Text) :
    (unquoted value = value ∧ ∀ inner, value ≠ utf8 "'" ++ inner ++ utf8 "'")
    ∨ value = utf8 "'" ++ unquoted value ++ utf8 "'" := by
  unfold unquoted
  cases hstrip : (stripPrefix (utf8 "'") value).bind
      (stripSuffix (utf8 "'")) with
  | none =>
      refine .inl ⟨rfl, ?_⟩
      rintro inner rfl
      rw [List.append_assoc, stripPrefix_eq_some_iff.mpr rfl,
        Option.bind_some, stripSuffix_eq_some_iff.mpr rfl] at hstrip
      cases hstrip
  | some inner =>
      obtain ⟨rest, hfront, hback⟩ := Option.bind_eq_some_iff.mp hstrip
      rw [stripPrefix_eq_some_iff] at hfront
      rw [stripSuffix_eq_some_iff] at hback
      refine .inr ?_
      dsimp only
      rw [hfront, hback, List.append_assoc]

theorem unquoted_subset (value : Text) : unquoted value ⊆ value := by
  rcases unquoted_cases value with ⟨h, -⟩ | h
  · rw [h]
    exact List.Subset.refl _
  · intro b hb
    rw [h]
    simp [hb]

/-- A part that is read for its sender. -/
theorem senderOfPart_eq (part : Text) :
    senderOfPart part
      = ((splitOnce '='.toUInt8 (trim part)).bind
          (valueFor (utf8 "sender"))).map unquoted := by
  have hkey : '='.toUInt8 ∉ utf8 "sender" := by decide
  have hquoted : utf8 "sender='" = utf8 "sender=" ++ utf8 "'" := by decide
  unfold senderOfPart
  dsimp only
  by_cases hsender : utf8 "sender=" <+: trim part
  · obtain ⟨value, hvalue⟩ := hsender
    have hsplit : utf8 "sender=" ++ value
        = utf8 "sender" ++ '='.toUInt8 :: value := rfl
    have hfront : stripPrefix (utf8 "sender=" ++ utf8 "'")
        (utf8 "sender=" ++ value) = stripPrefix (utf8 "'") value := by
      ext rest
      rw [stripPrefix_eq_some_iff, stripPrefix_eq_some_iff, List.append_assoc,
        List.append_cancel_left_eq]
    rw [← hvalue, hquoted, hfront, stripPrefix_eq_some_iff.mpr rfl, hsplit,
      splitOnce_append _ hkey, Option.bind_some, valueFor, if_pos rfl,
      Option.map_some, unquoted]
    cases (stripPrefix (utf8 "'") value).bind (stripSuffix (utf8 "'")) <;> rfl
  · have hnone : stripPrefix (utf8 "sender=") (trim part) = none := by
      rw [Option.eq_none_iff_forall_ne_some]
      intro rest h
      exact hsender ⟨rest, (stripPrefix_eq_some_iff.mp h).symm⟩
    have hnone' : stripPrefix (utf8 "sender='") (trim part) = none := by
      rw [Option.eq_none_iff_forall_ne_some]
      intro rest h
      rw [stripPrefix_eq_some_iff, hquoted, List.append_assoc] at h
      exact hsender ⟨_, h.symm⟩
    rw [hnone, hnone']
    cases hsplit : splitOnce '='.toUInt8 (trim part) with
    | none => rfl
    | some pair =>
        obtain ⟨key, value⟩ := pair
        obtain ⟨heq, -⟩ := splitOnce_eq_some_iff.mp hsplit
        have hne : key ≠ utf8 "sender" := by
          rintro rfl
          exact hsender ⟨value, heq.symm⟩
        rw [Option.bind_some, valueFor, if_neg hne]
        rfl

/-- `parse_match_rule_sender` takes the first sender that is written. -/
theorem parseMatchRuleSender_eq (rule : Text) :
    parseMatchRuleSender rule
      = (writtenFor (utf8 "sender") rule).head?.map unquoted := by
  unfold parseMatchRuleSender writtenFor rulePairs
  rw [List.filterMap_filterMap, List.head?_filterMap, List.map_findSome?,
    funext senderOfPart_eq]
  rfl

end DbusRouter.Model
