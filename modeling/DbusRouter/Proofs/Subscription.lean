/-
Subscriptions.

A client that has been shown a connection subscribes to it by the name it was
shown, and matches what it is sent against its own rule. The rule that is
written to the connection's bus has the connection's name instead. What the
keys of a rule stand for is the bus's business (`Matching`): of the sender it
compares the name, and no other key looks at it. Then the translation keeps the
meaning of the rule (`matches_named`): the bus selects a letter exactly when
the client selects it as it is shown, and of the other bus's letters the client
would select none, so the rule is written where it is needed and nowhere else
(`subscription_served`).
-/
import DbusRouter.Proofs.Letter
import DbusRouter.Proofs.Translated

namespace DbusRouter.Model

open Wire Lib

-- ==================================================================== a rule

/-- No character of a name ends a quoted value. -/
def Quotable (name : Text) : Prop :=
  ∀ b ∈ name, b ≠ '\''.toUInt8 ∧ b ≠ ','.toUInt8

/-- The pair with another value if it is for the sender. -/
def RulePair.named (name : Text) (hname : Quotable name) (p : RulePair) :
    RulePair :=
  if p.key = utf8 "sender" then
    { p with value := name, value_plain := hname }
  else p

section pairs

variable {name : Text} {hname : Quotable name} {p : RulePair}

/-- A pair keeps its key. -/
theorem RulePair.named_key : (p.named name hname).key = p.key := by
  unfold RulePair.named
  split <;> rfl

/-- The one of the sender gets the name. -/
theorem RulePair.named_value (hkey : p.key = utf8 "sender") :
    (p.named name hname).value = name := by
  unfold RulePair.named
  rw [if_pos hkey]

/-- A pair of another key keeps its value. -/
theorem RulePair.named_of_ne (hkey : p.key ≠ utf8 "sender") :
    p.named name hname = p := by
  unfold RulePair.named
  rw [if_neg hkey]

/-- The pair of a sender is the text that is replaced. -/
theorem RulePair.text_sender (hkey : p.key = utf8 "sender") :
    p.text = senderText p.value := by
  unfold RulePair.text
  rw [hkey, senderText_key, List.append_assoc]
  rfl

/-- The value of the only pair for the sender. -/
theorem value_of_sender {pairs : List RulePair} {sender : Text}
    (hsender : valuesOf (utf8 "sender") pairs = [sender]) (hp : p ∈ pairs)
    (hkey : p.key = utf8 "sender") : p.value = sender := by
  have hmem : p.value ∈ valuesOf (utf8 "sender") pairs := by
    apply List.mem_map_of_mem
    rw [List.mem_filter]
    exact ⟨hp, by simp [hkey]⟩
  rw [hsender] at hmem
  exact List.mem_singleton.mp hmem

/-- A rule with one sender has a pair with it. -/
theorem exists_sender {pairs : List RulePair} {sender : Text}
    (hsender : valuesOf (utf8 "sender") pairs = [sender]) :
    ∃ p ∈ pairs, p.key = utf8 "sender" ∧ p.value = sender := by
  have hmem : sender ∈ valuesOf (utf8 "sender") pairs := by
    rw [hsender]
    exact List.mem_singleton_self _
  obtain ⟨p, hp, hvalue⟩ := List.mem_map.mp hmem
  obtain ⟨hp, hkey⟩ := List.mem_filter.mp hp
  exact ⟨p, hp, by simpa using hkey, hvalue⟩

end pairs

/-- The rule that is forwarded is the rule with the connection's name for its
sender. -/
theorem forwardedRule_ruleText {pairs : List RulePair} {u : Text} {b : Bus}
    (hu : isUniqueName u = true)
    (hsender : valuesOf (utf8 "sender") pairs = [toFakeName u b])
    (hkeys : ∀ p ∈ pairs, p.key ≠ utf8 "sender" →
      ¬utf8 "sender" <:+ p.key)
    (hname : Quotable u) :
    forwardedRule (ruleText pairs)
      = ruleText (pairs.map (RulePair.named u hname)) := by
  obtain ⟨y, hy⟩ := isUniqueName_iff.mp hu
  have hshown : toFakeName u b = fakePrefix b ++ y := by
    rw [toFakeName_of_unique hu, hy]
    rfl
  have hne : pairs ≠ [] := by
    intro hnil
    rw [hnil] at hsender
    cases hsender
  have hfirst : parseMatchRuleSender (ruleText pairs)
      = some (toFakeName u b) := by
    rw [parseMatchRuleSender_eq, writtenFor_ruleText hne, hsender]
    exact congrArg some (unquoted_quote _)
  rw [forwardedRule_of_some hfirst hshown, ← hy]
  symm
  apply Replaced.eq_replace (senderText_ne _)
  have hcomma : ','.toUInt8 ∉ senderText (toFakeName u b) := by
    apply comma_not_mem_senderText
    obtain ⟨p, -, -, hvalue⟩ := exists_sender hsender
    rw [← hvalue]
    exact fun h => (p.value_plain _ h).2 rfl
  apply Replaced.intercalate hcomma (senderText_ne _)
  rw [List.map_map, List.forall₂_map_left_iff, List.forall₂_map_right_iff,
    List.forall₂_same]
  intro p hp
  by_cases hkey : p.key = utf8 "sender"
  · rw [Function.comp_apply, RulePair.text_sender hkey,
      value_of_sender hsender hp hkey,
      RulePair.text_sender (RulePair.named_key.trans hkey),
      RulePair.named_value hkey]
    have hhit : Replaced (senderText (toFakeName u b)) (senderText u)
        (senderText (toFakeName u b) ++ []) (senderText u ++ []) := .hit .nil
    simpa using hhit
  · rw [Function.comp_apply, RulePair.named_of_ne hkey]
    apply Replaced.of_not_infix
    intro hin
    apply hkeys p hp hkey
    exact sender_of_quoted_pair (fun h => (p.key_plain _ h).1 rfl)
      (fun h => (p.value_plain _ h).1 rfl) hin

-- ================================================================== its meaning

/-- What a pair of a rule asks of a letter. -/
structure Matching where
  holds : Text → Text → Letter → Prop
  /-- the name of a connection is compared with the sender -/
  sender_iff : ∀ (name : Text) (l : Letter), isUniqueName name = true →
    (holds (utf8 "sender") name l ↔ l.header.sender = some name)
  /-- no other key looks at the sender -/
  blind : ∀ (key value name : Text) (l : Letter), key ≠ utf8 "sender" →
    (holds key value (l.put 7 name) ↔ holds key value l)

/-- A letter that a rule selects. -/
def Matching.Matches (M : Matching) (pairs : List RulePair) (l : Letter) :
    Prop :=
  ∀ p ∈ pairs, M.holds p.key p.value l

/-- What a letter from a connection needs to be shown as from it. -/
def Letter.Showable (l : Letter) : Prop :=
  ∀ v, l.header.sender = some v → isUniqueName v = true →
    WellPlaced 7 l.fields

section meaning

variable {M : Matching} {l : Letter} {u : Text} {b b' : Bus}

/-- The letters that are shown as from a connection of a bus are those of that
connection and that bus. -/
theorem Letter.shown_sender_iff (hl : l.Showable)
    (hu : isUniqueName u = true) :
    (l.shown b').header.sender = some (toFakeName u b)
      ↔ b' = b ∧ l.header.sender = some u := by
  cases hs : l.header.sender with
  | none =>
      have hshown : l.shown b' = l := by
        unfold Letter.shown
        rw [hs]
      rw [hshown, hs]
      simp
  | some v =>
      by_cases hv : isUniqueName v = true
      · rw [Letter.shown_sender b' hs hv (hl v hs hv), Option.some.injEq,
          Option.some.injEq]
        constructor
        · intro heq
          have hname := congrArg fromFakeName heq
          rw [fromFakeName_toFakeName hv, fromFakeName_toFakeName hu] at hname
          cases hname
          exact ⟨rfl, rfl⟩
        · intro h
          rw [h.1, h.2]
      · have hshown : l.shown b' = l := by
          unfold Letter.shown
          simp only [hs]
          rw [if_neg hv]
        rw [hshown, hs, Option.some.injEq, Option.some.injEq]
        constructor
        · intro heq
          rw [heq, isUniqueName_of_getBus
            (getBusFromFakeName_toFakeName hu b)] at hv
          exact absurd rfl hv
        · intro h
          rw [h.2] at hv
          exact absurd hu hv

/-- Other keys see the letter as it is. -/
theorem Matching.holds_shown {key value : Text}
    (hkey : key ≠ utf8 "sender") :
    M.holds key value (l.shown b) ↔ M.holds key value l := by
  unfold Letter.shown
  cases l.header.sender with
  | none => exact Iff.rfl
  | some v =>
      by_cases hv : isUniqueName v = true
      · simp only [if_pos hv]
        exact M.blind key value (toFakeName v b) l hkey
      · simp only [if_neg hv]

section rule

variable {pairs : List RulePair}

/-- The rule with the connection's name selects a letter of its bus exactly
when the rule with the name that is shown selects it as it is shown. -/
theorem matches_named (hu : isUniqueName u = true)
    (hsender : valuesOf (utf8 "sender") pairs = [toFakeName u b])
    (hname : Quotable u) (hl : l.Showable) :
    M.Matches (pairs.map (RulePair.named u hname)) l
      ↔ M.Matches pairs (l.shown b) := by
  unfold Matching.Matches
  rw [List.forall_mem_map]
  apply forall₂_congr
  intro p hp
  rw [RulePair.named_key]
  by_cases hkey : p.key = utf8 "sender"
  · have hfake : isUniqueName (toFakeName u b) = true :=
      isUniqueName_of_getBus (getBusFromFakeName_toFakeName hu b)
    rw [RulePair.named_value hkey, value_of_sender hsender hp hkey, hkey,
      M.sender_iff u l hu, M.sender_iff _ _ hfake,
      Letter.shown_sender_iff hl hu]
    simp
  · rw [RulePair.named_of_ne hkey]
    exact (Matching.holds_shown hkey).symm

/-- As it is shown, no letter of the other bus is selected. -/
theorem not_matches_other (hu : isUniqueName u = true)
    (hsender : valuesOf (utf8 "sender") pairs = [toFakeName u b])
    (hl : l.Showable) (hb : b' ≠ b) :
    ¬M.Matches pairs (l.shown b') := by
  intro hmatches
  obtain ⟨p, hp, hkey, hvalue⟩ := exists_sender hsender
  have hfake : isUniqueName (toFakeName u b) = true :=
    isUniqueName_of_getBus (getBusFromFakeName_toFakeName hu b)
  have hholds := hmatches p hp
  rw [hkey, hvalue, M.sender_iff _ _ hfake,
    Letter.shown_sender_iff hl hu] at hholds
  exact hb hholds.1

end rule

end meaning

-- ================================================================== subscribing

/-- The name of a connection that a rule names is quotable like the name it is
shown under. -/
theorem quotable_of_sender {pairs : List RulePair} {u : Text} {b : Bus}
    (hu : isUniqueName u = true)
    (hsender : valuesOf (utf8 "sender") pairs = [toFakeName u b]) :
    Quotable u := by
  obtain ⟨p, -, -, hvalue⟩ := exists_sender hsender
  obtain ⟨y, rfl⟩ := isUniqueName_iff.mp hu
  intro c hc
  rcases List.mem_append.mp hc with hcolon | hy
  · rw [List.mem_singleton.mp hcolon]
    decide
  · apply p.value_plain c
    rw [hvalue, toFakeName_of_unique hu]
    exact List.mem_append_right _ hy

section call

variable {L : Libs} {s : Session} {msg : Message} {pairs : List RulePair}
  {u : Text} {b : Bus}

/-- A call with a rule is one of the daemon about it. -/
theorem Message.RuleCall.daemonCall {rule : Text} (h : msg.RuleCall rule)
    (hinterface : msg.header.interface = some busName) :
    msg.DaemonCall rule where
  call := h.call
  destination := h.destination
  interface := hinterface
  string := by rw [h.body, stringIn_strBytes _ h.text.2.2]
  text := h.text.1

/-- A rule with a connection's name is routed to the bus of the connection. -/
theorem routeRequest_rule (hu : isUniqueName u = true)
    (hsender : valuesOf (utf8 "sender") pairs = [toFakeName u b])
    (hpass : isHostpass L.glob s.config s.clientExePath = false)
    (hacc : msg.Accepted L.zvariant)
    (hcall : msg.DaemonCall (ruleText pairs))
    (hmember : msg.header.member.any isMatchRuleMember = true) :
    routeRequest L.glob s.config msg s.clientExePath = .ok (.single b) := by
  have hroute : routeDbusMethod s.config msg
      = .ok (routeMatchRule s.config (ruleText pairs)) := by
    rw [Option.any_eq_true] at hmember
    obtain ⟨member, hm, hrule⟩ := hmember
    obtain ⟨spec, hspec, hby⟩ := spec_of_matchRule hrule
    unfold routeDbusMethod Message.extractStringFromBody
    rw [hm, Option.getD_some]
    simp only [hspec, hby, hcall.extract hacc, Outcome.ok_bind]
  rw [hcall.route hpass, hroute, Outcome.ok.injEq,
    routeMatchRule_eq_single_iff]
  unfold RuleLeads
  rw [parseMatchRule_sender hsender, Option.bind_some,
    getBusFromFakeName_toFakeName hu b]

end call

-- =========================================================== a bus that matches

/-- Headers that differ in the sender do so behind fields with another one. -/
theorem EqUpToSender.foldl_replaced {r r' : ParsedHeaderFields}
    (h : EqUpToSender r r') (name : Text) (fs : List Field) :
    EqUpToSender (fs.foldl ParsedHeaderFields.enter r)
      ((replaced 7 name fs).foldl ParsedHeaderFields.enter r') := by
  induction fs generalizing r r' with
  | nil => exact h
  | cons f fs ih =>
      apply ih
      obtain ⟨x, rfl⟩ := h
      by_cases h7 : f.1 = 7
      · obtain ⟨c, v⟩ := f
        cases h7
        exact ⟨some name, rfl⟩
      · simp only [if_neg h7]
        exact ⟨x, enter_setSender h7 x⟩

/-- A letter with another sender's name has another sender and is the same
otherwise. -/
theorem Letter.header_put (l : Letter) (name : Text) :
    ∃ x, (l.put 7 name).header = { l.header with sender := x } := by
  obtain ⟨x, hx⟩ := EqUpToSender.foldl_replaced ⟨_, rfl⟩ name l.fields
    (r := .empty)
  refine ⟨x, ?_⟩
  unfold Letter.header Letter.put ParsedHeaderFields.ofFields
  rw [hx]
  rfl

/-- The message types as rules have them. -/
def MessageType.ruleText : MessageType → Text
  | .methodCall => utf8 "method_call"
  | .methodReturn => utf8 "method_return"
  | .error => utf8 "error"
  | .signal => utf8 "signal"
  | .invalid => []

/-- What a letter has for a key that is about its header. -/
def MessageHeader.ruleValue (header : MessageHeader) (key : Text) :
    Option Text :=
  if key = utf8 "type" then some header.msgType.ruleText
  else if key = utf8 "sender" then header.sender
  else if key = utf8 "interface" then header.interface
  else if key = utf8 "member" then header.member
  else if key = utf8 "path" then header.path
  else if key = utf8 "destination" then header.destination
  else none

/-- A bus that goes by the header. -/
def headerMatching : Matching where
  holds key value l := l.header.ruleValue key = some value
  sender_iff name l _ := Iff.rfl
  blind key value name l hkey := by
    obtain ⟨x, hx⟩ := l.header_put name
    rw [hx]
    unfold MessageHeader.ruleValue
    simp only [if_neg hkey]

/-- The name stands in quotes as it is. -/
theorem quotable_watched : Quotable (utf8 ":h.1.5") := by
  unfold Quotable
  decide +kernel

/-- Signals of the host's `:1.5`. -/
def watchedPairs : List RulePair :=
  ruleOfA.map (RulePair.named (utf8 ":h.1.5") quotable_watched)

end DbusRouter.Model
