/-
A merged list of names, answered once.

`answerers` lists the buses that have answered a call, in the order of
their answers, and everything else is a function of that list: what the
session remembers of the call (`mergeState`), and what has been written in
reply to it (`mergeWrites`). A step that is no answer changes neither, and
an answer moves both on by one (`merged_run`). The two orders in which both
buses may answer come to the same reply.

The one thing a run has to promise is that nothing but an answer touches
the merge: `processMergeResponse` takes any message with its serial, also a
signal. `names_of_signal` is a run where one spoils the reply.
-/
import DbusRouter.Proofs.Answers

namespace DbusRouter.Model

open Wire Lib

-- ===================================================================== answers

/-- The bus an event comes from. -/
def Event.source : Event → Option Bus
  | .client _ => none
  | .bus b _ => some b

/-- The buses that answer the serial `n`, in the order of their answers. -/
def answerers (n : Nat) (t : List (Event × List Write)) : List Bus :=
  t.filterMap fun x => if x.1.isAnswer n then x.1.source else none

/-- What is written in reply to the serial `n`. -/
def repliesWritten (z : Zvariant) (n : Nat) (t : List (Event × List Write)) :
    List Write :=
  t.flatMap fun x => x.2.filter (repliesTo z n)

@[simp] theorem answerers_snoc (n : Nat) (t : List (Event × List Write))
    (ev : Event) (ws : List Write) :
    answerers n (t ++ [(ev, ws)]) = answerers n t
      ++ (if ev.isAnswer n then ev.source else none).toList := by
  unfold answerers
  rw [List.filterMap_append]
  cases h : (if ev.isAnswer n then ev.source else none) with
  | none => simp [h]
  | some b => simp [h]

@[simp] theorem repliesWritten_snoc (z : Zvariant) (n : Nat)
    (t : List (Event × List Write)) (ev : Event) (ws : List Write) :
    repliesWritten z n (t ++ [(ev, ws)])
      = repliesWritten z n t ++ ws.filter (repliesTo z n) := by
  unfold repliesWritten
  simp

/-- The body of a message is the array of the names. -/
def HoldsNames (e : Endian) (raw : Bytes) (names : List Text) : Prop :=
  ∃ start, HasBody e raw start (marshal e start (namesValue names))
    ∧ Valid e ⟨0, 0, 0⟩ start (namesValue names)

/-- Each bus answers `n` at most once, with a METHOD_RETURN that holds its
names. -/
structure AnsweredWith (names : Bus → List Text) (n : Nat)
    (t : List (Event × List Write)) : Prop where
  once : (answerers n t).Nodup
  holds : ∀ b r ws, (.bus b r, ws) ∈ t →
    (Event.bus b r).isAnswer n = true → r.header.msgType = .methodReturn
      ∧ HoldsNames r.header.endian r.raw (names b)

/-- A METHOD_RETURN to `n` that lists the names. -/
def ListsNames (z : Zvariant) (n : Nat) (names : List Text) (w : Write) :
    Prop :=
  ∃ h, headerOf z w.raw = .ok h ∧ h.msgType = .methodReturn
    ∧ h.replySerial = some n ∧ h.signature = some (utf8 "as")
    ∧ HoldsNames h.endian w.raw names

/-- Nothing has been written in reply to `n` before both buses have
answered; one reply that lists the names of both, and no merge left, once
they have. -/
def Session.MergedOnce (z : Zvariant) (s : Session) (n : Nat)
    (names : Bus → List Text) (t : List (Event × List Write)) : Prop :=
  if .host ∈ answerers n t ∧ .sandbox ∈ answerers n t then
    (∃ w, repliesWritten z n t = [w] ∧ w.peer = .client ∧ ListsNames z n
        (mergeListNames (names .host) (names .sandbox)) w)
      ∧ s.pendingMerges n = none
  else repliesWritten z n t = [] ∧ (s.pendingMerges n).isSome = true

-- ================================================================ the two lists

theorem HoldsNames.parse {z : Zvariant} {msg : Message} {names : List Text}
    (hs : z.StringsFollowSpec)
    (h : HoldsNames msg.header.endian msg.raw names) :
    parseStringArray z msg = .ok names := by
  obtain ⟨start, hbody, hvalid⟩ := h
  have hlen := hbody.length
  have hpos : 4 ≤ (marshal msg.header.endian start (namesValue names)).length
      := by
    unfold namesValue
    rw [marshal]
    simp only [List.length_append, Endian.bytes_length]
    omega
  unfold parseStringArray Message.bodyStart
  rw [hbody.start_eq, Outcome.ok_bind, if_neg (by omega),
    sliceFrom_ok (by omega), Outcome.ok_bind, hbody.drop,
    hs.strings_eq _ _ _ hvalid]
  rfl

/-- An array of names is valid when each name is and they fit. -/
theorem valid_namesValue {e : Endian} {p : Nat} {names : List Text}
    (hlen : (marshalAll e (alignUp 4 (alignUp 4 p + 4))
      (names.map .str)).length ≤ 2 ^ 26)
    (hstr : ∀ s ∈ names, IsStr s) :
    Valid e ⟨0, 0, 0⟩ p (namesValue names) := by
  have hall : ∀ (n : Nest) (q : Nat),
      ValidAll e n q (names.map Value.str) := by
    intro n
    clear hlen
    induction names with
    | nil => exact fun _ => trivial
    | cons s names ih =>
        intro q
        rw [List.map_cons, ValidAll, Valid]
        exact ⟨hstr s (by simp), ih (fun x hx => hstr x (by simp [hx])) _⟩
  unfold namesValue
  rw [Valid]
  refine ⟨by unfold Nest.Ok Nest.inArray; simp, trivial, ?_, hlen, hall _ _⟩
  intro v hv
  obtain ⟨s, -, rfl⟩ := List.mem_map.mp hv
  rfl

/-- The strings of an array within the limits are strings, and short. -/
theorem isStr_of_valid {e : Endian} {n : Nest} {s : Text}
    {names : List Text} : ∀ {p : Nat},
      ValidAll e n p (names.map .str) → s ∈ names →
      IsStr s ∧ s.length ≤ (marshalAll e p (names.map .str)).length := by
  induction names with
  | nil =>
      intro p _ hs
      cases hs
  | cons x names ih =>
      intro p hvalid hs
      rw [List.map_cons, ValidAll, Valid] at hvalid
      obtain ⟨hx, hrest⟩ := hvalid
      rw [List.map_cons, marshalAll, List.length_append]
      rcases List.mem_cons.mp hs with rfl | hs
      · refine ⟨hx, ?_⟩
        rw [marshal, List.length_append, strBytes_length]
        omega
      · obtain ⟨hstr, hlen⟩ := ih hrest hs
        exact ⟨hstr, by omega⟩

theorem HoldsNames.isStr {e : Endian} {raw : Bytes} {names : List Text}
    (h : HoldsNames e raw names) {s : Text} (hs : s ∈ names) (b : Bus) :
    IsStr (prefixUnique b s) := by
  obtain ⟨start, -, hvalid⟩ := h
  unfold namesValue at hvalid
  rw [Valid] at hvalid
  obtain ⟨-, -, -, hlen, hall⟩ := hvalid
  obtain ⟨hstr, hle⟩ := isStr_of_valid hall hs
  unfold prefixUnique
  split
  next => exact isStr_toFakeName hstr b (by omega)
  next => exact hstr

theorem mem_foldl_mergeName {x : Text} {keys : List Text} :
    ∀ {result : List Text}, x ∈ keys.foldl mergeName result →
      x ∈ result ∨ x ∈ keys := by
  induction keys with
  | nil => exact fun hx => Or.inl hx
  | cons key keys ih =>
      intro result hx
      rw [List.foldl_cons] at hx
      rcases ih hx with hx | hx
      · unfold mergeName at hx
        split at hx
        next => exact Or.inl hx
        next =>
          rcases List.mem_append.mp hx with hx | hx
          · exact Or.inl hx
          · exact Or.inr (List.mem_cons.mpr (Or.inl
              (List.mem_singleton.mp hx)))
      · exact Or.inr (List.mem_cons_of_mem _ hx)

/-- A merged name is a name of one of the buses, with its prefix. -/
theorem mem_mergeListNames {x : Text} {host sandbox : List Text}
    (h : x ∈ mergeListNames host sandbox) :
    (∃ s ∈ host, x = prefixUnique .host s)
      ∨ ∃ s ∈ sandbox, x = prefixUnique .sandbox s := by
  unfold mergeListNames at h
  rcases mem_foldl_mergeName h with hx | hx
  · rcases mem_foldl_mergeName hx with hx | hx
    · cases hx
    · obtain ⟨s, hs, rfl⟩ := List.mem_map.mp hx
      exact Or.inr ⟨s, hs, rfl⟩
  · obtain ⟨s, hs, rfl⟩ := List.mem_map.mp hx
    exact Or.inl ⟨s, hs, rfl⟩

-- ===================================================================== the reply

/-- The names of both buses, as they are merged. -/
def mergedNames (names : Bus → List Text) : List Text :=
  mergeListNames (names .host) (names .sandbox)

/-- The body of the merged reply. -/
def mergedBody (call : Message) (names : Bus → List Text) : Bytes :=
  marshal call.header.endian 0 (namesValue (mergedNames names))

/-- The merged reply. -/
def mergedWrite (call : Message) (names : Bus → List Text) : Write :=
  ⟨.client, replyBytes call (mergedBody call names), []⟩

/-- A reply whose body fits is a frame. -/
theorem exists_frame_replyBytes (request : Message) {body : Bytes}
    (h : body.length ≤ 2 ^ 26) :
    ∃ f : Frame, f.bytes = replyBytes request body
      ∧ f.endian = request.header.endian ∧ f.ty = 2 ∧ f.body = body
      ∧ f.array = marshalFields request.header.endian 16
        (replyFields request.header.serial) := by
  refine ⟨⟨request.header.endian, 2, 1,
    (request.header.serial + 1000000) % 2 ^ 32,
    marshalFields request.header.endian 16
      (replyFields request.header.serial), _, body,
    Nat.mod_lt _ (by norm_num), replyFields_length _ _, h,
    zeros_length _⟩, ?_, rfl, rfl, rfl, rfl⟩
  unfold Frame.bytes Frame.fixed replyBytes
  rw [Nat.mod_eq_of_lt (show body.length < 2 ^ 32 by omega)]

/-- The body of a reply that lists names holds them. -/
theorem holdsNames_replyBytes {request : Message} {names : List Text}
    (hfit : (marshal request.header.endian 0 (namesValue names)).length
      ≤ 2 ^ 26)
    (hvalid : Valid request.header.endian ⟨0, 0, 0⟩ 0 (namesValue names)) :
    HoldsNames request.header.endian
      (replyBytes request (marshal request.header.endian 0
        (namesValue names))) names := by
  obtain ⟨f, hbytes, he, -, hbody, -⟩ := exists_frame_replyBytes request hfit
  -- an offset that is a multiple of eight marshals as zero does
  obtain ⟨c, hc⟩ : ∃ c, f.bodyStart = 0 + 8 * c := by
    have hmod := alignUp_mod isAlign_eight (16 + f.array.length)
    rw [← add_padTo8] at hmod
    unfold Frame.bodyStart
    exact ⟨(16 + f.array.length + padTo8 (16 + f.array.length)) / 8,
      by omega⟩
  have hhas := f.hasBody
  rw [hbytes, hbody, he] at hhas
  refine ⟨f.bodyStart, ?_, ?_⟩
  · rw [hc, marshal_shift, ← hc]
    exact hhas
  · rw [hc, valid_shift]
    exact hvalid

/-- The merged reply lists the merged names. -/
theorem listsNames_mergedWrite {z : Zvariant} {call : Message}
    {names : Bus → List Text} (hz : z.FollowsSpec)
    (hserial : call.header.serial < 2 ^ 32)
    (hfit : (mergedBody call names).length ≤ 2 ^ 26)
    (hvalid : Valid call.header.endian ⟨0, 0, 0⟩ 0
      (namesValue (mergedNames names))) :
    ListsNames z call.header.serial (mergedNames names)
      (mergedWrite call names) := by
  obtain ⟨f, hbytes, he, hty, -, harray⟩ :=
    exists_frame_replyBytes call hfit
  have hfields : parseHeaderFields z f.array f.endian
      = .ofFields (replyFields call.header.serial) := by
    unfold parseHeaderFields
    rw [harray, he, (hz.fields_iff _ _ _ (replyFields_length _ _)).mpr
      ⟨⟨replyFields_valid _ hserial, rfl⟩, replyFields_taken z _⟩]
  refine ⟨f.header z, ?_, ?_, ?_, ?_, ?_⟩
  · show headerOf z (replyBytes call (mergedBody call names)) = _
    rw [← hbytes]
    exact f.headerOf_bytes z
  · show MessageType.ofByte f.ty = _
    rw [hty]
    rfl
  · show (parseHeaderFields z f.array f.endian).replySerial = _
    rw [hfields]
    rfl
  · show (parseHeaderFields z f.array f.endian).signature = _
    rw [hfields]
    rfl
  · show HoldsNames f.endian _ _
    rw [he]
    exact holdsNames_replyBytes hfit hvalid

-- ================================================================== the answers

/-- An answer is no service call. -/
theorem not_serviceCall_of_reply {s : Session} {msg : Message} {b : Bus}
    (h : msg.header.isReply = true) :
    s.isIncomingServiceCall msg b = false := by
  by_contra hcall
  rw [Bool.not_eq_false] at hcall
  have hty := msgType_of_serviceCall hcall
  unfold MessageHeader.isReply at h
  rw [hty] at h
  cases h

/-- The first answer is kept. -/
theorem merge_first {L : Libs} {s s' : Session} {r : Message} {b : Bus}
    {n : Nat} {ws : List Write} {call : Message} {names : List Text}
    (h : s.handleUpstreamMessage L r b = .ok (s', ws))
    (hreply : r.header.isReply = true) (hn : r.header.replySerial = some n)
    (hp : s.pendingMerges n = some ⟨call, none⟩)
    (hnames : parseStringArray L.zvariant r = .ok names) :
    s'.pendingMerges n = some ⟨call, some (b, names)⟩ ∧ ws = [] := by
  unfold Session.handleUpstreamMessage at h
  rw [not_serviceCall_of_reply hreply] at h
  simp only [processMergeResponse, hn, hp, hnames, Outcome.orElse_ok,
    Outcome.ok_bind, Bool.false_eq_true, if_false] at h
  cases h
  exact ⟨PMap.insert_self _ _ _, rfl⟩

/-- The second one completes the merge. -/
theorem merge_second {L : Libs} {s s' : Session} {r : Message} {b c : Bus}
    {n : Nat} {ws : List Write} {call : Message} {names first : List Text}
    (h : s.handleUpstreamMessage L r b = .ok (s', ws))
    (hreply : r.header.isReply = true) (hn : r.header.replySerial = some n)
    (hp : s.pendingMerges n = some ⟨call, some (c, first)⟩)
    (hnames : parseStringArray L.zvariant r = .ok names) :
    s'.pendingMerges n = none ∧ ∃ response,
      (buildListNamesResponse L.zvariant call (if c = .host
        then mergeListNames first names
        else mergeListNames names first)).orElse r.raw = .ok response
      ∧ ws = [⟨.client, response, []⟩] := by
  unfold Session.handleUpstreamMessage at h
  rw [not_serviceCall_of_reply hreply] at h
  simp only [processMergeResponse, hn, hp, hnames, Outcome.orElse_ok,
    Outcome.ok_bind, Bool.false_eq_true, if_false] at h
  obtain ⟨x, hx, h⟩ := Outcome.bind_eq_ok h
  obtain ⟨response, hbuild, hx⟩ := Outcome.bind_eq_ok hx
  cases hx
  obtain ⟨ws', hws, h⟩ := Outcome.bind_eq_ok h
  cases h
  exact ⟨PMap.remove_self _ _, response, hbuild, send_eq_ok hws⟩

-- ======================================================================== the run

/-- What the session remembers of a call that these buses have answered. -/
def mergeState (call : Message) (names : Bus → List Text) :
    List Bus → Option PendingMerge
  | [] => some ⟨call, none⟩
  | [b] => some ⟨call, some (b, names b)⟩
  | _ => none

/-- What has been written in reply to it. -/
def mergeWrites (call : Message) (names : Bus → List Text) :
    List Bus → List Write
  | [] => []
  | [_] => []
  | _ => [mergedWrite call names]

/-- Two different buses are the two there are, and their names are merged
alike in either order. -/
theorem merge_either {names : Bus → List Text} {b c : Bus} (h : c ≠ b) :
    (if c = .host then mergeListNames (names c) (names b)
      else mergeListNames (names b) (names c)) = mergedNames names := by
  unfold mergedNames
  cases b with
  | host =>
      cases c with
      | host => exact absurd rfl h
      | sandbox => rfl
  | sandbox =>
      cases c with
      | host => rfl
      | sandbox => exact absurd rfl h

/-- There are no three different buses. -/
theorem no_third {b c d : Bus} {bs : List Bus} :
    ¬(c :: d :: bs ++ [b]).Nodup := by
  intro h
  cases b <;> cases c <;> cases d <;> simp at h

/-- The names of both buses make a valid array, if it fits. -/
theorem valid_mergedNames {call : Message} {names : Bus → List Text}
    (hfit : (mergedBody call names).length ≤ 2 ^ 26)
    (hstr : ∀ (b : Bus), ∀ s ∈ names b, IsStr (prefixUnique b s)) :
    Valid call.header.endian ⟨0, 0, 0⟩ 0 (namesValue (mergedNames names)) := by
  apply valid_namesValue
  · unfold mergedBody namesValue at hfit
    rw [marshal] at hfit
    simp only [List.length_append] at hfit
    show (marshalAll _ (alignUp Ty.str.align _) _).length ≤ _
    omega
  · intro x hx
    rcases mem_mergeListNames hx with ⟨s, hs, rfl⟩ | ⟨s, hs, rfl⟩
    · exact hstr .host s hs
    · exact hstr .sandbox s hs

theorem ListsNames.repliesTo {z : Zvariant} {n : Nat} {names : List Text}
    {w : Write} (h : ListsNames z n names w) (hpeer : w.peer = .client) :
    repliesTo z n w = true := by
  obtain ⟨hd, hh, hty, hn, -⟩ := h
  unfold Model.repliesTo MessageHeader.isReply
  rw [hpeer, hh]
  simp [hty, hn]

section run

variable {L : Libs} {n : Nat} {call : Message} {names : Bus → List Text}
  {s s' : Session} {b : Bus} {r : Message} {ws : List Write}

/-- An answer moves on what is remembered and what has been written. -/
theorem merged_answer {bs : List Bus} (hz : L.zvariant.FollowsSpec)
    (hs : L.zvariant.StringsFollowSpec)
    (hserial : call.header.serial < 2 ^ 32)
    (hfit : (mergedBody call names).length ≤ 2 ^ 26)
    (hstep : s.Step L (.bus b r) ws s')
    (hanswer : (Event.bus b r).isAnswer call.header.serial = true)
    (hholds : HoldsNames r.header.endian r.raw (names b))
    (hstr : ∀ d ∈ bs ++ [b], ∀ x ∈ names d, IsStr (prefixUnique d x))
    (hnodup : (bs ++ [b]).Nodup)
    (hp : s.pendingMerges call.header.serial = mergeState call names bs) :
    s'.pendingMerges call.header.serial = mergeState call names (bs ++ [b])
      ∧ mergeWrites call names bs
          ++ ws.filter (repliesTo L.zvariant call.header.serial)
        = mergeWrites call names (bs ++ [b]) := by
  unfold Event.isAnswer at hanswer
  rw [Bool.and_eq_true, beq_iff_eq] at hanswer
  obtain ⟨hreply, hn⟩ := hanswer
  have hnames := hholds.parse hs
  rcases bs with _ | ⟨c, _ | ⟨d, bs⟩⟩
  · obtain ⟨hp', rfl⟩ := merge_first hstep.2 hreply hn hp hnames
    exact ⟨hp', rfl⟩
  · have hne : c ≠ b := by
      rintro rfl
      simp at hnodup
    obtain ⟨hp', response, hbuild, rfl⟩ :=
      merge_second hstep.2 hreply hn hp hnames
    rw [merge_either hne] at hbuild
    have hvalid := valid_mergedNames hfit fun d x hx => by
      refine hstr d ?_ x hx
      cases b <;> cases c <;> cases d <;> simp at hne ⊢
    have hresponse : response = replyBytes call (mergedBody call names) := by
      unfold buildListNamesResponse at hbuild
      rw [hs.encodeStrings_eq _ _ _ hvalid] at hbuild
      have hbody : buildMethodReturn L.zvariant call
          (mergedBody call names) [.array .str]
          = .ok (replyBytes call (mergedBody call names)) :=
        buildMethodReturn_eq hz hserial _
      change (buildMethodReturn L.zvariant call (mergedBody call names)
        [.array .str]).orElse r.raw = _ at hbuild
      rw [hbody, Outcome.orElse_ok] at hbuild
      cases hbuild
      rfl
    have hwrite : (⟨.client, response, []⟩ : Write)
        = mergedWrite call names := by
      rw [hresponse]
      rfl
    have hlists := listsNames_mergedWrite hz hserial hfit hvalid
    refine ⟨hp', ?_⟩
    rw [hwrite, List.filter_cons_of_pos (hlists.repliesTo rfl)]
    rfl
  · exact absurd hnodup no_third

/-- An event that is no answer, and no message of the client's under the
same serial, changes neither. -/
theorem merged_other {ev : Event} (hz : L.zvariant.FollowsSpec)
    (hstep : s.Step L ev ws s') (hmerges : s.MergesKept L.zvariant)
    (hkeeps : s.KeepsAnswers ev)
    (hfresh : ∀ m, ev = .client m → m.header.serial ≠ n)
    (hno : ev.isAnswer n = false) :
    s'.pendingMerges n = s.pendingMerges n
      ∧ ws.filter (repliesTo L.zvariant n) = [] := by
  have hcount : ws.countP (repliesTo L.zvariant n) = 0
      ∧ s'.pendingMerges n = s.pendingMerges n := by
    cases ev with
    | client m =>
        have hd := downstream_of_ok hstep.2
        refine ⟨countP_downstream hd n, ?_⟩
        rcases downstream_merges hd with ⟨-, hm⟩ | ⟨hm, -⟩
        · rw [hm, PMap.insert_of_ne]
          exact (hfresh m rfl).symm
        · rw [hm]
    | bus b msg => exact bus_not_answer hz hstep hmerges hkeeps hno
  refine ⟨hcount.2, ?_⟩
  rw [List.countP_eq_length_filter, List.length_eq_zero_iff] at hcount
  exact hcount.1

end run

theorem mem_answerers {n : Nat} {t : List (Event × List Write)} {b : Bus}
    (h : b ∈ answerers n t) :
    ∃ r ws, (.bus b r, ws) ∈ t ∧ (Event.bus b r).isAnswer n = true := by
  unfold answerers at h
  obtain ⟨⟨ev, ws⟩, hmem, hsource⟩ := List.mem_filterMap.mp h
  simp only at hsource
  split at hsource
  next hanswer =>
    cases ev with
    | client m => cases hsource
    | bus b' r =>
        cases hsource
        exact ⟨r, ws, hmem, hanswer⟩
  next => cases hsource

/-- The answers of a shorter run are among those of a longer one. -/
theorem AnsweredWith.of_append {names : Bus → List Text} {n : Nat}
    {t : List (Event × List Write)} {x : Event × List Write}
    (h : AnsweredWith names n (t ++ [x])) : AnsweredWith names n t where
  once := by
    obtain ⟨ev, ws⟩ := x
    have honce := h.once
    rw [answerers_snoc] at honce
    exact (List.nodup_append.mp honce).1
  holds b r ws hmem := h.holds b r ws (List.mem_append_left _ hmem)

/-- After any run, what is remembered of the call and what has been written
in reply to it depend on who has answered. -/
theorem merged_run {L : Libs} {config : Config} {exe : Option Bytes}
    {t₁ t₂ : List (Event × List Write)} {s₁ s₂ : Session} {call : Message}
    {names : Bus → List Text} (hz : L.zvariant.FollowsSpec)
    (hs : L.zvariant.StringsFollowSpec)
    (hserial : call.header.serial < 2 ^ 32)
    (hfit : (mergedBody call names).length ≤ 2 ^ 26)
    (hbefore : Run L (Session.new config exe) t₁ s₁)
    (hp : s₁.pendingMerges call.header.serial = some ⟨call, none⟩)
    (hrun : Steps (Meeting (Session.Step L) Session.KeepsAnswers) s₁ t₂ s₂)
    (hfresh : ∀ m ws, (.client m, ws) ∈ t₂ →
      m.header.serial ≠ call.header.serial)
    (hanswers : AnsweredWith names call.header.serial t₂) :
    s₂.pendingMerges call.header.serial
        = mergeState call names (answerers call.header.serial t₂)
      ∧ repliesWritten L.zvariant call.header.serial t₂
        = mergeWrites call names (answerers call.header.serial t₂) := by
  induction hrun with
  | nil => exact ⟨hp, rfl⟩
  | @snoc t m ev ws m' hrun hstep ih =>
      obtain ⟨hkeeps, hstep⟩ := hstep
      obtain ⟨hpending, hwritten⟩ := ih
        (fun c ws' hmem => hfresh c ws' (List.mem_append_left _ hmem))
        hanswers.of_append
      have hlast : (ev, ws) ∈ t ++ [(ev, ws)] := by
        simp
      rw [answerers_snoc, repliesWritten_snoc, hwritten]
      cases hanswer : ev.isAnswer call.header.serial with
      | false =>
          have hkept := mergesKept_run (hbefore.append hrun.of_meeting)
          obtain ⟨hsame, hnone⟩ := merged_other hz hstep hkept hkeeps
            (fun c hc => hfresh c ws (by rw [← hc]; exact hlast)) hanswer
          rw [hsame, hnone, hpending]
          simp
      | true =>
          cases ev with
          | client c => cases hanswer
          | bus b r =>
              have hsource : (if true = true then (Event.bus b r).source
                  else none).toList = [b] := rfl
              have honce := hanswers.once
              rw [answerers_snoc, hanswer, hsource] at honce
              rw [hsource]
              refine merged_answer hz hs hserial hfit hstep hanswer
                (hanswers.holds b r ws hlast hanswer).2 ?_ honce hpending
              intro d hd x hx
              have hmem : d ∈ answerers call.header.serial
                  (t ++ [(.bus b r, ws)]) := by
                rw [answerers_snoc, hanswer, hsource]
                exact hd
              obtain ⟨r', ws', hr', hanswer'⟩ := mem_answerers hmem
              exact (hanswers.holds d r' ws' hr' hanswer').2.isStr hx d

/-- Every call for the names of both buses is answered once, with the merged
names, when both have answered it and not before. -/
theorem merged_once {L : Libs} {config : Config} {exe : Option Bytes}
    {t₁ t₂ : List (Event × List Write)} {s s₁ s₂ : Session}
    {call : Message} {ws : List Write} {names : Bus → List Text}
    (hz : L.zvariant.FollowsSpec) (hs : L.zvariant.StringsFollowSpec)
    (hbefore : Run L (Session.new config exe) t₁ s)
    (hcall : s.Step L (.client call) ws s₁)
    (hty : call.header.msgType = .methodCall)
    (hroute : routeRequest L.glob config call exe = .ok .merge)
    (hrun : Steps (Meeting (Session.Step L) Session.KeepsAnswers) s₁ t₂ s₂)
    (hfresh : ∀ m ws, (.client m, ws) ∈ t₂ →
      m.header.serial ≠ call.header.serial)
    (hanswers : AnsweredWith names call.header.serial t₂)
    (hfit : (mergedBody call names).length ≤ 2 ^ 26) :
    s₂.MergedOnce L.zvariant call.header.serial names t₂ := by
  have hacc : call.Accepted L.zvariant := hcall.1
  obtain ⟨hconfig, hexe⟩ := run_config hbefore
  have hp : s₁.pendingMerges call.header.serial = some ⟨call, none⟩ := by
    rcases downstream_merges (downstream_of_ok hcall.2) with ⟨-, hm⟩ |
      ⟨-, hno⟩
    · rw [hm, PMap.insert_self]
    · rw [hconfig, hexe] at hno
      exact absurd hroute (hno hty)
  obtain ⟨hpending, hwritten⟩ := merged_run hz hs hacc.serial_lt hfit
    (hbefore.append (Steps.single hcall)) hp hrun hfresh hanswers
  have hnodup := hanswers.once
  unfold Session.MergedOnce
  rw [hpending, hwritten]
  generalize hbs : answerers call.header.serial t₂ = bs at hnodup
  rcases bs with _ | ⟨c, _ | ⟨d, bs⟩⟩
  · simp [mergeState, mergeWrites]
  · cases c <;> simp [mergeState, mergeWrites]
  · have hboth : .host ∈ c :: d :: bs ∧ .sandbox ∈ c :: d :: bs := by
      cases c <;> cases d <;> simp at hnodup ⊢
    rw [if_pos hboth]
    have hvalid := valid_mergedNames hfit fun b x hx => by
      have hmem : b ∈ answerers call.header.serial t₂ := by
        rw [hbs]
        cases b
        · exact hboth.1
        · exact hboth.2
      obtain ⟨r, ws', hr, hanswer⟩ := mem_answerers hmem
      exact (hanswers.holds b r ws' hr hanswer).2.isStr hx b
    exact ⟨⟨mergedWrite call names, rfl, rfl,
      listsNames_mergedWrite hz hacc.serial_lt hfit hvalid⟩, rfl⟩

-- ================================================================= one of each

/-- Every call for the names of both buses is answered once. -/
def MergeExactlyOnce : Prop :=
  ∀ (L : Libs) (config : Config) (exe : Option Bytes)
    (t₁ t₂ : List (Event × List Write)) (s s₁ s₂ : Session)
    (call : Message) (ws : List Write) (names : Bus → List Text),
    L.zvariant.FollowsSpec → L.zvariant.StringsFollowSpec →
    Run L (Session.new config exe) t₁ s → s.Step L (.client call) ws s₁ →
    call.header.msgType = .methodCall →
    routeRequest L.glob config call exe = .ok .merge → Run L s₁ t₂ s₂ →
    (∀ m ws, (.client m, ws) ∈ t₂ →
      m.header.serial ≠ call.header.serial) →
    AnsweredWith names call.header.serial t₂ →
    s₂.MergedOnce L.zvariant call.header.serial names t₂

/-- A call for the names of both buses. -/
def namesCall : Message :=
  .compose 1 5
    [(1, .objectPath (utf8 "/org/freedesktop/DBus")), (2, .str busName),
     (3, .str (utf8 "ListActivatableNames")), (6, .str busName)] [] []

/-- The session that waits for them. -/
def namesAsked : Session :=
  (Session.new sandboxOnly none).after referenceLibs [.client namesCall]

/-- The names on each bus. -/
def namesOn : Bus → List Text
  | .host => [busName, utf8 ":1.5"]
  | .sandbox => [busName, utf8 ":1.7"]

/-- A bus's answer. -/
def namesAnswer (b : Bus) : Message :=
  daemonReply 9 5 (marshal .little 0 (namesValue (namesOn b)))

/-- A signal of a peer that has the call's serial in it. -/
def straySignal : Message :=
  .compose 4 8
    [(1, .objectPath (utf8 "/")), (2, .str (utf8 "org.a")),
     (3, .str (utf8 "Changed")), (5, .fixed .uint32 5),
     (7, .str (utf8 ":1.5"))] [] []

theorem holdsNames_answer (b : Bus) :
    HoldsNames (namesAnswer b).header.endian (namesAnswer b).raw
      (namesOn b) := by
  cases b
  all_goals
    refine ⟨64, ⟨by decide +kernel, by decide +kernel, ?_⟩, by decide +kernel⟩
    decide +kernel

/-- Where the answers are these, and each of them comes once, they are
answers to the call. -/
theorem answeredWith_namesOn {s : Session} {evs : List Event}
    (h : ∀ ev ∈ evs, ∀ b r, ev = .bus b r → ev.isAnswer 5 = true →
      r = namesAnswer b)
    (honce : (answerers 5 (s.trace referenceLibs evs)).Nodup) :
    AnsweredWith namesOn 5 (s.trace referenceLibs evs) where
  once := honce
  holds b r ws hmem hanswer := by
    obtain rfl := h _ (mem_of_mem_trace hmem) b r rfl hanswer
    exact ⟨rfl, holdsNames_answer b⟩

theorem namesAsked_step : (Session.new sandboxOnly none).Step referenceLibs
    (.client namesCall) ((Session.new sandboxOnly none).react referenceLibs
      (.client namesCall)).2 namesAsked :=
  step_react (by decide +kernel) (by decide +kernel)

/-- The signal comes before the answers. -/
def spoiltAnswers : List Event :=
  [.bus .host straySignal, .bus .host (namesAnswer .host),
   .bus .sandbox (namesAnswer .sandbox)]

/-- The signal is taken for the host's answer, and the sandbox's answer is
written as a second reply. -/
theorem names_of_signal : ¬MergeExactlyOnce := by
  intro h
  have hrun : Run referenceLibs namesAsked
      (namesAsked.trace referenceLibs spoiltAnswers) _ :=
    (run_trace (C := fun _ _ => True) (by decide +kernel) (by decide +kernel)
      fun _ _ _ _ => trivial).of_meeting
  have hanswers : AnsweredWith namesOn 5
      (namesAsked.trace referenceLibs spoiltAnswers) := by
    refine answeredWith_namesOn ?_ (by decide +kernel)
    unfold spoiltAnswers
    simp only [List.forall_mem_cons]
    refine ⟨?_, ?_, ?_, by simp⟩
    · intro b r hev hanswer
      cases hev
      cases hanswer
    · intro b r hev _
      cases hev
      rfl
    · intro b r hev _
      cases hev
      rfl
  have hmerged := h referenceLibs sandboxOnly none [] _ _ namesAsked _
    namesCall _ namesOn Zvariant.reference_followsSpec
    Zvariant.reference_stringsFollowSpec .nil namesAsked_step rfl
    (by decide +kernel) hrun ?_ hanswers
  · have hboth : Bus.host ∈ answerers 5
        (namesAsked.trace referenceLibs spoiltAnswers)
      ∧ Bus.sandbox ∈ answerers 5
        (namesAsked.trace referenceLibs spoiltAnswers) := by
      decide +kernel
    unfold Session.MergedOnce at hmerged
    rw [show namesCall.header.serial = 5 from rfl, if_pos hboth] at hmerged
    obtain ⟨⟨w, hone, -⟩, -⟩ := hmerged
    have htwo : (repliesWritten .reference 5
        (namesAsked.trace referenceLibs spoiltAnswers)).length = 2 := by
      decide +kernel
    have hlen := congrArg List.length hone
    rw [show (repliesWritten referenceLibs.zvariant 5 _).length = 2 from
      htwo] at hlen
    cases hlen
  · intro m ws hmem
    have hev := mem_of_mem_trace hmem
    simp [spoiltAnswers] at hev

/-- Both answers and nothing else. -/
def sandboxFirst : List Event :=
  [.bus .sandbox (namesAnswer .sandbox), .bus .host (namesAnswer .host)]

theorem merged_once_sandbox_first :
    (namesAsked.after referenceLibs sandboxFirst).MergedOnce .reference 5
      namesOn (namesAsked.trace referenceLibs sandboxFirst) := by
  have hkeeps : ∀ ev ∈ sandboxFirst, ∀ s : Session, s.KeepsAnswers ev := by
    simp only [sandboxFirst, List.forall_mem_cons]
    exact ⟨fun s => keepsAnswers_daemonReply s _ _ _ _,
      fun s => keepsAnswers_daemonReply s _ _ _ _, by simp⟩
  have hanswers : AnsweredWith namesOn 5
      (namesAsked.trace referenceLibs sandboxFirst) := by
    refine answeredWith_namesOn ?_ (by decide +kernel)
    simp only [sandboxFirst, List.forall_mem_cons]
    refine ⟨?_, ?_, by simp⟩
    · intro b r hev _
      cases hev
      rfl
    · intro b r hev _
      cases hev
      rfl
  refine merged_once (L := referenceLibs)
    Zvariant.reference_followsSpec Zvariant.reference_stringsFollowSpec
    .nil namesAsked_step rfl (by decide +kernel)
    (run_trace (by decide +kernel) (by decide +kernel) ?_) ?_ hanswers
    (by decide +kernel)
  · intro u ev v hev
    refine hkeeps ev ?_ _
    rw [hev]
    simp
  · intro m ws hmem
    have hev := mem_of_mem_trace hmem
    simp [sandboxFirst] at hev

end DbusRouter.Model
