/-
What the reads and writes of the host's handshake do.

One rule for each: the conversations it ends with a value in (`holds_…`), and
those it may have held so far (`begun_…`, `silent_…`). A line is heard up to
its end and a message by its own length, so the rules also say that nothing
behind is heard.
-/
import DbusRouter.Model.HostAuth
import DbusRouter.Proofs.Auth
import DbusRouter.Proofs.Readers

namespace DbusRouter.Model

open Wire Lib
open Dialog (Holds Begun hears)

-- ================================================================== reading

/-- What is computed between two reads is heard by nobody. -/
theorem holds_liftResult {α γ : Type} {x : Result α} {f : α → HostDialog γ}
    {t : List (Act UInt8)} {c : γ} :
    Holds (liftResult x >>= f) t (.ok c)
      ↔ ∃ a, x = .ok a ∧ Holds (f a) t (.ok c) := by
  unfold liftResult
  cases x with
  | ok a =>
      constructor
      · intro h
        exact ⟨a, rfl, h⟩
      · rintro ⟨a', ha, h⟩
        cases ha
        exact h
  | err e =>
      constructor
      · intro h
        cases h
      · rintro ⟨a, ha, -⟩
        cases ha
  | panic p =>
      constructor
      · intro h
        cases h
      · rintro ⟨a, ha, -⟩
        cases ha

/-- A put is written before anything else. -/
theorem holds_put {γ : Type} {bs : Bytes} {f : Unit → HostDialog γ}
    {t : List (Act UInt8)} {c : γ} :
    Holds (Dialog.put bs >>= f) t (.ok c)
      ↔ ∃ u, t = .wrote bs :: u ∧ Holds (f ()) u (.ok c) := by
  rw [Dialog.put_bind, Dialog.holds_write]

/-- Reading a number of bytes hears that many. -/
theorem holds_readExactOn {n : Nat} {t : List (Act UInt8)} {bs : Bytes} :
    Holds (readExactOn n) t (.ok bs) ↔ t = hears bs ∧ bs.length = n := by
  unfold readExactOn
  rw [Dialog.holds_bind]
  constructor
  · rintro ⟨u, v, x, rfl, hu, hv⟩
    cases x with
    | none => exact absurd hv Dialog.not_holds_fail
    | some cs =>
        obtain ⟨rfl, rfl⟩ := Dialog.holds_pure.mp hv
        obtain ⟨rfl, hlen⟩ := Dialog.holds_exactly.mp hu
        exact ⟨List.append_nil _, hlen⟩
  · rintro ⟨rfl, hlen⟩
    exact ⟨hears bs, [], some bs, (List.append_nil _).symm,
      Dialog.holds_exactly.mpr ⟨rfl, hlen⟩, Dialog.holds_pure.mpr ⟨rfl, rfl⟩⟩

/-- Reading into a buffer hears as many bytes as it has. -/
theorem holds_readBufOn {n : Nat} {t : List (Act UInt8)} {bs : Bytes} :
    Holds (readBufOn n) t (.ok bs) ↔ t = hears bs ∧ bs.length = n := by
  unfold readBufOn
  by_cases h : n = 0
  · rw [if_pos h, h, Dialog.holds_pure, List.length_eq_zero_iff]
    constructor
    · rintro ⟨rfl, rfl⟩
      exact ⟨rfl, rfl⟩
    · rintro ⟨rfl, rfl⟩
      exact ⟨rfl, rfl⟩
  · rw [if_neg h]
    exact holds_readExactOn

-- ==================================================================== lines

/-- The loop's turn is the one of the passthrough. -/
theorem readAuthLineOn_turn {room : Nat} {result : Bytes}
    (h : result.length + (room + 1) = authBufferSize) :
    readAuthLineOn (room + 1) result = .read fun byte =>
      match readAuthLine result byte with
      | .ok (.line line) => pure line
      | .ok (.more result) => readAuthLineOn room result
      | .err e => .fail e
      | .panic p => .done (.panic p) := by
  rw [readAuthLineOn, Dialog.get_bind]
  congr 1
  funext byte
  cases byte with
  | none => rfl
  | some b =>
      have hlen : (result ++ [b]).length = result.length + 1 :=
        List.length_append
      simp only [readAuthLine]
      by_cases hends : endsLine (result ++ [b]) = true
      · rw [if_pos hends, if_pos hends]
      · rw [if_neg hends, if_neg hends]
        by_cases hroom : (result ++ [b]).length ≥ authBufferSize
        · have hzero : room = 0 := by omega
          rw [if_pos hroom, hzero]
          rfl
        · rw [if_neg hroom]

/-- A line is heard up to its end, and within the room there is. -/
theorem holds_readAuthLineOn {room : Nat} {result line : Bytes}
    {t : List (Act UInt8)} (hne : line ≠ [])
    (hresult : Unfinished (fun w => endsLine w = true) result) :
    Holds (readAuthLineOn room result) t (.ok line)
      ↔ ∃ u, t = hears u ∧ line = result ++ u ∧ u.length ≤ room
        ∧ IsLine line := by
  induction room generalizing result t with
  | zero =>
      constructor
      · intro h
        cases h
      · rintro ⟨u, -, rfl, hu, hline⟩
        have hnil : u = [] := List.length_eq_zero_iff.mp (Nat.le_zero.mp hu)
        rw [hnil, List.append_nil] at hline
        exact absurd hline.1 (hresult result (List.prefix_refl _))
  | succ room ih =>
      rw [readAuthLineOn, Dialog.get_bind, Dialog.holds_read]
      constructor
      · rintro ⟨byte, v, rfl, h⟩
        cases byte with
        | none =>
            obtain ⟨-, hnil⟩ := Dialog.holds_pure.mp h
            exact absurd hnil hne
        | some b =>
            simp only at h
            by_cases hends : endsLine (result ++ [b]) = true
            · rw [if_pos hends] at h
              obtain ⟨rfl, rfl⟩ := Dialog.holds_pure.mp h
              exact ⟨[b], rfl, rfl, Nat.le_add_left ..,
                hresult.token_of_ends hends⟩
            · rw [if_neg hends] at h
              obtain ⟨u, rfl, hline, hu, htoken⟩ :=
                (ih (hresult.snoc hends)).mp h
              refine ⟨b :: u, rfl, ?_, Nat.succ_le_succ hu, htoken⟩
              rw [hline, List.append_assoc]
              rfl
      · rintro ⟨u, rfl, rfl, hu, hline⟩
        cases u with
        | nil =>
            rw [List.append_nil] at hline
            exact absurd hline.1 (hresult result (List.prefix_refl _))
        | cons b u =>
            refine ⟨some b, hears u, rfl, ?_⟩
            simp only
            have hsplit : result ++ b :: u = result ++ [b] ++ u := by
              rw [List.append_assoc]
              rfl
            by_cases hends : endsLine (result ++ [b]) = true
            · have heq : result ++ [b] = result ++ b :: u := by
                refine hline.2 _ ?_ hends
                rw [hsplit]
                exact List.prefix_append ..
              have hnil : u = [] := by
                rw [hsplit] at heq
                exact (List.self_eq_append_right.mp heq)
              rw [if_pos hends, hnil]
              exact Dialog.holds_pure.mpr ⟨rfl, rfl⟩
            · rw [if_neg hends, ih (hresult.snoc hends)]
              exact ⟨u, rfl, hsplit, Nat.le_of_succ_le_succ hu, hline⟩

/-- A line that fits the buffer of `read_auth_line`. -/
def IsAuthLine (line : Bytes) : Prop :=
  IsLine line ∧ line.length ≤ authBufferSize

instance (line : Bytes) : Decidable (IsAuthLine line) :=
  inferInstanceAs (Decidable (_ ∧ _))

/-- Reading a line hears it to its end. -/
theorem holds_readAuthLineString {t : List (Act UInt8)} {text : Text} :
    Holds readAuthLineString t (.ok text)
      ↔ ∃ line, IsAuthLine line ∧ t = hears line
        ∧ text = fromUtf8Lossy line := by
  have hnil : Unfinished (fun w => endsLine w = true) ([] : Bytes) :=
    unfinished_nil (by decide)
  unfold readAuthLineString
  rw [Dialog.holds_bind]
  constructor
  · rintro ⟨u, v, line, rfl, hu, hv⟩
    by_cases hempty : line.isEmpty = true
    · rw [if_pos hempty] at hv
      exact absurd hv Dialog.not_holds_fail
    · rw [if_neg hempty] at hv
      obtain ⟨rfl, rfl⟩ := Dialog.holds_pure.mp hv
      have hne : line ≠ [] := by
        intro h
        exact hempty (List.isEmpty_iff.mpr h)
      obtain ⟨w, rfl, rfl, hlen, hline⟩ :=
        (holds_readAuthLineOn hne hnil).mp hu
      exact ⟨line, ⟨hline, hlen⟩, List.append_nil _, rfl⟩
  · rintro ⟨line, ⟨hline, hlen⟩, rfl, rfl⟩
    refine ⟨hears line, [], line, (List.append_nil _).symm, ?_, ?_⟩
    · exact (holds_readAuthLineOn hline.ne_nil hnil).mpr
        ⟨line, rfl, rfl, hlen, hline⟩
    · rw [if_neg (by rw [List.isEmpty_iff]; exact hline.ne_nil)]
      exact Dialog.holds_pure.mpr ⟨rfl, rfl⟩

-- ================================================================= messages

/-- A message is heard as `readMessage` reads it off a stream. -/
theorem holds_readMessageOn {z : Zvariant} {t : List (Act UInt8)}
    {msg : Message} :
    Holds (readMessageOn z) t (.ok (some msg))
      ↔ ∃ u, t = hears u ∧ readMessage z u = .ok (some msg, []) := by
  unfold readMessageOn
  rw [Dialog.holds_bind]
  constructor
  · rintro ⟨w, v, start, rfl, hw, hv⟩
    cases start with
    | none =>
        obtain ⟨-, hsome⟩ := Dialog.holds_pure.mp hv
        cases hsome
    | some start =>
        obtain ⟨rfl, hstart⟩ := Dialog.holds_exactly.mp hw
        obtain ⟨w₁, v₁, rest, rfl, hw₁, hv₁⟩ := Dialog.holds_bind.mp hv
        obtain ⟨rfl, hrest⟩ := holds_readExactOn.mp hw₁
        obtain ⟨p, hp, hp₁⟩ := holds_liftResult.mp hv₁
        obtain ⟨w₂, v₂, fields, rfl, hw₂, hv₂⟩ := Dialog.holds_bind.mp hp₁
        obtain ⟨rfl, hfields⟩ := holds_readExactOn.mp hw₂
        obtain ⟨w₃, v₃, padding, rfl, hw₃, hv₃⟩ := Dialog.holds_bind.mp hv₂
        obtain ⟨rfl, hpadding⟩ := holds_readBufOn.mp hw₃
        obtain ⟨w₄, v₄, body, rfl, hw₄, hv₄⟩ := Dialog.holds_bind.mp hv₃
        obtain ⟨rfl, hbody⟩ := holds_readBufOn.mp hw₄
        obtain ⟨rfl, hmsg⟩ := Dialog.holds_pure.mp hv₄
        refine ⟨start ++ (rest ++ (fields ++ (padding ++ (body ++ [])))),
          ?_, ?_⟩
        · simp only [Dialog.hears_append]
          rfl
        · rw [readMessage_append z hstart, readExact_append hrest,
            Outcome.ok_bind]
          simp only
          rw [hp, Outcome.ok_bind, readExact_append hfields,
            Outcome.ok_bind]
          simp only
          rw [readExact_append hpadding, Outcome.ok_bind]
          simp only
          rw [readExact_append hbody, Outcome.ok_bind, hmsg]
  · rintro ⟨u, rfl, h⟩
    unfold readMessage at h
    split at h
    next => cases h
    next => cases h
    next start s hs =>
      obtain ⟨rfl, hstart⟩ := readExact_eq_ok hs
      obtain ⟨⟨rest, s₁⟩, hs₁, h₁⟩ := Outcome.bind_eq_ok h
      obtain ⟨rfl, hrest⟩ := readExact_eq_ok hs₁
      obtain ⟨p, hp, h₂⟩ := Outcome.bind_eq_ok h₁
      obtain ⟨⟨fields, s₂⟩, hs₂, h₃⟩ := Outcome.bind_eq_ok h₂
      obtain ⟨rfl, hfields⟩ := readExact_eq_ok hs₂
      obtain ⟨⟨padding, s₃⟩, hs₃, h₄⟩ := Outcome.bind_eq_ok h₃
      rw [readBuf_eq] at hs₃
      obtain ⟨rfl, hpadding⟩ := readExact_eq_ok hs₃
      obtain ⟨⟨body, s₄⟩, hs₄, h₅⟩ := Outcome.bind_eq_ok h₄
      rw [readBuf_eq] at hs₄
      obtain ⟨rfl, hbody⟩ := readExact_eq_ok hs₄
      simp only [Outcome.ok.injEq, Prod.mk.injEq, Option.some.injEq] at h₅
      obtain ⟨rfl, rfl⟩ := h₅
      simp only [Dialog.hears_append]
      refine ⟨_, _, some start, rfl,
        Dialog.holds_exactly.mpr ⟨rfl, hstart⟩, ?_⟩
      refine Dialog.holds_bind.mpr ⟨_, _, rest, rfl,
        holds_readExactOn.mpr ⟨rfl, hrest⟩, ?_⟩
      refine holds_liftResult.mpr ⟨p, hp, ?_⟩
      refine Dialog.holds_bind.mpr ⟨_, _, fields, rfl,
        holds_readExactOn.mpr ⟨rfl, hfields⟩, ?_⟩
      refine Dialog.holds_bind.mpr ⟨_, _, padding, rfl,
        holds_readBufOn.mpr ⟨rfl, hpadding⟩, ?_⟩
      refine Dialog.holds_bind.mpr ⟨_, _, body, rfl,
        holds_readBufOn.mpr ⟨rfl, hbody⟩, ?_⟩
      exact Dialog.holds_pure.mpr ⟨rfl, rfl⟩

/-- What `readMessage` reads is the frame the stream begins with. -/
theorem readMessage_eq_some {z : Zvariant} {s more : Bytes} {msg : Message} :
    readMessage z s = .ok (some msg, more)
      ↔ ∃ f : Frame, s = f.bytes ++ more ∧ msg = f.message z [] := by
  constructor
  · intro h
    obtain ⟨fs, rest, hs, hrest⟩ := exists_frames s
    cases fs with
    | nil =>
        have hs' : s = rest := hs
        rw [hs'] at h
        by_cases hlen : rest.length < fixedHeaderSize
        · rw [readMessage_short z hlen] at h
          cases h
        · obtain ⟨e, he⟩ := readMessage_rest z hrest (Nat.not_lt.mp hlen)
          rw [he] at h
          cases h
    | cons f fs =>
        rw [List.flatMap_cons, List.append_assoc] at hs
        rw [hs, readMessage_frame] at h
        simp only [Outcome.ok.injEq, Prod.mk.injEq, Option.some.injEq] at h
        obtain ⟨rfl, rfl⟩ := h
        exact ⟨f, hs, rfl⟩
  · rintro ⟨f, rfl, rfl⟩
    exact readMessage_frame z f more

/-- A frame is heard, and nothing behind it. -/
theorem holds_readMessageOn_frame {z : Zvariant} {t : List (Act UInt8)}
    {msg : Message} :
    Holds (readMessageOn z) t (.ok (some msg))
      ↔ ∃ f : Frame, t = hears f.bytes ∧ msg = f.message z [] := by
  rw [holds_readMessageOn]
  constructor
  · rintro ⟨u, rfl, h⟩
    obtain ⟨f, rfl, hmsg⟩ := readMessage_eq_some.mp h
    exact ⟨f, by rw [List.append_nil], hmsg⟩
  · rintro ⟨f, rfl, hmsg⟩
    refine ⟨f.bytes, rfl, readMessage_eq_some.mpr ⟨f, ?_, hmsg⟩⟩
    rw [List.append_nil]

/-- Text that is looked at for ASCII letters may be repaired first. -/
theorem startsWith_lossy {p : Text} (hp : ∀ c ∈ p, c < 0x80) (bs : Bytes) :
    startsWith p (fromUtf8Lossy bs) = startsWith p bs := by
  induction p generalizing bs with
  | nil =>
      unfold startsWith
      rw [List.isPrefixOf_nil_left, List.isPrefixOf_nil_left]
  | cons c p ih =>
      have hc : c < 0x80 := hp c (List.mem_cons_self ..)
      cases bs with
      | nil => rfl
      | cons b bs =>
          unfold startsWith at ih ⊢
          by_cases hb : c = b
          · have hchar : utf8Char b bs = (true, 1) := by
              unfold utf8Char
              rw [if_pos (hb ▸ hc)]
            have hlossy : fromUtf8Lossy (b :: bs)
                = b :: fromUtf8Lossy bs := by
              unfold fromUtf8Lossy
              rw [lossyFrom, hchar]
            rw [hlossy, List.isPrefixOf_cons_cons, List.isPrefixOf_cons_cons,
              ih (fun d hd => hp d (List.mem_cons_of_mem _ hd))]
          · -- what is repaired begins with `b` or with the replacement
            have hhead : ∃ d rest, fromUtf8Lossy (b :: bs) = d :: rest
                ∧ (d = b ∨ d = 0xEF) := by
              unfold fromUtf8Lossy
              rw [lossyFrom]
              split
              next w _ => exact ⟨b, _, rfl, Or.inl rfl⟩
              next k _ => exact ⟨0xEF, _, rfl, Or.inr rfl⟩
            obtain ⟨d, rest, hd, hor⟩ := hhead
            have hne : (c == d) = false := by
              rw [beq_eq_false_iff_ne]
              rcases hor with rfl | rfl
              · exact hb
              · intro h
                rw [h] at hc
                exact absurd hc (by decide)
            rw [hd, List.isPrefixOf_cons_cons, List.isPrefixOf_cons_cons, hne,
              beq_eq_false_iff_ne.mpr hb]
            rfl

-- ================================================================== so far

/-- Nothing is written while bytes are read. -/
theorem silent_readExactOn (n : Nat) : (readExactOn n).Silent := by
  refine (Dialog.silent_exactly n).bind fun x => ?_
  cases x with
  | none => trivial
  | some bs => trivial

/-- Nothing is written while a buffer is filled. -/
theorem silent_readBufOn (n : Nat) : (readBufOn n).Silent := by
  unfold readBufOn
  split
  · trivial
  · exact silent_readExactOn n

/-- Nothing is written while a line is read. -/
theorem silent_readAuthLineOn (room : Nat) (result : Bytes) :
    (readAuthLineOn room result).Silent := by
  induction room generalizing result with
  | zero => trivial
  | succ room ih =>
      intro byte
      cases byte with
      | none => trivial
      | some b =>
          show (if endsLine (result ++ [b]) then pure (result ++ [b])
            else readAuthLineOn room (result ++ [b]) : HostDialog _).Silent
          split
          · trivial
          · exact ih _

/-- Nothing is written while a line is read and decoded. -/
theorem silent_readAuthLineString : readAuthLineString.Silent := by
  refine (silent_readAuthLineOn _ _).bind fun line => ?_
  split
  · trivial
  · trivial

/-- Nothing is written while a message is read. -/
theorem silent_readMessageOn (z : Zvariant) : (readMessageOn z).Silent := by
  refine (Dialog.silent_exactly _).bind fun start => ?_
  cases start with
  | none => trivial
  | some start =>
      refine (silent_readExactOn _).bind fun rest => ?_
      refine Dialog.Silent.bind (by trivial) fun p => ?_
      refine (silent_readExactOn _).bind fun fields => ?_
      refine (silent_readBufOn _).bind fun padding => ?_
      exact (silent_readBufOn _).bind fun body => trivial

/-- A put has not been made, or is the first act. -/
theorem begun_put {γ : Type} {bs : Bytes} {f : Unit → HostDialog γ}
    {t : List (Act UInt8)} (h : Begun (Dialog.put bs >>= f) t) :
    t = [] ∨ ∃ u, t = .wrote bs :: u ∧ Begun (f ()) u := by
  rw [Dialog.put_bind] at h
  cases h with
  | nil =>
      left
      rfl
  | write _ h =>
      right
      exact ⟨_, rfl, h⟩

/-- A line is waited for, or has been heard. -/
theorem begun_readAuthLineString {γ : Type} {f : Text → HostDialog γ}
    {t : List (Act UInt8)} (h : Begun (readAuthLineString >>= f) t) :
    Dialog.written t = [] ∨ ∃ line v, IsAuthLine line
      ∧ t = hears line ++ v ∧ Begun (f (fromUtf8Lossy line)) v := by
  rcases h.of_bind with h | ⟨u, v, text, rfl, hu, hv⟩
  · left
    exact silent_readAuthLineString.written_eq h
  · right
    obtain ⟨line, hline, rfl, rfl⟩ := holds_readAuthLineString.mp hu
    exact ⟨line, v, hline, rfl, hv⟩

end DbusRouter.Model
