/-
The name lists of the two buses: merged, and written as a reply.

The two loops of the merge share one set of the names seen, so the merge is
what is left of the two prefixed lists, the sandbox's first, when each name
is kept where it occurs first (`mergeListNames_eq`). Two unique names with
their prefixes are the same only when they are the same name of the same
bus, and none is a well-known name, so nothing that differs on the buses is
taken for a repetition.

The reply is one frame however many names there are: its body is at offset
0 of its own encoding and 8-aligned in the message, which no padding inside
it can tell apart (`marshal_shift`). What bounds it is the decoder, which
refuses a body of more than 64 MiB: an array may have that many bytes, but
its length stands in front of them.
-/
import DbusRouter.Proofs.Merged

namespace DbusRouter.Model

open Wire Lib

-- =================================================================== merging

/-- A name is added behind the others unless it is there. -/
theorem mergeName_eq (result : List Text) (key : Text) :
    mergeName result key = if key ∈ result then result else result ++ [key]
    := by
  unfold mergeName
  simp only [List.contains_iff_mem]

/-- Adding it keeps a list without repetitions. -/
theorem nodup_mergeName {result : List Text} (h : result.Nodup)
    (key : Text) : (mergeName result key).Nodup := by
  rw [mergeName_eq]
  split
  · exact h
  next hkey =>
    rw [List.nodup_append]
    refine ⟨h, by simp, ?_⟩
    intro x hx y hy
    rw [List.mem_singleton.mp hy]
    rintro rfl
    exact hkey hx

/-- Adding many names keeps a list without repetitions. -/
theorem nodup_foldl_mergeName (keys : List Text) :
    ∀ {result : List Text}, result.Nodup →
      (keys.foldl mergeName result).Nodup := by
  induction keys with
  | nil => exact fun h => h
  | cons key keys ih => exact fun h => ih (nodup_mergeName h key)

/-- Each name is kept where it occurs first. -/
theorem foldl_mergeName_eq (keys : List Text) :
    ∀ result : List Text, result.Nodup →
      keys.foldl mergeName result
        = result ++ (keys.filter (· ∉ result)).eraseDups := by
  induction keys with
  | nil =>
      intro result _
      simp
  | cons key keys ih =>
      intro result hnodup
      rw [List.foldl_cons, ih _ (nodup_mergeName hnodup key), mergeName_eq]
      by_cases hkey : key ∈ result
      · rw [if_pos hkey, List.filter_cons_of_neg (by simpa using hkey)]
      · rw [if_neg hkey, List.filter_cons_of_pos (by simpa using hkey),
          List.eraseDups_cons, List.append_assoc, List.singleton_append,
          List.filter_filter]
        congr 3
        apply List.filter_congr
        intro x _
        by_cases hx : x = key
        · simp [hx]
        · simp [hx]

/-- The merge, without the set of the names seen. -/
theorem mergeListNames_eq (host sandbox : List Text) :
    mergeListNames host sandbox
      = (sandbox.map (prefixUnique .sandbox)).eraseDups
        ++ ((host.map (prefixUnique .host)).filter
            (· ∉ sandbox.map (prefixUnique .sandbox))).eraseDups := by
  have hsandbox := foldl_mergeName_eq (sandbox.map (prefixUnique .sandbox))
    [] List.nodup_nil
  have hnodup := nodup_foldl_mergeName
    (sandbox.map (prefixUnique .sandbox)) List.nodup_nil
  rw [List.filter_eq_self.mpr (by simp), List.nil_append] at hsandbox
  unfold mergeListNames
  rw [foldl_mergeName_eq _ _ hnodup, hsandbox]
  congr 2
  apply List.filter_congr
  intro x _
  simp only [List.mem_eraseDups]

/-- A unique name is prefixed. -/
theorem prefixUnique_of_unique {u : Text} (h : isUniqueName u = true)
    (b : Bus) : prefixUnique b u = toFakeName u b := by
  rw [prefixUnique, if_pos h]

/-- A name that is not unique is left alone. -/
theorem prefixUnique_of_not_unique {w : Text} (h : isUniqueName w = false)
    (b : Bus) : prefixUnique b w = w := by
  rw [prefixUnique, h]
  rfl

/-- A prefixed name is still a unique one. -/
theorem isUniqueName_prefixUnique (b : Bus) (s : Text) :
    isUniqueName (prefixUnique b s) = isUniqueName s := by
  cases hs : isUniqueName s with
  | true =>
      rw [prefixUnique_of_unique hs]
      exact isUniqueName_of_getBus (getBusFromFakeName_toFakeName hs b)
  | false => rw [prefixUnique_of_not_unique hs, hs]

/-- The merge has the names of both buses and no others. -/
theorem mem_mergedNames {names : Bus → List Text} {x : Text} :
    x ∈ mergedNames names ↔ ∃ b, ∃ s ∈ names b, x = prefixUnique b s := by
  unfold mergedNames
  constructor
  · intro h
    rcases mem_mergeListNames h with hx | hx
    · exact ⟨.host, hx⟩
    · exact ⟨.sandbox, hx⟩
  · rintro ⟨b, s, hs, rfl⟩
    rw [mergeListNames_eq, List.mem_append, List.mem_eraseDups,
      List.mem_eraseDups, List.mem_filter]
    have hmem := List.mem_map_of_mem (f := prefixUnique b) hs
    cases b with
    | sandbox => exact .inl hmem
    | host =>
        by_cases hboth : prefixUnique .host s
            ∈ (names .sandbox).map (prefixUnique .sandbox)
        · exact .inl hboth
        · exact .inr ⟨hmem, by simpa using hboth⟩

/-- No name is listed twice. -/
theorem nodup_mergedNames (names : Bus → List Text) :
    (mergedNames names).Nodup :=
  nodup_foldl_mergeName _ (nodup_foldl_mergeName _ List.nodup_nil)

/-- A prefixed unique name is in the merge exactly when that bus lists the
unique name. -/
theorem toFakeName_mem_mergedNames {names : Bus → List Text} {u : Text}
    (hu : isUniqueName u = true) (b : Bus) :
    toFakeName u b ∈ mergedNames names ↔ u ∈ names b := by
  rw [mem_mergedNames]
  constructor
  · rintro ⟨c, s, hs, heq⟩
    have hunique : isUniqueName s = true := by
      rw [← isUniqueName_prefixUnique c, ← heq]
      exact isUniqueName_of_getBus (getBusFromFakeName_toFakeName hu b)
    rw [prefixUnique_of_unique hunique] at heq
    have hfrom := congrArg fromFakeName heq
    rw [fromFakeName_toFakeName hu, fromFakeName_toFakeName hunique] at hfrom
    cases hfrom
    exact hs
  · exact fun h => ⟨b, u, h, (prefixUnique_of_unique hu b).symm⟩

/-- So is a well-known name when some bus lists it. -/
theorem wellKnown_mem_mergedNames {names : Bus → List Text} {w : Text}
    (hw : isUniqueName w = false) :
    w ∈ mergedNames names ↔ ∃ b, w ∈ names b := by
  rw [mem_mergedNames]
  constructor
  · rintro ⟨b, s, hs, heq⟩
    rw [heq, isUniqueName_prefixUnique] at hw
    rw [prefixUnique_of_not_unique hw] at heq
    subst heq
    exact ⟨b, hs⟩
  · rintro ⟨b, hb⟩
    exact ⟨b, w, hb, (prefixUnique_of_not_unique hw b).symm⟩

/-- Merged name lists are complete and duplicate-free, in the order of
first occurrence with the sandbox's names in front, and the unique names
in them say which name of which bus each is. -/
theorem merge_complete (names : Bus → List Text) :
    let merged := mergeListNames (names .host) (names .sandbox)
    merged.Nodup
    ∧ (∀ w, isUniqueName w = false →
        (w ∈ merged ↔ w ∈ names .host ∨ w ∈ names .sandbox))
    ∧ (∀ u b, isUniqueName u = true →
        (toFakeName u b ∈ merged ↔ u ∈ names b))
    ∧ (∀ x ∈ merged, isUniqueName x = true →
        ∃ u b, isUniqueName u = true ∧ u ∈ names b ∧ x = toFakeName u b)
    ∧ (∀ u b, (u, b) ∈ (merged.filter isUniqueName).filterMap fromFakeName
        ↔ isUniqueName u = true ∧ u ∈ names b)
    ∧ merged = ((names .sandbox).map (prefixUnique .sandbox)).eraseDups
        ++ (((names .host).map (prefixUnique .host)).filter
          (· ∉ (names .sandbox).map (prefixUnique .sandbox))).eraseDups := by
  have horigin : ∀ x ∈ mergedNames names, isUniqueName x = true →
      ∃ u b, isUniqueName u = true ∧ u ∈ names b ∧ x = toFakeName u b := by
    intro x hx hunique
    obtain ⟨b, s, hs, rfl⟩ := mem_mergedNames.mp hx
    rw [isUniqueName_prefixUnique] at hunique
    exact ⟨s, b, hunique, hs, prefixUnique_of_unique hunique b⟩
  refine ⟨nodup_mergedNames names, fun w hw => ?_,
    fun u b hu => toFakeName_mem_mergedNames hu b, horigin, fun u b => ?_,
    mergeListNames_eq _ _⟩
  · have hmem : w ∈ mergedNames names ↔ ∃ b, w ∈ names b :=
      wellKnown_mem_mergedNames hw
    unfold mergedNames at hmem
    rw [hmem]
    constructor
    · rintro ⟨b, hb⟩
      cases b with
      | host => exact .inl hb
      | sandbox => exact .inr hb
    · rintro (h | h)
      · exact ⟨.host, h⟩
      · exact ⟨.sandbox, h⟩
  · rw [List.mem_filterMap]
    constructor
    · rintro ⟨x, hx, hfrom⟩
      rw [List.mem_filter] at hx
      obtain ⟨u', b', hu, hmem, rfl⟩ := horigin x hx.1 hx.2
      rw [fromFakeName_toFakeName hu] at hfrom
      cases hfrom
      exact ⟨hu, hmem⟩
    · rintro ⟨hu, hmem⟩
      refine ⟨toFakeName u b, ?_, fromFakeName_toFakeName hu b⟩
      rw [List.mem_filter]
      exact ⟨(toFakeName_mem_mergedNames hu b).mpr hmem,
        isUniqueName_of_getBus (getBusFromFakeName_toFakeName hu b)⟩

-- ================================================================== the reply

/-- What a reply with the names of a list decodes to. -/
structure RepliesWith (z : Zvariant) (request : Message) (names : List Text)
    (raw : Bytes) (p : Prologue) : Prop where
  parsed : Prologue.parse (raw.take minHeaderSize) = .ok p
  framed : p.totalLen = raw.length
  endian : p.endian = request.header.endian
  msgType : p.msgType = .methodReturn
  fields : parseHeaderFields z ((raw.drop minHeaderSize).take p.arrayLen)
      p.endian
    = { ParsedHeaderFields.empty with
        replySerial := some request.header.serial
        signature := some (utf8 "as") }
  names : ∀ fields fds,
    parseStringArray z ⟨p.intoHeader fields, raw, fds⟩ = .ok names

/-- The answer is the request's header turned around, and the list. -/
theorem buildListNamesResponse_eq {z : Zvariant} {request : Message}
    {names : List Text} (hz : z.FollowsSpec) (hs : z.StringsFollowSpec)
    (hserial : request.header.serial < 2 ^ 32)
    (hvalid : Valid request.header.endian ⟨0, 0, 0⟩ 0 (namesValue names)) :
    buildListNamesResponse z request names
      = .ok (replyBytes request
          (marshal request.header.endian 0 (namesValue names))) := by
  unfold buildListNamesResponse
  rw [hs.encodeStrings_eq _ _ _ hvalid]
  exact buildMethodReturn_eq hz hserial _

/-- The synthesised list reply decodes back, whatever the names, as long as
their array with its length is at most 64 MiB. -/
theorem buildListNamesResponse_decodes {z : Zvariant} {request : Message}
    {names : List Text} (hz : z.FollowsSpec) (hs : z.StringsFollowSpec)
    (hserial : request.header.serial < 2 ^ 32)
    (hnames : ∀ s ∈ names, IsStr s)
    (hfit : (marshal request.header.endian 0 (namesValue names)).length
      ≤ 2 ^ 26) :
    ∃ raw p, buildListNamesResponse z request names = .ok raw
      ∧ RepliesWith z request names raw p := by
  have hvalid : Valid request.header.endian ⟨0, 0, 0⟩ 0
      (namesValue names) := by
    refine valid_namesValue ?_ hnames
    unfold namesValue at hfit
    rw [marshal] at hfit
    simp only [List.length_append] at hfit
    show (marshalAll _ (alignUp Ty.str.align _) _).length ≤ _
    omega
  have hholds := holdsNames_replyBytes hfit hvalid
  obtain ⟨f, hbytes, he, hty, -, harray⟩ :=
    exists_frame_replyBytes request hfit
  rw [← hbytes, ← he] at hholds
  refine ⟨f.bytes, f.prologue, ?_, f.parse_bytes, f.totalLen_prologue, he,
    ?_, ?_, fun _ fds => @HoldsNames.parse _ ⟨_, f.bytes, fds⟩ _ hs hholds⟩
  · rw [hbytes]
    exact buildListNamesResponse_eq hz hs hserial hvalid
  · show MessageType.ofByte f.ty = _
    rw [hty]
    rfl
  · have hat := (layout_at_array f.endian f.array f.padding f.body
      f.fixed_length).take_drop
    show parseHeaderFields z ((f.bytes.drop 16).take f.array.length)
      f.endian = _
    unfold Frame.bytes
    unfold parseHeaderFields
    rw [hat, harray, he, (hz.fields_iff _ _ _ (replyFields_length _ _)).mpr
      ⟨⟨replyFields_valid _ hserial, rfl⟩, replyFields_taken z _⟩]
    rfl

/-- A `ListNames` call. -/
def listNamesCall : Message :=
  .compose 1 3
    [(1, .objectPath (utf8 "/org/freedesktop/DBus")), (2, .str busName),
     (3, .str (utf8 "ListNames")), (6, .str busName)] [] []

/-- A list of two names is decoded again. -/
theorem buildListNamesResponse_decodes_two :
    ∃ raw p, buildListNamesResponse .reference listNamesCall
        [utf8 ":s.1.5", utf8 "org.a"] = .ok raw
      ∧ RepliesWith .reference listNamesCall [utf8 ":s.1.5", utf8 "org.a"]
        raw p :=
  buildListNamesResponse_decodes Zvariant.reference_followsSpec
    Zvariant.reference_stringsFollowSpec (by decide) (by decide)
    (by decide)

-- ---------------------------------------------------- what does not fit

/-- A name whose array, not counting the length in front, is 64 MiB. -/
@[irreducible] def longName : Text := List.replicate (2 ^ 26 - 5) 'a'.toUInt8

/-- A repeated letter is a valid text. -/
theorem utf8Valid_replicate {b : UInt8} (hb : b < 0x80) (n : Nat) :
    utf8Valid (List.replicate n b) = true := by
  induction n with
  | zero => rfl
  | succ n ih => rw [List.replicate_succ, utf8Valid_cons hb, ih]

/-- The name fills the decoder's limit with its framing. -/
theorem longName_length : longName.length = 2 ^ 26 - 5 := by
  unfold longName
  exact List.length_replicate

/-- The name is a string the format allows. -/
theorem isStr_longName : IsStr longName := by
  unfold longName
  refine ⟨utf8Valid_replicate (by decide) _, ?_, ?_⟩
  · intro h
    have h := List.eq_of_mem_replicate h
    revert h
    decide
  · rw [List.length_replicate]
    norm_num

/-- In a list it takes exactly the limit. -/
theorem marshalAll_longName (e : Endian) :
    (marshalAll e (alignUp 4 (alignUp 4 0 + 4))
      ([longName].map .str)).length = 2 ^ 26 := by
  have hlen := longName_length
  simp [marshalAll, marshal, alignUp, hlen]

/-- The list takes four bytes more for its length. -/
theorem marshal_longName (e : Endian) :
    (marshal e 0 (namesValue [longName])).length = 2 ^ 26 + 4 := by
  have hlen := longName_length
  simp [namesValue, marshalAll, marshal, alignUp, Ty.align, hlen]

/-- An array of 64 MiB makes a body that the decoder refuses. -/
theorem list_reply_refused :
    Valid listNamesCall.header.endian ⟨0, 0, 0⟩ 0 (namesValue [longName])
    ∧ ∃ raw, buildListNamesResponse .reference listNamesCall [longName]
        = .ok raw
      ∧ ∀ p, Prologue.parse (raw.take minHeaderSize) ≠ .ok p := by
  have hvalid : Valid listNamesCall.header.endian ⟨0, 0, 0⟩ 0
      (namesValue [longName]) := by
    refine valid_namesValue (marshalAll_longName _).le ?_
    intro s hs
    rw [List.mem_singleton.mp hs]
    exact isStr_longName
  refine ⟨hvalid, replyBytes listNamesCall
    (marshal listNamesCall.header.endian 0 (namesValue [longName])), ?_, ?_⟩
  · exact buildListNamesResponse_eq Zvariant.reference_followsSpec
      Zvariant.reference_stringsFollowSpec (by decide) hvalid
  · intro p hp
    unfold replyBytes at hp
    have hle := (bodyLen_of_parse (Nat.mod_lt _ (by norm_num)) hp).2
    rw [marshal_longName] at hle
    norm_num at hle

end DbusRouter.Model
