import GraphqlOrmStorage.S3Blob

/-!
# The source of a copy

`copy_blob` passes the name of the source as it is. The server takes the value
apart: it cuts off a version selector, percent-decodes the rest and splits it into
a bucket and a key. The two agree on a name exactly when the name holds neither an
escape nor a selector; elsewhere the copy reads another object, or none.
-/
namespace GraphqlOrmStorage.S3

open Text Program Prog

/-! ### Percent-decoding -/

/-- The value of a hexadecimal digit of either case. -/
def hexValue (c : Char) : Option ℕ :=
  if '0' ≤ c ∧ c ≤ '9' then some (c.toNat - 48)
  else if 'a' ≤ c ∧ c ≤ 'f' then some (c.toNat - 87)
  else if 'A' ≤ c ∧ c ≤ 'F' then some (c.toNat - 55)
  else none

/-- The byte of an escape, read behind its percent sign. -/
def escapedByte : Str → Option UInt8
  | a :: b :: _ =>
    match hexValue a, hexValue b with
    | some x, some y => some (UInt8.ofNat (16 * x + y))
    | _, _ => none
  | _ => none

/-- The byte of the escape that starts at a character, if one does. -/
def escapeAt (c : Char) (rest : Str) : Option UInt8 := if c = '%' then escapedByte rest else none

/-- The bytes of a text with its escapes decoded; the first argument counts the characters that
are left of an escape. -/
def percentBytes : ℕ → Str → Bytes
  | _, [] => []
  | skip + 1, _ :: rest => percentBytes skip rest
  | 0, c :: rest =>
    match escapeAt c rest with
    | some byte => byte :: percentBytes 2 rest
    | none => String.utf8EncodeChar c ++ percentBytes 0 rest

/-- A text percent-decoded, unless the result is not UTF-8. -/
def percentDecode (s : Str) : Option Str :=
  (percentBytes 0 s).toByteArray.utf8Decode?.map Array.toList

/-- Somewhere in the text there is an escape. -/
def hasEscape : Str → Bool
  | [] => false
  | c :: rest => (escapeAt c rest).isSome || hasEscape rest

def utf8Bytes (s : Str) : Bytes := s.flatMap String.utf8EncodeChar

theorem utf8Bytes_cons (c : Char) (s : Str) :
    utf8Bytes (c :: s) = String.utf8EncodeChar c ++ utf8Bytes s := List.flatMap_cons ..

theorem length_utf8EncodeChar_pos (c : Char) : 0 < (String.utf8EncodeChar c).length := by
  rw [String.length_utf8EncodeChar]
  exact c.utf8Size_pos

theorem percentBytes_of_no_escape {s : Str} (h : hasEscape s = false) :
    percentBytes 0 s = utf8Bytes s := by
  induction s with
  | nil => rfl
  | cons c rest ih =>
    rw [hasEscape, Bool.or_eq_false_iff, Option.isSome_eq_false_iff, Option.isNone_iff_eq_none] at h
    simp only [percentBytes, h.1, ih h.2, utf8Bytes_cons]

/-- Decoding never lengthens a text. -/
theorem length_percentBytes_le (skip : ℕ) (s : Str) :
    (percentBytes skip s).length ≤ (utf8Bytes (s.drop skip)).length := by
  induction s generalizing skip with
  | nil => cases skip <;> simp [percentBytes]
  | cons c rest ih =>
    cases skip with
    | succ skip => exact ih skip
    | zero =>
      have hpos := length_utf8EncodeChar_pos c
      rw [List.drop_zero, utf8Bytes_cons, List.length_append]
      cases he : escapeAt c rest with
      | none =>
        have hrest := ih 0
        rw [List.drop_zero] at hrest
        simp only [percentBytes, he, List.length_append]
        omega
      | some byte =>
        have hrest := ih 2
        have hdrop : (utf8Bytes (rest.drop 2)).length ≤ (utf8Bytes rest).length :=
          ((List.drop_sublist 2 rest).flatMap _).length_le
        simp only [percentBytes, he, List.length_cons]
        omega

/-- An escape shortens it. -/
theorem length_percentBytes_lt {s : Str} (h : hasEscape s = true) :
    (percentBytes 0 s).length < (utf8Bytes s).length := by
  induction s with
  | nil => cases h
  | cons c rest ih =>
    have hpos := length_utf8EncodeChar_pos c
    rw [utf8Bytes_cons, List.length_append]
    cases he : escapeAt c rest with
    | none =>
      have hrest := ih (by simpa [hasEscape, he] using h)
      simp only [percentBytes, he, List.length_append]
      omega
    | some byte =>
      have hlen := length_percentBytes_le 2 rest
      simp only [percentBytes, he, List.length_cons]
      -- The two digits of the escape are dropped.
      match rest with
      | [] | [_] => simp [escapeAt, escapedByte] at he
      | a :: b :: rest =>
        have ha := length_utf8EncodeChar_pos a
        rw [utf8Bytes_cons a, utf8Bytes_cons b, List.length_append, List.length_append]
        rw [show (a :: b :: rest).drop 2 = rest from rfl] at hlen
        omega

/-- A text is read as itself exactly when it holds no escape. -/
theorem percentDecode_eq_self_iff {s : Str} : percentDecode s = some s ↔ hasEscape s = false := by
  constructor
  · intro h
    obtain ⟨decoded, hdecoded, hs⟩ := Option.map_eq_some_iff.mp h
    have hsome : (percentBytes 0 s).toByteArray.utf8Decode?.isSome := by rw [hdecoded]; rfl
    have hbytes := ByteArray.utf8Encode_get_utf8Decode? (h := hsome)
    simp only [hdecoded, Option.get_some, hs] at hbytes
    have hlen : (utf8Bytes s).length = (percentBytes 0 s).length := by
      have hsize := congrArg ByteArray.size hbytes
      simpa [List.utf8Encode, utf8Bytes] using hsize
    by_contra hescape
    have hlt := length_percentBytes_lt (eq_true_of_ne_false hescape)
    omega
  · intro h
    rw [percentDecode, percentBytes_of_no_escape h]
    rw [show (utf8Bytes s).toByteArray = s.utf8Encode from rfl, List.utf8Decode?_utf8Encode]
    rfl

/-! ### The copy source -/

/-- What a copy source names. -/
structure CopySource where
  bucket : Str
  key : Str
  version : Option Str
  deriving DecidableEq

def versionMarker : Str := "?versionId=".toList

/-- The text before the first occurrence of a marker, and the text behind it. -/
def splitMarker (marker : Str) : Str → Str × Option Str
  | [] => ([], none)
  | c :: rest =>
    match stripPrefix marker (c :: rest) with
    | some tail => ([], some tail)
    | none => (c :: (splitMarker marker rest).1, (splitMarker marker rest).2)

/-- A text split at the first occurrence of a character. -/
def splitOnce (c : Char) : Str → Option (Str × Str)
  | [] => none
  | x :: xs => if x = c then some ([], xs) else (splitOnce c xs).map fun r => (x :: r.1, r.2)

/-- How the server reads a copy source. -/
def readCopySource (text : Str) : Option CopySource :=
  match percentDecode (splitMarker versionMarker text).1 with
  | none => none
  | some path => (splitOnce '/' path).map fun r =>
      ⟨r.1, r.2, (splitMarker versionMarker text).2⟩

theorem splitMarker_none_iff {marker text : Str} (hm : marker ≠ []) :
    (splitMarker marker text).2 = none ↔ ¬ marker <:+: text := by
  induction text with
  | nil => simp [splitMarker, hm]
  | cons c rest ih =>
    rw [List.infix_cons_iff, not_or, splitMarker]
    cases hstrip : stripPrefix marker (c :: rest) with
    | some tail =>
      have hpre : marker <+: c :: rest := ⟨tail, (stripPrefix_eq_some.mp hstrip).symm⟩
      simp [hpre]
    | none =>
      have hpre : ¬ marker <+: c :: rest := by
        intro hpre
        obtain ⟨tail, htail⟩ := hpre
        rw [stripPrefix_eq_some.mpr htail.symm] at hstrip
        cases hstrip
      simp [hpre, ih]

theorem splitMarker_of_none {marker text : Str} (h : (splitMarker marker text).2 = none) :
    (splitMarker marker text).1 = text := by
  induction text with
  | nil => rfl
  | cons c rest ih =>
    rw [splitMarker] at h ⊢
    cases hstrip : stripPrefix marker (c :: rest) with
    | some tail => rw [hstrip] at h; cases h
    | none =>
      rw [hstrip] at h
      exact congrArg (c :: ·) (ih h)

theorem splitOnce_eq_some {c : Char} {s a b : Str} :
    splitOnce c s = some (a, b) ↔ s = a ++ c :: b ∧ c ∉ a := by
  induction s generalizing a with
  | nil => simp [splitOnce]
  | cons x xs ih =>
    by_cases hx : x = c
    · cases a with
      | nil => simp [splitOnce, hx]
      | cons y ys =>
        simp only [splitOnce, if_pos hx, Option.some.injEq, Prod.mk.injEq, List.cons_append,
          List.cons.injEq, List.mem_cons, not_or]
        constructor
        · intro h
          cases h.1
        · intro h
          exact absurd (hx.symm.trans h.1.1) h.2.1
    · cases a with
      | nil => simp [splitOnce, hx]
      | cons y ys =>
        simp only [splitOnce, if_neg hx, Option.map_eq_some_iff, Prod.mk.injEq, List.cons.injEq,
          List.cons_append, List.mem_cons, not_or, Prod.exists]
        constructor
        · intro h
          obtain ⟨a, b', hsome, ⟨hy, ha⟩, hb⟩ := h
          rw [ha, hb] at hsome
          obtain ⟨hxs, hmem⟩ := ih.mp hsome
          exact ⟨⟨hy, hxs⟩, fun he => hx (hy.trans he.symm), hmem⟩
        · intro h
          obtain ⟨⟨hy, hxs⟩, _, hmem⟩ := h
          exact ⟨ys, b, ih.mpr ⟨hxs, hmem⟩, ⟨hy, rfl⟩, rfl⟩

/-- The source is read as the named object of the bucket exactly when its name is plain. -/
def PlainSource (bucket key : Str) : Prop :=
  '/' ∉ bucket ∧ hasEscape (bucket ++ '/' :: key) = false ∧
    ¬ versionMarker <:+: bucket ++ '/' :: key

instance (bucket key : Str) : Decidable (PlainSource bucket key) :=
  inferInstanceAs (Decidable (_ ∧ _))

theorem readCopySource_eq_self_iff {bucket key : Str} :
    readCopySource (bucket ++ '/' :: key) = some ⟨bucket, key, none⟩ ↔ PlainSource bucket key := by
  have hm : versionMarker ≠ [] := List.cons_ne_nil _ _
  unfold readCopySource PlainSource
  constructor
  · intro h
    cases hpath : percentDecode (splitMarker versionMarker (bucket ++ '/' :: key)).1 with
    | none => rw [hpath] at h; cases h
    | some path =>
      rw [hpath] at h
      obtain ⟨⟨a, b⟩, hsplit, hsource⟩ := Option.map_eq_some_iff.mp h
      obtain ⟨ha, hb, hversion⟩ := CopySource.mk.inj hsource
      simp only at ha hb
      rw [ha, hb] at hsplit
      obtain ⟨hjoin, hbucket⟩ := splitOnce_eq_some.mp hsplit
      rw [splitMarker_of_none hversion, hjoin] at hpath
      exact ⟨hbucket, percentDecode_eq_self_iff.mp hpath, (splitMarker_none_iff hm).mp hversion⟩
  · intro h
    obtain ⟨hbucket, hescape, hmarker⟩ := h
    have hversion := (splitMarker_none_iff hm).mpr hmarker
    have hsplit : splitOnce '/' (bucket ++ '/' :: key) = some (bucket, key) :=
      splitOnce_eq_some.mpr ⟨rfl, hbucket⟩
    simp only [splitMarker_of_none hversion, percentDecode_eq_self_iff.mpr hescape, hsplit,
      hversion, Option.map_some]

/-! ### Copies -/

/-- The objects of every bucket, and their older versions. -/
structure Buckets where
  objects : Str → Str → Option Bytes
  versions : Str → Str → Str → Option Bytes

/-- The content that a copy source stands for. -/
def Buckets.source (s : Buckets) (c : CopySource) : Option Bytes :=
  match c.version with
  | none => s.objects c.bucket c.key
  | some version => s.versions c.bucket c.key version

/-- The objects with one of them replaced. -/
def Buckets.put (s : Buckets) (bucket key : Str) (b : Bytes) : Str → Str → Option Bytes :=
  Function.update s.objects bucket (Function.update (s.objects bucket) key (some b))

/-- A copy that succeeds has put the content its source stands for in the named place. -/
def ServesCopy (s s' : Buckets) : Sigma Requests.Reply → Prop
  | ⟨.copyObject bucket key copySource, reply⟩ => reply = .ok () →
      ∃ c b, readCopySource copySource = some c ∧ s.source c = some b ∧ s'.objects = s.put bucket key b
  | _ => True

/-- A call that succeeds, which makes a single request, has copied the object named by `fromKey`
to `toKey` and changed no other object. -/
def CopiesNamed (config : S3StorageConfig) (src dst fromKey toKey : Str) : Prop :=
  ∀ (s s' : Buckets) log, RunsTo (copyBlob config src dst) log (.ok ()) →
    (∀ entry ∈ log, ServesCopy s s' entry) →
      ∃ b, s.objects config.bucket fromKey = some b ∧
        s'.objects config.bucket toKey = some b ∧
        ∀ bucket key, ¬ (bucket = config.bucket ∧ key = toKey) →
          s'.objects bucket key = s.objects bucket key

theorem Buckets.put_same (s : Buckets) (bucket key : Str) (b : Bytes) :
    s.put bucket key b bucket key = some b := by
  rw [put, Function.update_self, Function.update_self]

theorem Buckets.put_other (s : Buckets) {bucket key bucket' key' : Str} (b : Bytes)
    (h : ¬ (bucket' = bucket ∧ key' = key)) :
    s.put bucket key b bucket' key' = s.objects bucket' key' := by
  by_cases hb : bucket' = bucket
  · have hk : key' ≠ key := fun hk => h ⟨hb, hk⟩
    rw [put, hb, Function.update_self, Function.update_of_ne hk]
  · rw [put, Function.update_of_ne hb]

variable {config : S3StorageConfig} {src dst fromKey toKey : Str}

/-- The one request of a call that succeeds. -/
theorem copyBlob_succeeds (hsrc : providerKey config src = .ok fromKey)
    (hdst : providerKey config dst = .ok toKey) {log : List (Sigma Requests.Reply)} :
    RunsTo (copyBlob config src dst) log (.ok ()) ↔
      log = [⟨.copyObject config.bucket toKey (config.bucket ++ '/' :: fromKey), .ok ()⟩] := by
  simp only [copyBlob, hsrc, hdst, bind_eq_bind]
  constructor
  · intro h
    obtain ⟨reply, rest, hlog, hrun⟩ := runsTo_request.mp h
    cases reply with
    | error error =>
      exfalso
      simp only at hrun
      by_cases hmissing : isMissingError error
      · rw [if_pos hmissing] at hrun
        cases (runsTo_ret.mp hrun).2
      · rw [if_neg hmissing] at hrun
        cases (runsTo_ret.mp hrun).2
    | ok _ =>
      obtain ⟨hrest, _⟩ := runsTo_ret.mp hrun
      rw [hlog, hrest]
  · intro h
    rw [h]
    exact .call _ _ _ (.ret _)

/-- Where every copy is one of the named object, the server reads the name as it is meant. -/
theorem CopiesNamed.source_eq (h : CopiesNamed config src dst fromKey toKey)
    (hsrc : providerKey config src = .ok fromKey) (hdst : providerKey config dst = .ok toKey)
    {c : CopySource} (hc : readCopySource (config.bucket ++ '/' :: fromKey) = some c) :
    c = ⟨config.bucket, fromKey, none⟩ := by
  -- The object that the server reads differs from all others.
  let s : Buckets := ⟨fun bucket key =>
    if c.version = none ∧ bucket = c.bucket ∧ key = c.key then some [0] else some [1],
    fun _ _ _ => some [0]⟩
  have hsource : s.source c = some [0] := by
    unfold Buckets.source
    cases hv : c.version with
    | none => simp [s, hv]
    | some version => rfl
  obtain ⟨b, hnamed, hcopied, _⟩ := h s ⟨s.put config.bucket toKey [0], s.versions⟩ _
    ((copyBlob_succeeds hsrc hdst).mpr rfl) fun entry hentry => by
      rw [List.mem_singleton.mp hentry]
      exact fun _ => ⟨c, [0], hc, hsource, rfl⟩
  simp only [s.put_same, Option.some.injEq] at hcopied
  have hself : c.version = none ∧ config.bucket = c.bucket ∧ fromKey = c.key := by
    by_contra hother
    have hone : s.objects config.bucket fromKey = some [1] := if_neg hother
    rw [hone, ← hcopied] at hnamed
    exact absurd hnamed (by decide)
  obtain ⟨hversion, hbucket, hkey⟩ := hself
  rw [hbucket, hkey, ← hversion]

/-- For every configuration and all valid keys, a successful copy is one of the named object
exactly when its name is plain, or is not read as a name at all. -/
theorem copy_copies_named_iff (config : S3StorageConfig) (src dst fromKey toKey : Str)
    (hsrc : providerKey config src = .ok fromKey) (hdst : providerKey config dst = .ok toKey) :
    CopiesNamed config src dst fromKey toKey ↔
      PlainSource config.bucket fromKey ∨
        readCopySource (config.bucket ++ '/' :: fromKey) = none := by
  constructor
  · intro h
    by_contra hnot
    obtain ⟨hplain, hnone⟩ := not_or.mp hnot
    obtain ⟨c, hc⟩ := Option.ne_none_iff_exists'.mp hnone
    exact hplain (readCopySource_eq_self_iff.mp (h.source_eq hsrc hdst hc ▸ hc))
  · intro h s s' log hlog hserves
    rw [copyBlob_succeeds hsrc hdst] at hlog
    subst hlog
    obtain ⟨c, b, hc, hsource, hput⟩ := hserves _ (List.mem_singleton.mpr rfl) rfl
    cases h with
    | inr hnone => rw [hnone] at hc; cases hc
    | inl hplain =>
      rw [readCopySource_eq_self_iff.mpr hplain, Option.some.injEq] at hc
      subst hc
      refine ⟨b, hsource, by rw [hput, s.put_same], fun bucket key hother => ?_⟩
      rw [hput, s.put_other b hother]

theorem copy_copies_named_plain : CopiesNamed ⟨"b".toList, some "p/".toList⟩ "a b+c".toList
    "d".toList "p/a b+c".toList "p/d".toList :=
  (copy_copies_named_iff _ _ _ _ _ (by decide) (by decide)).mpr (Or.inl (by decide))

/-- The name of the source holds an escape, and another object is copied. -/
theorem copy_copies_other : ¬ ∀ (config : S3StorageConfig) (src dst fromKey toKey : Str),
    providerKey config src = .ok fromKey → providerKey config dst = .ok toKey →
      CopiesNamed config src dst fromKey toKey := by
  intro h
  have hnamed := h ⟨"b".toList, none⟩ "a%41".toList "d".toList "a%41".toList "d".toList
    (by decide) (by decide)
  have hread : readCopySource "b/a%41".toList = some ⟨"b".toList, "aA".toList, none⟩ := by
    have hdecode : percentDecode "b/a%41".toList = some "b/aA".toList := by
      have hbytes : percentBytes 0 "b/a%41".toList = utf8Bytes "b/aA".toList := by decide
      rw [percentDecode, hbytes]
      exact congrArg (Option.map Array.toList) List.utf8Decode?_utf8Encode
    rw [readCopySource, show (splitMarker versionMarker "b/a%41".toList).1 = "b/a%41".toList from
      rfl, hdecode]
    rfl
  have hsource := hnamed.source_eq (by decide) (by decide) hread
  exact absurd hsource (by decide)

end GraphqlOrmStorage.S3
