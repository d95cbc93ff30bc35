import GraphqlOrmStorage.Ranges

/-!
# Size hints of the read paths

`collect_storage_stream` allocates the size hint of a stream before it reads the
first chunk. A hint is safe when it is the number of bytes that the stream
delivers, no more than the content has and no more than can be allocated. Whole
reads and SMB ranges take their hint from the content; the range reads of the
local backend and of S3 take it from the request.
-/
namespace GraphqlOrmStorage.SizeHints

open Text Program Prog Ranges

/-- For a stream over a content of `n` bytes. -/
def HintSafe (n : ℕ) (hint : Option ℕ) (delivers : Bytes → Prop) : Prop :=
  ∀ h, hint = some h → (∀ b, delivers b → b.length = h) ∧ h ≤ n ∧ h ≤ isizeMax

def StreamSafe (n : ℕ) (s : StorageByteStream) : Prop := HintSafe n s.sizeHint (s.body = .ok ·)

/-- A safe hint never makes collecting panic. -/
theorem StreamSafe.collects {n : ℕ} {s : StorageByteStream} (h : StreamSafe n s) :
    collectStorageStream s ≠ .error .panic := by
  have hfits : ¬ isizeMax < s.sizeHint.getD 0 := by
    cases hs : s.sizeHint with
    | none => simp
    | some hint => simpa using (h hint hs).2.2
  rw [collectStorageStream, if_neg hfits]
  split <;> simp

theorem body_map_ok (chunks : List Bytes) (hint : Option ℕ) :
    (⟨chunks.map .ok, hint⟩ : StorageByteStream).body = .ok chunks.flatten := by
  rw [StorageByteStream.body, Local.collectChunks_map_ok, List.nil_append]

/-- A hint that is the length of a slice from `start` on fits the slice exactly where the slice
ends within the content. -/
theorem streamSafe_slice_iff {c : Bytes} (hc : c.length ≤ isizeMax) {start stop : ℕ}
    (hle : start ≤ stop) {chunks : List Bytes} (hchunks : chunks.flatten = slice c start stop) :
    StreamSafe c.length ⟨chunks.map .ok, some (stop - start)⟩ ↔
      start = stop ∨ stop ≤ c.length := by
  have hlen := length_slice c start stop
  simp only [StreamSafe, HintSafe, body_map_ok, hchunks, Option.some.injEq, forall_eq',
    Except.ok.injEq, hlen]
  omega

/-! ### The read paths -/

/-- `LocalStorageBackend::get_blob`. -/
def LocalBlobSafe (now : ℤ) (t : FileTree) (key : Str) (n : ℕ) : Prop :=
  ∀ blob, (FsM.run now (Local.getBlob key) t).1 = .ok blob → StreamSafe n blob.body

/-- `LocalStorageBackend::get_blob_range`. -/
def LocalRangeSafe (now : ℤ) (t : FileTree) (key : Str) (start stop n : ℕ) : Prop :=
  ∀ blob, (FsM.run now (Local.getBlobRange key start stop) t).1 = .ok blob → StreamSafe n blob.body

/-- `LocalStorageBackend::get_object_range`. -/
def ObjectRangeSafe (codec : Local.Codec) (now : ℤ) (t : FileTree) (bucket key : Str)
    (start stop n : ℕ) : Prop :=
  ∀ body, (FsM.run now (Local.getObjectRange codec bucket key start stop) t).1 = .ok body →
    StreamSafe n body.body

/-- The replies of an S3 server on which the object holds `c`. A request or a body may fail; what
is delivered in answer to a range are the bytes of the range. -/
def Consistent (c : Bytes) : Sigma S3.Requests.Reply → Prop
  | ⟨.getObject _ _ (some range), .ok output⟩ => ∀ start stop, start < stop →
      range = S3.rangeHeader start stop →
        start < c.length ∧ ∀ b, Delivers output.body b → b = slice c start stop
  | _ => True

/-- `S3StorageBackend::get_blob`. -/
def S3BlobSafe (config : S3.S3StorageConfig) (key : Str) (c : Bytes) : Prop :=
  ∀ log blob, RunsTo (S3.getBlob config key) log (.ok blob) → (∀ e ∈ log, Consistent c e) →
    StreamSafe c.length blob.body

/-- `S3StorageBackend::get_blob_range`. -/
def S3RangeSafe (config : S3.S3StorageConfig) (key : Str) (start stop : ℕ) (c : Bytes) : Prop :=
  ∀ log blob, RunsTo (S3.getBlobRange config key start stop) log (.ok blob) →
    (∀ e ∈ log, Consistent c e) → StreamSafe c.length blob.body

/-- The bytes that collecting an SMB body may give. -/
def SmbDelivers (c : Bytes) (collected : Smb.SmbM (Except StorageError Bytes)) (b : Bytes) : Prop :=
  ∃ log, RunsTo collected log (.ok b) ∧ ∀ e ∈ log, Smb.Sized c e

/-- `SmbStorageBackend::get_blob`; the hint is the size that the server reported. -/
def SmbBlobSafe (config : Smb.SmbStorageConfig) (key : Str) (c : Bytes) : Prop :=
  ∀ log body, RunsTo (Smb.getBlob config key) log (.ok body) → (∀ e ∈ log, Smb.Sized c e) →
    HintSafe c.length (some body.sizeBytes)
      (SmbDelivers c (Smb.collectBody body.body.bound body.body []))

/-- `SmbStorageBackend::get_blob_range`. -/
def SmbRangeSafe (config : Smb.SmbStorageConfig) (key : Str) (start stop : ℕ) (c : Bytes) : Prop :=
  ∀ log body, RunsTo (Smb.getBlobRange config key start stop) log (.ok body) →
    (∀ e ∈ log, Smb.Sized c e) → HintSafe c.length (some body.sizeHint)
      (SmbDelivers c (Smb.collectRanged (body.sizeHint + 1) body.body []))

/-! ### Local reads -/

theorem localBlobSafe (now : ℤ) {t : FileTree} {key : Str} (hk : ValidKey key) {c : Bytes}
    (hc : t.files (key.splitOn '/') = some c) : LocalBlobSafe now t key c.length := by
  intro blob hblob h hhint
  obtain ⟨m, hm⟩ := FileTree.files_eq_some.mp hc
  rw [Local.getBlob_of_some now hk hm] at hblob
  rw [← Except.ok.inj hblob] at hhint
  cases hhint

theorem localRangeSafe_iff {now : ℤ} {t : FileTree} {key : Str} (hk : ValidKey key) {c : Bytes}
    (hc : t.files (key.splitOn '/') = some c) (hsmall : c.length ≤ isizeMax) {start stop : ℕ}
    (hle : start ≤ stop) : LocalRangeSafe now t key start stop c.length ↔
      2 ^ 63 ≤ start ∨ start = stop ∨ stop ≤ c.length := by
  unfold LocalRangeSafe
  rcases getBlobRange_of_files now hk hc hle with ⟨hs, hrun⟩ | ⟨hs, metadata, hrun⟩
  · simp only [hrun, reduceCtorEq, false_implies, implies_true, true_iff]
    omega
  · simp only [hrun, Except.ok.injEq, forall_eq']
    rw [streamSafe_slice_iff hsmall hle (Local.flatten_readChunks _)]
    omega

theorem objectRangeSafe_iff {codec : Local.Codec} {now : ℤ} {t : FileTree} {bucket key : Str}
    {object : Local.ObjectInfo} {c : Bytes}
    (hm : (FsM.run now (Local.getObjectMetadata codec bucket key) t).1 = .ok object)
    (hd : t.files (Local.dataPath bucket key) = some c) (hsmall : c.length ≤ isizeMax)
    {start stop : ℕ} (hle : start ≤ stop) :
    ObjectRangeSafe codec now t bucket key start stop c.length ↔
      object.sizeBytes < start ∨ 2 ^ 63 ≤ start ∨ start = min stop object.sizeBytes ∨
        min stop object.sizeBytes ≤ c.length := by
  unfold ObjectRangeSafe
  rcases Local.getObjectRange_of_files hm hd hle with ⟨hbig, e, hrun⟩ | ⟨hsize, hs, hrun⟩
  · simp only [hrun, reduceCtorEq, false_implies, implies_true, true_iff]
    omega
  · simp only [hrun, Except.ok.injEq, forall_eq']
    rw [streamSafe_slice_iff hsmall (by omega)
      (by rw [Local.flatten_readChunks, slice_eq])]
    omega

/-! ### S3 reads -/

/-- A response stream that ends well had no failing read. -/
theorem delivers_of_bodyStream {what : String} {key : Str} {body : List (Except Str Bytes)}
    {start b : Bytes} (h : collectChunks start (S3.bodyStream what key body) = .ok b) :
    ∃ chunks : List Bytes, body = chunks.map .ok ∧ b = start ++ chunks.flatten := by
  induction body generalizing start with
  | nil => exact ⟨[], rfl, by simpa [S3.bodyStream, collectChunks, eq_comm] using h⟩
  | cons item body ih =>
    cases item with
    | error source => simp [S3.bodyStream, Except.mapError, collectChunks] at h
    | ok chunk =>
      have htail : collectChunks (start ++ chunk) (S3.bodyStream what key body) = .ok b := by
        simpa [S3.bodyStream, Except.mapError, collectChunks] using h
      obtain ⟨chunks, hbody, hb⟩ := ih htail
      exact ⟨chunk :: chunks, by rw [hbody]; rfl, by rw [hb]; simp⟩

theorem s3BlobSafe (config : S3.S3StorageConfig) (key : Str) (c : Bytes) :
    S3BlobSafe config key c := by
  intro log blob h _ hint hhint
  unfold S3.getBlob at h
  cases hk : S3.providerKey config key with
  | error e =>
    simp only [hk] at h
    cases (runsTo_ret.mp h).2
  | ok object =>
    simp only [hk] at h
    obtain ⟨reply, rest, _, hrun⟩ := S3.runsTo_request.mp h
    cases reply with
    | error error =>
      by_cases hm : S3.isMissingError error
      · simp only [if_pos hm] at hrun
        cases (runsTo_ret.mp hrun).2
      · simp only [if_neg hm] at hrun
        cases (runsTo_ret.mp hrun).2
    | ok output =>
      obtain rfl := Except.ok.inj (runsTo_ret.mp hrun).2
      cases hhint

/-- What an S3 range read returns, whatever the replies. -/
theorem s3_getBlobRange_ok {config : S3.S3StorageConfig} {key object : Str}
    (hk : S3.providerKey config key = .ok object) {start stop : ℕ} (hle : start ≤ stop)
    {log : List (Sigma S3.Requests.Reply)} {blob : BlobBody}
    (h : RunsTo (S3.getBlobRange config key start stop) log (.ok blob)) :
    (start = stop ∧ blob.body = .fromBytes []) ∨
    (start < stop ∧ ∃ output, log =
        [⟨.getObject config.bucket object (some (S3.rangeHeader start stop)), .ok output⟩] ∧
      blob.body = ⟨S3.bodyStream "range stream" key output.body, some (stop - start)⟩) := by
  by_cases heq : start = stop
  · simp only [S3.getBlobRange, if_neg (Nat.not_lt.mpr hle), if_pos heq] at h
    obtain ⟨first, metadata, second, _, _, hrun⟩ := runsTo_bind.mp h
    cases metadata with
    | error e => cases (runsTo_ret.mp hrun).2
    | ok metadata =>
      obtain rfl := Except.ok.inj (runsTo_ret.mp hrun).2
      exact Or.inl ⟨heq, rfl⟩
  · simp only [S3.getBlobRange, if_neg (Nat.not_lt.mpr hle), if_neg heq, hk] at h
    obtain ⟨reply, rest, hlog, hrun⟩ := S3.runsTo_request.mp h
    cases reply with
    | error error =>
      by_cases hm : S3.isMissingError error
      · simp only [if_pos hm] at hrun
        cases (runsTo_ret.mp hrun).2
      · simp only [if_neg hm] at hrun
        cases (runsTo_ret.mp hrun).2
    | ok output =>
      obtain ⟨hrest, hblob⟩ := runsTo_ret.mp hrun
      obtain rfl := Except.ok.inj hblob
      subst hrest
      exact Or.inr ⟨by omega, output, hlog, rfl⟩

theorem runsTo_s3Range {config : S3.S3StorageConfig} {key object : Str}
    (hk : S3.providerKey config key = .ok object) {start stop : ℕ} (hlt : start < stop)
    (output : S3.GetObjectOutput) : RunsTo (S3.getBlobRange config key start stop)
      [⟨.getObject config.bucket object (some (S3.rangeHeader start stop)), .ok output⟩]
      (.ok ⟨key, some ⟨key, S3.reportedSize output.contentLength, none, output.eTag, none⟩,
        ⟨S3.bodyStream "range stream" key output.body, some (stop - start)⟩⟩) := by
  simp only [S3.getBlobRange, if_neg (Nat.not_lt.mpr hlt.le), if_neg hlt.ne, hk]
  exact .call _ _ _ (.ret _)

theorem s3RangeSafe_iff {config : S3.S3StorageConfig} {key object : Str}
    (hk : S3.providerKey config key = .ok object) {c : Bytes} (hsmall : c.length ≤ isizeMax)
    {start stop : ℕ} (hle : start ≤ stop) : S3RangeSafe config key start stop c ↔
      c.length ≤ start ∨ start = stop ∨ stop ≤ c.length := by
  constructor
  · intro h
    by_contra hcond
    have hin : start < c.length ∧ start < stop ∧ c.length < stop := by omega
    -- The server delivers the slice in one piece.
    have hrun := runsTo_s3Range hk hin.2.1 ⟨none, none, [.ok (slice c start stop)]⟩
    have hsafe := h _ _ hrun (by
      intro e he
      obtain rfl := List.mem_singleton.mp he
      intro start' stop' hlt heq
      obtain ⟨hs, he⟩ := rangeHeader_inj hin.2.1 hlt heq
      subst hs he
      refine ⟨hin.1, fun b hb => ?_⟩
      obtain ⟨chunks, hbody, hchunks⟩ := hb
      have hone : chunks = [slice c start stop] := by
        have hinj : Function.Injective (Except.ok : Bytes → Except Str Bytes) :=
          fun a b h => Except.ok.inj h
        have hmap : [slice c start stop].map (Except.ok : Bytes → Except Str Bytes) =
            chunks.map .ok := hbody
        exact (List.map_injective_iff.mpr hinj hmap).symm
      rw [← hchunks, hone]
      simp)
    have hone : [slice c start stop].flatten = slice c start stop := List.flatten_singleton
    have hiff := (streamSafe_slice_iff hsmall hle hone).mp
      (by simpa [S3.bodyStream, Except.mapError] using hsafe)
    omega
  · intro hcond log blob hrun hcons
    rcases s3_getBlobRange_ok hk hle hrun with ⟨_, hbody⟩ | ⟨hlt, output, hlog, hbody⟩
    · rw [hbody]
      intro h hh
      obtain rfl := Option.some.inj hh
      simp
    · have hreply : Consistent c ⟨.getObject config.bucket object
          (some (S3.rangeHeader start stop)), .ok output⟩ :=
        hcons _ (by rw [hlog]; exact List.mem_singleton.mpr rfl)
      obtain ⟨hin, hdel⟩ := hreply start stop hlt rfl
      rw [hbody]
      intro h hh
      obtain rfl := Option.some.inj hh
      refine ⟨fun b hb => ?_, by omega, by omega⟩
      obtain ⟨chunks, hchunks, hb⟩ := delivers_of_bodyStream hb
      rw [hdel b ⟨chunks, hchunks, by simpa using hb.symm⟩, length_slice]
      omega

/-! ### SMB reads -/

theorem smbBlobSafe (config : Smb.SmbStorageConfig) (key : Str) {c : Bytes}
    (hsmall : c.length ≤ isizeMax) : SmbBlobSafe config key c := by
  intro log body h ht hint hhint
  obtain ⟨file, rfl⟩ := Smb.getBlob_sized h ht
  obtain rfl := Option.some.inj hhint
  refine ⟨fun b hb => ?_, le_rfl, hsmall⟩
  obtain ⟨log', hrun, ht'⟩ := hb
  have hsize : c.length < 2 ^ 63 := by unfold isizeMax at hsmall; omega
  have hlen := Smb.collectBody_sized hsize (Nat.zero_le _) (by simp [Smb.BodySource.bound]) hrun ht'
  simpa using hlen

theorem smbRangeSafe (config : Smb.SmbStorageConfig) (key : Str) {c : Bytes}
    (hsmall : c.length ≤ isizeMax) (start stop : ℕ) : SmbRangeSafe config key start stop c := by
  intro log body h ht hint hhint
  unfold Smb.getBlobRange at h
  by_cases hlt : stop < start
  · rw [if_pos hlt] at h
    cases (runsTo_ret.mp h).2
  · rw [if_neg hlt] at h
    obtain ⟨first, blob, second, hlog, hget, hrun⟩ := runsTo_bind.mp h
    cases blob with
    | error e => cases (runsTo_ret.mp hrun).2
    | ok blob =>
      obtain ⟨file, rfl⟩ := Smb.getBlob_sized hget fun e he => ht e (by simp [hlog, he])
      obtain rfl := Except.ok.inj (runsTo_ret.mp hrun).2
      obtain rfl := Option.some.inj hhint
      refine ⟨fun b hb => ?_, by simp, by simp; omega⟩
      obtain ⟨log', hrun', ht'⟩ := hb
      have hsize : c.length < 2 ^ 63 := by unfold isizeMax at hsmall; omega
      have hlen := Smb.collectRanged_sized hsize (Nat.zero_le _) (by simp) hrun' ht'
      simpa using hlen

/-! ### All read paths -/

/-- Whole reads and SMB ranges are always safe. A range of the local blob store or of S3 is safe
exactly where it is refused, is empty or ends within the content; a range of an object exactly
where it is refused, is empty or ends within the data, once cut off at the recorded size. -/
theorem size_hints_safe_iff (now : ℤ) (t : FileTree) (s3Config : S3.S3StorageConfig)
    (smbConfig : Smb.SmbStorageConfig) (key providerKey : Str) (c : Bytes)
    (hk : validateBlobKey key = .ok ()) (hprovider : S3.providerKey s3Config key = .ok providerKey)
    (hc : t.files (key.splitOn '/') = some c) (hfits : c.length ≤ t.limits.maxFileSize)
    (codec : Local.Codec) (bucket objectKey : Str) (object : Local.ObjectInfo) (data : Bytes)
    (hm : (FsM.run now (Local.getObjectMetadata codec bucket objectKey) t).1 = .ok object)
    (hd : t.files (Local.dataPath bucket objectKey) = some data)
    (hdata : data.length ≤ t.limits.maxFileSize) (start stop : ℕ) (hle : start ≤ stop) :
    LocalBlobSafe now t key c.length ∧
    (LocalRangeSafe now t key start stop c.length ↔
      2 ^ 63 ≤ start ∨ start = stop ∨ stop ≤ c.length) ∧
    (ObjectRangeSafe codec now t bucket objectKey start stop data.length ↔
      object.sizeBytes < start ∨ 2 ^ 63 ≤ start ∨ start = min stop object.sizeBytes ∨
        min stop object.sizeBytes ≤ data.length) ∧
    S3BlobSafe s3Config key c ∧
    (S3RangeSafe s3Config key start stop c ↔
      c.length ≤ start ∨ start = stop ∨ stop ≤ c.length) ∧
    SmbBlobSafe smbConfig key c ∧
    SmbRangeSafe smbConfig key start stop c := by
  have hv := validateBlobKey_eq_ok.mp hk
  have hoffset := t.limits.offset_bound
  have hsmall : c.length ≤ isizeMax := by
    unfold isizeMax
    omega
  have hsmall' : data.length ≤ isizeMax := by
    unfold isizeMax
    omega
  exact ⟨localBlobSafe now hv hc, localRangeSafe_iff hv hc hsmall hle,
    objectRangeSafe_iff hm hd hsmall' hle, s3BlobSafe s3Config key c,
    s3RangeSafe_iff hprovider hsmall hle, smbBlobSafe smbConfig key hsmall,
    smbRangeSafe smbConfig key hsmall start stop⟩

/-- An object record of three bytes, and a codec that reads it from any sidecar. -/
def sampleObject : Local.ObjectInfo := ⟨"b".toList, "o".toList, none, [], 3, [], none, 0⟩

def sampleCodec : Local.Codec := ⟨fun _ => .ok [], fun _ => .ok sampleObject⟩

/-- A blob `k` and the object `o` of the bucket `b`, both of three bytes. -/
def sampleStore : FileTree :=
  let put (key : String) (bytes : Bytes) (t : FileTree) : FileTree :=
    (FsM.run 0 (Local.putBlob Digest.sha256 (Local.sampleUuid 0) key.toList (.fromBytes bytes)
      ⟨none⟩) t).2
  put ".graphql-orm-storage/object-metadata/b/o.metadata.json" [] <| put "b/o" [4, 5, 6] <|
    put "k" [1, 2, 3] <| FileTree.empty Limits.widest

/-- A range past the end is safe for the object and not for the blob. -/
theorem size_hints_safe_past_the_end :
    ObjectRangeSafe sampleCodec 0 sampleStore "b".toList "o".toList 1 10 3 ∧
      ¬ LocalRangeSafe 0 sampleStore "k".toList 1 10 3 ∧
      ¬ S3RangeSafe ⟨"b".toList, none⟩ "k".toList 1 10 [1, 2, 3] ∧
      SmbRangeSafe ⟨none, 1⟩ "k".toList 1 10 [1, 2, 3] := by
  obtain ⟨_, hlocal, hobject, _, hs3, _, hsmb⟩ := size_hints_safe_iff 0 sampleStore
    ⟨"b".toList, none⟩ ⟨none, 1⟩ "k".toList "k".toList [1, 2, 3] (by decide) (by decide)
    (by decide +kernel) (by decide +kernel) sampleCodec "b".toList "o".toList sampleObject [4, 5, 6]
    (by decide +kernel) (by decide +kernel) (by decide +kernel) 1 10 (by decide)
  exact ⟨hobject.mpr (by decide), fun h => absurd (hlocal.mp h) (by decide),
    fun h => absurd (hs3.mp h) (by decide), hsmb⟩

/-- The local range `0..10` of three bytes announces ten. -/
theorem local_range_hint_not_safe : ¬ ∀ (now : ℤ) (t : FileTree) (key : Str) (c : Bytes)
    (start stop : ℕ), validateBlobKey key = .ok () → t.files (key.splitOn '/') = some c →
    c.length ≤ t.limits.maxFileSize → start ≤ stop →
    LocalRangeSafe now t key start stop c.length := by
  intro h
  have hsafe := h 0 sampleTree "k".toList [1, 2, 3] 0 10 (by decide) (by decide +kernel) (by decide)
    (by decide)
  rw [localRangeSafe_iff (by decide) (by decide +kernel) (by decide) (by decide)] at hsafe
  revert hsafe
  decide

end GraphqlOrmStorage.SizeHints
