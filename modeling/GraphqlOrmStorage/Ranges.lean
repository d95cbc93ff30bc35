import GraphqlOrmStorage.LocalObjectSpec
import GraphqlOrmStorage.S3Blob
import GraphqlOrmStorage.SmbRange

/-!
# Range reads of the three providers

The local backend seeks, S3 asks the server with an inclusive header, and SMB
skips and trims the chunks of a whole read. Each is compared with the one slice
of the content that all of them should deliver.
-/
namespace GraphqlOrmStorage.Ranges

open Text Program Prog

/-- The bytes of a content from one position up to another, both cut off at its end. -/
def slice (c : Bytes) (start stop : ℕ) : Bytes :=
  (c.take (min stop c.length)).drop (min start c.length)

theorem slice_eq (c : Bytes) (start stop : ℕ) :
    slice c start stop = (c.drop start).take (stop - start) := by
  have hstop : c.take (min stop c.length) = c.take stop := by
    rw [List.take_eq_take_iff]
    omega
  unfold slice
  rw [hstop, List.drop_take]
  by_cases hs : start ≤ c.length
  · rw [Nat.min_eq_left hs]
  · have hd : c.drop start = [] := List.drop_eq_nil_of_le (by omega)
    rw [Nat.min_eq_right (by omega), List.drop_length, hd, List.take_nil, List.take_nil]

theorem length_slice (c : Bytes) (start stop : ℕ) :
    (slice c start stop).length = min stop c.length - min start c.length := by
  unfold slice
  rw [List.length_drop, List.length_take]
  omega

/-! ### The local provider -/

/-- `get_blob_range` followed by `collect_storage_stream`. -/
def readLocal (now : ℤ) (key : Str) (start stop : ℕ) (t : FileTree) : Except Stop Bytes :=
  match (FsM.run now (Local.getBlobRange key start stop) t).1 with
  | .error e => .error (.error e)
  | .ok blob => collectStorageStream blob.body

theorem getBlobRange_of_files (now : ℤ) {key : Str} (hk : ValidKey key) {t : FileTree} {c : Bytes}
    (hc : t.files (key.splitOn '/') = some c) {start stop : ℕ} (hle : start ≤ stop) :
    (2 ^ 63 ≤ start ∧ (FsM.run now (Local.getBlobRange key start stop) t).1 =
      .error (.io (key.splitOn '/') .invalidInput)) ∨
    (start < 2 ^ 63 ∧ ∃ metadata, (FsM.run now (Local.getBlobRange key start stop) t).1 =
      .ok ⟨key, metadata,
        ⟨(Local.readChunks (slice c start stop)).map .ok, some (stop - start)⟩⟩) := by
  obtain ⟨m, hm⟩ := FileTree.files_eq_some.mp hc
  have hmeta : t.metadata (key.splitOn '/') = .ok (.file c m) := FileTree.metadata_eq_ok.mpr hm
  by_cases hs : start < 2 ^ 63
  · right
    have hseek : Local.seekStart start = .ok () := if_pos hs
    refine ⟨hs, some ⟨key, some c.length, none, none, some m⟩, ?_⟩
    simp [Local.getBlobRange, Nat.not_lt.mpr hle, Local.pathFor_of_valid hk, hmeta, hseek,
      Local.headBlob, Local.rangeStream, slice_eq, Local.nodeLen, Local.nodeModified]
  · left
    have hseek : Local.seekStart start = .error .invalidInput := if_neg hs
    refine ⟨Nat.not_lt.mp hs, ?_⟩
    simp [Local.getBlobRange, Nat.not_lt.mpr hle, Local.pathFor_of_valid hk, hmeta, hseek]

/-- A local range read succeeds exactly below the largest offset and allocation. -/
theorem readLocal_eq_ok_iff {now : ℤ} {key : Str} (hk : ValidKey key) {t : FileTree} {c : Bytes}
    (hc : t.files (key.splitOn '/') = some c) {start stop : ℕ} (hle : start ≤ stop) :
    readLocal now key start stop t = .ok (slice c start stop) ↔
      start < 2 ^ 63 ∧ stop - start < 2 ^ 63 := by
  rcases getBlobRange_of_files now hk hc hle with ⟨hs, hrun⟩ | ⟨hs, metadata, hrun⟩
  · simp only [readLocal, hrun, reduceCtorEq, false_iff]
    omega
  · have hbody : collectChunks [] ((Local.readChunks (slice c start stop)).map .ok) =
        .ok (slice c start stop) := by
      rw [Local.collectChunks_map_ok, Local.flatten_readChunks, List.nil_append]
    simp only [readLocal, hrun, collectStorageStream, Option.getD_some, hbody, isizeMax, hs,
      true_and]
    split_ifs with hbig
    · simp
      omega
    · simp
      omega

/-! ### S3 -/

theorem decimal_injective {m n : ℕ} (h : S3.decimal m = S3.decimal n) : m = n :=
  Nat.repr_injective (String.toList_injective h)

theorem not_mem_decimal (n : ℕ) : '-' ∉ S3.decimal n := by
  intro h
  have hd : '-' ∈ Nat.toDigits 10 n := by
    rwa [S3.decimal, Nat.toString_eq_repr, Nat.repr, String.toList_ofList] at h
  exact absurd (Nat.isDigit_of_mem_toDigits (by decide) (by decide) hd) (by decide)

theorem rangeHeader_eq (start stop : ℕ) : S3.rangeHeader start stop =
    "bytes=".toList ++ (S3.decimal start ++ '-' :: S3.decimal (stop - 1)) :=
  List.append_assoc _ _ _

/-- The header determines the range it asks for. -/
theorem rangeHeader_inj {start stop start' stop' : ℕ} (h : start < stop) (h' : start' < stop')
    (he : S3.rangeHeader start stop = S3.rangeHeader start' stop') :
    start = start' ∧ stop = stop' := by
  have hsplit : ∀ a b : ℕ, (S3.decimal a ++ '-' :: S3.decimal b).splitOn '-' =
      [S3.decimal a, S3.decimal b] := by
    intro a b
    rw [List.splitOn_append_cons_self, List.splitOn_eq_singleton (not_mem_decimal a),
      List.splitOn_eq_singleton (not_mem_decimal b)]
    rfl
  have hrange : S3.decimal start ++ '-' :: S3.decimal (stop - 1) =
      S3.decimal start' ++ '-' :: S3.decimal (stop' - 1) :=
    List.append_cancel_left ((rangeHeader_eq start stop).symm.trans
      (he.trans (rangeHeader_eq start' stop')))
  have heq := congrArg (List.splitOn '-') hrange
  rw [hsplit, hsplit] at heq
  obtain ⟨h1, h2⟩ := List.cons.inj heq
  have hstart := decimal_injective h1
  have hstop := decimal_injective (List.cons.inj h2).1
  omega

/-- What reads of a response body return, if none of them fails. -/
def Delivers (body : List (Except Str Bytes)) (b : Bytes) : Prop :=
  ∃ chunks : List Bytes, body = chunks.map .ok ∧ chunks.flatten = b

/-- The replies of a server on which the object holds `c`: a range that begins inside of it is
answered with the bytes present, any other with an error. -/
def Truthful (c : Bytes) : Sigma S3.Requests.Reply → Prop
  | ⟨.headObject _ _, reply⟩ => ∃ output, reply = .ok output
  | ⟨.getObject _ _ none, reply⟩ => ∃ output, reply = .ok output ∧ Delivers output.body c
  | ⟨.getObject _ _ (some range), reply⟩ => ∀ start stop, start < stop →
      range = S3.rangeHeader start stop →
        (start < c.length ∧ ∃ output, reply = .ok output ∧
          Delivers output.body (slice c start stop)) ∨
        (c.length ≤ start ∧ ∃ error, reply = .error error ∧ S3.contains error "InvalidRange")
  | _ => True

/-- `get_blob_range` followed by `collect_storage_stream`. -/
def readS3 (config : S3.S3StorageConfig) (key : Str) (start stop : ℕ) :
    S3.S3M (Except Stop Bytes) := do
  match ← S3.getBlobRange config key start stop with
  | .error e => return .error (.error e)
  | .ok blob => return collectStorageStream blob.body

theorem bodyStream_ok (what : String) (key : Str) (chunks : List Bytes) :
    S3.bodyStream what key (chunks.map .ok) = chunks.map .ok := by
  simp [S3.bodyStream, Except.mapError]

/-- The three ways a range read from a truthful server ends. -/
theorem getBlobRange_truthful {config : S3.S3StorageConfig} {key object : Str}
    (hk : S3.providerKey config key = .ok object) {c : Bytes} {start stop : ℕ} (hle : start ≤ stop)
    {log : List (Sigma S3.Requests.Reply)} {result : Except StorageError BlobBody}
    (h : RunsTo (S3.getBlobRange config key start stop) log result) (ht : ∀ e ∈ log, Truthful c e) :
    (start = stop ∧ ∃ metadata, result = .ok ⟨key, metadata, .fromBytes []⟩) ∨
    (start < stop ∧ start < c.length ∧ ∃ metadata, ∃ chunks : List Bytes,
      chunks.flatten = slice c start stop ∧
      result = .ok ⟨key, metadata, ⟨chunks.map .ok, some (stop - start)⟩⟩) ∨
    (start < stop ∧ c.length ≤ start ∧ ∃ e, result = .error e) := by
  by_cases heq : start = stop
  · left
    refine ⟨heq, ?_⟩
    simp only [S3.getBlobRange, if_neg (Nat.not_lt.mpr hle), if_pos heq] at h
    obtain ⟨first, metadata, second, hlog, hhead, hrun⟩ := runsTo_bind.mp h
    simp only [S3.headBlob, hk] at hhead
    obtain ⟨reply, rest, hlog', hhead⟩ := S3.runsTo_request.mp hhead
    obtain ⟨output, hreply⟩ := ht ⟨.headObject config.bucket object, reply⟩ (by simp [hlog, hlog'])
    subst hreply
    obtain ⟨_, hmetadata⟩ := runsTo_ret.mp hhead
    subst hmetadata
    exact ⟨_, (runsTo_ret.mp hrun).2⟩
  · right
    have hlt : start < stop := by omega
    simp only [S3.getBlobRange, if_neg (Nat.not_lt.mpr hle), if_neg heq, hk] at h
    obtain ⟨reply, rest, hlog, hrun⟩ := S3.runsTo_request.mp h
    subst hlog
    rcases ht _ (List.mem_cons_self ..) start stop hlt rfl with
      ⟨hs, output, hreply, chunks, hbody, hchunks⟩ | ⟨hs, error, hreply, _⟩
    · left
      subst hreply
      obtain ⟨_, hresult⟩ := runsTo_ret.mp hrun
      rw [hbody, bodyStream_ok] at hresult
      exact ⟨hlt, hs, _, chunks, hchunks, hresult⟩
    · right
      subst hreply
      refine ⟨hlt, hs, ?_⟩
      by_cases hm : S3.isMissingError error
      · simp only [if_pos hm] at hrun
        exact ⟨_, (runsTo_ret.mp hrun).2⟩
      · simp only [if_neg hm] at hrun
        exact ⟨_, (runsTo_ret.mp hrun).2⟩

/-- An S3 range read succeeds exactly where the range is empty, or begins inside of the content
and can be allocated. -/
theorem readS3_eq_ok_iff {config : S3.S3StorageConfig} {key object : Str}
    (hk : S3.providerKey config key = .ok object) {c : Bytes} {start stop : ℕ} (hle : start ≤ stop)
    {log : List (Sigma S3.Requests.Reply)} {result : Except Stop Bytes}
    (h : RunsTo (readS3 config key start stop) log result) (ht : ∀ e ∈ log, Truthful c e) :
    result = .ok (slice c start stop) ↔
      start = stop ∨ (start < c.length ∧ stop - start < 2 ^ 63) := by
  obtain ⟨first, blob, second, hlog, hget, hrun⟩ := runsTo_bind.mp h
  subst hlog
  rcases getBlobRange_truthful hk hle hget fun e he => ht e (List.mem_append_left _ he) with
    ⟨heq, metadata, hblob⟩ | ⟨hlt, hs, metadata, chunks, hchunks, hblob⟩ | ⟨hlt, hs, e, hblob⟩
  · subst hblob
    have hempty : slice c start stop = [] := by
      rw [slice_eq, heq, Nat.sub_self, List.take_zero]
    have hresult := (runsTo_ret.mp hrun).2
    rw [hresult, hempty]
    simp [collectStorageStream, StorageByteStream.fromBytes, collectChunks, heq]
  · subst hblob
    have hresult := (runsTo_ret.mp hrun).2
    rw [hresult]
    simp only [collectStorageStream, Option.getD_some, Local.collectChunks_map_ok, hchunks,
      List.nil_append, isizeMax]
    split_ifs with hbig
    · simp only [false_iff]
      omega
    · simp only [true_iff]
      omega
  · subst hblob
    have hresult := (runsTo_ret.mp hrun).2
    rw [hresult]
    simp only [reduceCtorEq, false_iff]
    omega

/-! ### Agreement -/

/-- For a blob that all three providers hold, range reads deliver the slice on all of them exactly
when the start is a signed 64-bit offset, the length can be allocated, and the range is empty or
begins inside of the content. -/
theorem range_reads_agree_iff (now : ℤ) (t : FileTree) (s3Config : S3.S3StorageConfig)
    (smbConfig : Smb.SmbStorageConfig) (key object : Str) (c : Bytes) (start stop : ℕ)
    (hk : validateBlobKey key = .ok ()) (hobject : S3.providerKey s3Config key = .ok object)
    (hc : t.files (key.splitOn '/') = some c) (hfits : c.length ≤ t.limits.maxFileSize)
    (hle : start ≤ stop)
    (s3Log : List (Sigma S3.Requests.Reply)) (s3Result : Except Stop Bytes)
    (hs3 : RunsTo (readS3 s3Config key start stop) s3Log s3Result)
    (ht3 : ∀ e ∈ s3Log, Truthful c e)
    (smbLog : List (Sigma Smb.Requests.Reply)) (smbResult : Except Stop Bytes)
    (hsmb : RunsTo (Smb.readRange smbConfig key start stop) smbLog smbResult)
    (hts : ∀ e ∈ smbLog, Smb.Truthful c e) :
    (readLocal now key start stop t = .ok (slice c start stop) ∧
      smbResult = .ok (slice c start stop) ∧ s3Result = .ok (slice c start stop)) ↔
    start < 2 ^ 63 ∧ stop - start < 2 ^ 63 ∧ (start = stop ∨ start < c.length) := by
  have hv := validateBlobKey_eq_ok.mp hk
  have hsmall : c.length < 2 ^ 63 := lt_of_le_of_lt hfits t.limits.offset_bound
  have hsmb' : smbResult = .ok (slice c start stop) := by
    rw [slice_eq]
    exact Smb.readRange_truthful hsmall hv hle hsmb hts
  rw [readLocal_eq_ok_iff hv hc hle, readS3_eq_ok_iff hobject hle hs3 ht3]
  constructor
  · intro h
    obtain ⟨⟨hs, hlen⟩, _, hin⟩ := h
    exact ⟨hs, hlen, hin.imp_right And.left⟩
  · intro h
    obtain ⟨hs, hlen, hin⟩ := h
    exact ⟨⟨hs, hlen⟩, hsmb', hin.imp_right fun hin => ⟨hin, hlen⟩⟩

/-- A store of one short blob, on each provider. -/
def sampleTree : FileTree :=
  ((FileTree.empty Limits.widest).writeFile ["k".toList] [1, 2, 3] 0).2

def sampleSmb : (call : Smb.SmbCall) → Unit → Smb.SmbCall.Reply call × Unit
  | .acquirePermit, _ => (true, ())
  | .releasePermit, _ | .dropFile _, _ => ((), ())
  | .createDirectory _, _ | .createFile _ _, _ | .openExisting _ _, _ => (.ok (.file 0), ())
  | .closeResource _, _ | .close _, _ | .setRename _ _ _, _ | .setDelete _, _ => (.ok (), ())
  | .queryInfo _, _ => (.ok 3, ())
  | .writeBlock _ bytes _, _ => (.ok bytes.length, ())
  | .flush _, _ => (.ok (), ())
  | .readBlock _ length offset, _ => (.ok (([1, 2, 3].drop offset).take length), ())
  | .reconnect, _ => (.ok (), ())

theorem truthful_sampleSmb (call : Smb.SmbCall) (u : Unit) :
    Smb.Truthful [1, 2, 3] ⟨call, (sampleSmb call u).1⟩ := by
  cases call <;> simp [Smb.Truthful, sampleSmb]

/-- The one request of a range read, and what the store of `[1, 2, 3]` answers. -/
def sampleRequest (start stop : ℕ) (reply : Except Str S3.GetObjectOutput) :
    List (Sigma S3.Requests.Reply) :=
  [⟨.getObject "b".toList "k".toList (some (S3.rangeHeader start stop)), reply⟩]

theorem truthful_sampleRequest (start stop : ℕ) (reply : Except Str S3.GetObjectOutput)
    (h : start < stop)
    (hr : (start < 3 ∧ ∃ output, reply = .ok output ∧
        Delivers output.body (slice [1, 2, 3] start stop)) ∨
      (3 ≤ start ∧ ∃ error, reply = .error error ∧ S3.contains error "InvalidRange")) :
    ∀ e ∈ sampleRequest start stop reply, Truthful [1, 2, 3] e := by
  intro e he
  obtain rfl := List.mem_singleton.mp he
  intro start' stop' h' heq
  obtain ⟨hstart, hstop⟩ := rangeHeader_inj h h' heq
  subst hstart hstop
  exact hr

/-- The middle and the end of a blob, asked for with a range that reaches beyond it. -/
theorem range_reads_agree_past_the_end :
    readLocal 0 "k".toList 1 10 sampleTree = .ok [2, 3] ∧
      ((Smb.readRange ⟨none, 1⟩ "k".toList 1 10).exec sampleSmb ()).1 = .ok [2, 3] ∧
      ∃ log, RunsTo (readS3 ⟨"b".toList, none⟩ "k".toList 1 10) log (.ok [2, 3]) := by
  obtain ⟨smbLog, hsmb, hlog⟩ := exec_runsTo sampleSmb
    (Smb.readRange ⟨none, 1⟩ "k".toList 1 10) ()
  have hs3 : RunsTo (readS3 ⟨"b".toList, none⟩ "k".toList 1 10)
      (sampleRequest 1 10 (.ok ⟨some 2, none, [.ok [2, 3]]⟩)) _ :=
    .bind (.call _ _ _ (.ret _)) (.ret _)
  have ht := truthful_sampleRequest 1 10 (.ok ⟨some 2, none, [.ok [2, 3]]⟩) (by decide)
    (Or.inl ⟨by decide, _, rfl, [[2, 3]], rfl, rfl⟩)
  have hread := (range_reads_agree_iff 0 sampleTree ⟨"b".toList, none⟩ ⟨none, 1⟩ "k".toList
    "k".toList [1, 2, 3] 1 10 (by decide) (by decide) (by decide +kernel) (by decide) (by decide)
    _ _ hs3 ht smbLog _ hsmb fun e he => by
      obtain ⟨u, hu⟩ := hlog e he
      have := truthful_sampleSmb e.1 u
      rwa [← hu] at this).mpr ⟨by decide, by decide, Or.inr (by decide)⟩
  obtain ⟨hlocal, hsmb', hs3'⟩ := hread
  rw [hs3'] at hs3
  exact ⟨hlocal, hsmb', _, hs3⟩

/-- A range that starts at the end of the blob is empty for the local backend and for SMB, and an
error for S3. -/
theorem range_reads_disagree : ¬ ∀ (now : ℤ) (t : FileTree) (s3Config : S3.S3StorageConfig)
    (smbConfig : Smb.SmbStorageConfig) (key object : Str) (c : Bytes) (start stop : ℕ),
    validateBlobKey key = .ok () → S3.providerKey s3Config key = .ok object →
    t.files (key.splitOn '/') = some c → c.length ≤ t.limits.maxFileSize → start ≤ stop →
    ∀ (s3Log : List (Sigma S3.Requests.Reply)) (s3Result : Except Stop Bytes),
    RunsTo (readS3 s3Config key start stop) s3Log s3Result → (∀ e ∈ s3Log, Truthful c e) →
    ∀ (smbLog : List (Sigma Smb.Requests.Reply)) (smbResult : Except Stop Bytes),
    RunsTo (Smb.readRange smbConfig key start stop) smbLog smbResult →
    (∀ e ∈ smbLog, Smb.Truthful c e) →
    readLocal now key start stop t = .ok (slice c start stop) ∧
      smbResult = .ok (slice c start stop) ∧ s3Result = .ok (slice c start stop) := by
  intro h
  obtain ⟨smbLog, hsmb, hlog⟩ := exec_runsTo sampleSmb
    (Smb.readRange ⟨none, 1⟩ "k".toList 3 5) ()
  have hs3 : RunsTo (readS3 ⟨"b".toList, none⟩ "k".toList 3 5)
      (sampleRequest 3 5 (.error "InvalidRange".toList)) _ :=
    .bind (.call _ _ _ (.ret _)) (.ret _)
  have ht := truthful_sampleRequest 3 5 (.error "InvalidRange".toList) (by decide)
    (Or.inr ⟨by decide, _, rfl, by decide⟩)
  have hread := (h 0 sampleTree ⟨"b".toList, none⟩ ⟨none, 1⟩ "k".toList "k".toList [1, 2, 3] 3 5
    (by decide) (by decide) (by decide +kernel) (by decide) (by decide) _ _ hs3 ht smbLog _ hsmb
    fun e he => by
      obtain ⟨u, hu⟩ := hlog e he
      have := truthful_sampleSmb e.1 u
      rwa [← hu] at this).2.2
  cases hread

end GraphqlOrmStorage.Ranges
