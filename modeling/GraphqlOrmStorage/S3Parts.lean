import GraphqlOrmStorage.S3Upload

/-!
# How a body is split into requests

`put_blob_inner` collects chunks in a buffer and cuts full parts off it. What it
sends depends on the bytes of the body only: cutting parts off in between and
cutting them off the whole body is the same program. A body below the part size
goes into one request; any other is sent in numbered parts. The numbers are an
`i32`, which bounds the bodies that are numbered without a gap.
-/
namespace GraphqlOrmStorage.S3

open Text Program Prog

variable {config : S3StorageConfig} {providerKey : Str} {options : BlobPutOptions} {D : Digest}

/-! ### Chunkings -/

/-- Go on with a chunk after the full parts of the buffer. -/
def thenFullParts (config : S3StorageConfig) (providerKey : Str) (options : BlobPutOptions)
    (chunk : Bytes) : Except StorageError (Bytes × Option MultipartUploadState) →
      S3M (Except StorageError (Bytes × Option MultipartUploadState))
  | .error e => .ret (.error e)
  | .ok (rest, multipart) => uploadFullParts config providerKey options (rest ++ chunk) multipart

/-- Parts cut off before a chunk arrives are those cut off the whole. -/
theorem uploadFullParts_append (buffer chunk : Bytes) (multipart : Option MultipartUploadState) :
    (uploadFullParts config providerKey options buffer multipart).bind
        (thenFullParts config providerKey options chunk) =
      uploadFullParts config providerKey options (buffer ++ chunk) multipart := by
  induction hn : buffer.length using Nat.strong_induction_on generalizing buffer multipart with
  | _ n ih =>
    by_cases hfull : multipartPartSize ≤ buffer.length
    · have hpos : 0 < multipartPartSize := by decide
      have hfull' : multipartPartSize ≤ (buffer ++ chunk).length := by
        rw [List.length_append]
        omega
      rw [uploadFullParts, dif_pos hfull, uploadFullParts, dif_pos hfull',
        List.take_append_of_le_length hfull, List.drop_append_of_le_length hfull]
      simp only [bind_eq_bind, Prog.bind_assoc]
      congr 1
      funext opened
      cases opened with
      | error e => rfl
      | ok state =>
        simp only [Prog.bind_assoc]
        congr 1
        funext sent
        cases sent with
        | error e => rfl
        | ok state =>
          refine ih _ ?_ _ _ rfl
          rw [List.length_drop]
          omega
    · rw [uploadFullParts_short (Nat.lt_of_not_le hfull)]
      rfl

/-- `size_bytes` after some chunks. -/
def countChunks (size : ℕ) (chunks : List Bytes) : ℕ :=
  chunks.foldl (fun n chunk => saturatingAdd n chunk.length) size

theorem countChunks_eq (size : ℕ) (chunks : List Bytes) (h : size ≤ u64Max) :
    countChunks size chunks = min (size + chunks.flatten.length) u64Max := by
  induction chunks generalizing size with
  | nil => simp [countChunks, h]
  | cons chunk chunks ih =>
    have hstep : countChunks size (chunk :: chunks) =
        countChunks (saturatingAdd size chunk.length) chunks := rfl
    have hle : saturatingAdd size chunk.length ≤ u64Max := min_le_right _ _
    rw [hstep, ih _ hle, List.flatten_cons, List.length_append, saturatingAdd]
    omega

/-- The progress after the loop, which left `rest` in the buffer. -/
def progressAfter (hasher : D.Hasher) (size : ℕ) (chunks : List Bytes)
    (r : Bytes × Option MultipartUploadState) : UploadProgress D :=
  ⟨r.1, chunks.foldl D.update hasher, countChunks size chunks, r.2⟩

/-- The loop over the rest of a body, once the buffer has been cut. -/
def thenChunks (config : S3StorageConfig) (providerKey : Str) (options : BlobPutOptions)
    (items : List (Except StorageError Bytes)) (hasher : D.Hasher) (size : ℕ) :
    Except StorageError (Bytes × Option MultipartUploadState) →
      S3M (Except StorageError (UploadProgress D))
  | .error e => .ret (.error e)
  | .ok (rest, multipart) =>
    uploadChunks config providerKey options items ⟨rest, hasher, size, multipart⟩

/-- The loop over the chunks is one round over their concatenation. -/
theorem uploadChunks_eq {items : List (Except StorageError Bytes)} (hitems : firstError items = none)
    (buffer : Bytes) (multipart : Option MultipartUploadState) (hasher : D.Hasher) (size : ℕ) :
    (uploadFullParts config providerKey options buffer multipart).bind
        (thenChunks config providerKey options items hasher size) =
      (uploadFullParts config providerKey options (buffer ++ (okChunks items).flatten)
        multipart).bind fun r => .ret (r.map (progressAfter hasher size (okChunks items))) := by
  induction items generalizing buffer multipart hasher size with
  | nil =>
    simp only [okChunks, List.flatten_nil, List.append_nil]
    congr 1
    funext r
    cases r <;> rfl
  | cons item items ih =>
    cases item with
    | error e => cases hitems
    | ok chunk =>
      have hsplit : thenChunks config providerKey options (.ok chunk :: items) hasher size =
          fun r => (thenFullParts config providerKey options chunk r).bind
            (thenChunks config providerKey options items (D.update hasher chunk)
              (saturatingAdd size chunk.length)) := by
        funext r
        cases r with
        | error e => rfl
        | ok r =>
          simp only [thenChunks, uploadChunks, thenFullParts, bind_eq_bind]
          congr 1
      rw [hsplit, ← Prog.bind_assoc, uploadFullParts_append, ih hitems, okChunks, List.flatten_cons,
        List.append_assoc]
      rfl

/-- `put_blob_inner` on the bytes of the body. -/
def putWhole (D : Digest) (config : S3StorageConfig) (key : Str) (b : Bytes)
    (options : BlobPutOptions) (ifNotExists : Bool) :
    S3M (Except StorageError (Option BlobWriteOutcome)) :=
  match S3.providerKey config key with
  | .error e => return .error e
  | .ok providerKey => do
    match ← uploadFullParts config providerKey options b none with
    | .error e => return .error e
    | .ok (rest, multipart) =>
      finishUpload config providerKey options ifNotExists
        (⟨rest, D.update D.new b, min b.length u64Max, multipart⟩ : UploadProgress D)

/-- The requests of a write, and what it returns to any replies, are those of its bytes. -/
theorem putBlobInner_eq {body : StorageByteStream} {b : Bytes} (hbody : body.body = .ok b)
    (key : Str) (ifNotExists : Bool) :
    putBlobInner D config key body options ifNotExists =
      putWhole D config key b options ifNotExists := by
  obtain ⟨hitems, hb⟩ := StorageByteStream.body_eq_ok.mp hbody
  unfold putBlobInner putWhole
  cases S3.providerKey config key with
  | error e => rfl
  | ok providerKey =>
    have hstart : uploadChunks config providerKey options body.inner
        (⟨[], D.new, 0, none⟩ : UploadProgress D) =
          (uploadFullParts config providerKey options [] none).bind
            (thenChunks config providerKey options body.inner D.new 0) := by
      rw [uploadFullParts_short (by decide)]
      rfl
    simp only [bind_eq_bind]
    rw [hstart, uploadChunks_eq hitems, List.nil_append, hb, Prog.bind_assoc]
    congr 1
    funext r
    cases r with
    | error e => rfl
    | ok r =>
      have hhash : D.finalize ((okChunks body.inner).foldl D.update D.new) =
          D.finalize (D.update D.new b) := by
        rw [D.finalize_foldl, hb]
      have hsize : countChunks 0 (okChunks body.inner) = min b.length u64Max := by
        rw [countChunks_eq _ _ (Nat.zero_le _), hb, Nat.zero_add]
      simp only [Except.map, ret_bind, finishUpload, progressAfter, hhash, hsize]

/-! ### Numbered parts -/

/-- A request of `put_blob_inner` succeeded. -/
def Succeeds : Sigma Requests.Reply → Prop
  | ⟨.putObject .., reply⟩ => reply = .ok ()
  | ⟨.createMultipartUpload .., reply⟩ => ∃ uploadId, reply = .ok (some uploadId)
  | ⟨.uploadPart .., reply⟩ => ∃ eTag, reply = .ok eTag
  | ⟨.completeMultipartUpload .., reply⟩ => reply = .ok ()
  | ⟨.abortMultipartUpload .., reply⟩ => reply = .ok ()
  | _ => True

/-- A part and the tag it was acknowledged with. -/
abbrev SentPart := Bytes × Option Str

/-- The requests for some parts, numbered from `first` on. -/
def partRequests (config : S3StorageConfig) (providerKey uploadId : Str) (number : ℕ → ℤ) :
    ℕ → List SentPart → RequestLog
  | _, [] => []
  | first, (part, eTag) :: sent =>
    ⟨.uploadPart config.bucket providerKey uploadId (number first) part, .ok eTag⟩ ::
      partRequests config providerKey uploadId number (first + 1) sent

/-- What a completion lists for some parts. -/
def completedParts (number : ℕ → ℤ) : ℕ → List SentPart → List CompletedPart
  | _, [] => []
  | first, (_, eTag) :: sent => ⟨eTag, number first⟩ :: completedParts number (first + 1) sent

/-- The number of the part after `sent` others, counted in an `i32`. -/
def partNumber (sent : ℕ) : ℤ := Int.bmod (sent + 1) (2 ^ 32)

/-- The numbers 1, 2, 3 and so on. -/
def ordinal (sent : ℕ) : ℤ := sent + 1

section Numbering

variable {number : ℕ → ℤ} {uploadId : Str}

theorem partRequests_append (first : ℕ) (sent sent' : List SentPart) :
    partRequests config providerKey uploadId number first (sent ++ sent') =
      partRequests config providerKey uploadId number first sent ++
        partRequests config providerKey uploadId number (first + sent.length) sent' := by
  induction sent generalizing first with
  | nil => rfl
  | cons part sent ih =>
    simp only [List.cons_append, partRequests, ih, List.length_cons, Nat.add_right_comm,
      Nat.add_assoc]

theorem completedParts_append (first : ℕ) (sent sent' : List SentPart) :
    completedParts number first (sent ++ sent') =
      completedParts number first sent ++ completedParts number (first + sent.length) sent' := by
  induction sent generalizing first with
  | nil => rfl
  | cons part sent ih =>
    simp only [List.cons_append, completedParts, ih, List.length_cons, Nat.add_right_comm,
      Nat.add_assoc]

/-- The numbers matter only as far as there are parts. -/
theorem partRequests_congr {number' : ℕ → ℤ} (first : ℕ) (sent : List SentPart)
    (h : ∀ i < first + sent.length, number i = number' i) :
    partRequests config providerKey uploadId number first sent =
      partRequests config providerKey uploadId number' first sent := by
  induction sent generalizing first with
  | nil => rfl
  | cons part sent ih =>
    rw [List.length_cons] at h
    have hrest := ih (first + 1) fun i hi => h i (by omega)
    rw [partRequests, partRequests, hrest, h first (by omega)]

theorem completedParts_congr {number' : ℕ → ℤ} (first : ℕ) (sent : List SentPart)
    (h : ∀ i < first + sent.length, number i = number' i) :
    completedParts number first sent = completedParts number' first sent := by
  induction sent generalizing first with
  | nil => rfl
  | cons part sent ih =>
    rw [List.length_cons] at h
    have hrest := ih (first + 1) fun i hi => h i (by omega)
    rw [completedParts, completedParts, hrest, h first (by omega)]

end Numbering

theorem partNumber_succ (sent : ℕ) :
    Int.bmod (partNumber sent + 1) (2 ^ 32) = partNumber (sent + 1) := by
  have hcast : ((sent + 1 : ℕ) : ℤ) = (sent : ℤ) + 1 := Nat.cast_succ sent
  unfold partNumber
  rw [hcast]
  exact Int.bmod_add_bmod

/-- The state of an upload that has sent some parts. -/
def stateAfter (uploadId : Str) (sent : List SentPart) : MultipartUploadState :=
  ⟨uploadId, partNumber sent.length, completedParts partNumber 0 sent⟩

theorem stateAfter_add (uploadId : Str) (sent : List SentPart) (part : Bytes)
    (eTag : Option Str) :
    (stateAfter uploadId sent).add eTag = stateAfter uploadId (sent ++ [(part, eTag)]) := by
  simp only [MultipartUploadState.add, stateAfter, partNumber_succ, completedParts_append,
    Nat.zero_add, completedParts, List.length_append, List.length_singleton]

theorem createMultipartUpload_succeeds {log : RequestLog}
    {result : Except StorageError MultipartUploadState}
    (h : RunsTo (createMultipartUpload config providerKey options) log result)
    (hlog : ∀ entry ∈ log, Succeeds entry) : ∃ uploadId,
      log = [⟨.createMultipartUpload config.bucket providerKey options.contentType,
        .ok (some uploadId)⟩] ∧ result = .ok (stateAfter uploadId []) := by
  obtain ⟨reply, rest, heq, hrun⟩ := runsTo_request.mp h
  subst heq
  obtain ⟨uploadId, hreply⟩ := hlog _ (List.mem_cons_self ..)
  subst hreply
  obtain ⟨hrest, hresult⟩ := runsTo_ret.mp hrun
  subst hrest hresult
  exact ⟨uploadId, rfl, rfl⟩

theorem completeMultipartUpload_succeeds {state : MultipartUploadState} {ifNotExists : Bool}
    {log : RequestLog} {result : Except StorageError Unit}
    (h : RunsTo (completeMultipartUpload config providerKey state ifNotExists) log result)
    (hlog : ∀ entry ∈ log, Succeeds entry) :
    log = [⟨.completeMultipartUpload config.bucket providerKey state.uploadId state.completedParts
      (ifNoneMatch ifNotExists), .ok ()⟩] ∧ result = .ok () := by
  obtain ⟨reply, rest, heq, hrun⟩ := runsTo_request.mp h
  subst heq
  have hreply : reply = .ok () := hlog _ (List.mem_cons_self ..)
  subst hreply
  obtain ⟨hrest, hresult⟩ := runsTo_ret.mp hrun
  subst hrest hresult
  exact ⟨rfl, rfl⟩

theorem putSingleBlob_succeeds {bytes : Bytes} {ifNotExists : Bool} {log : RequestLog}
    {result : Except StorageError Unit}
    (h : RunsTo (putSingleBlob config providerKey bytes options ifNotExists) log result)
    (hlog : ∀ entry ∈ log, Succeeds entry) :
    log = [⟨.putObject config.bucket providerKey bytes options.contentType
      (ifNoneMatch ifNotExists), .ok ()⟩] ∧ result = .ok () := by
  obtain ⟨reply, rest, heq, hrun⟩ := runsTo_request.mp h
  subst heq
  have hreply : reply = .ok () := hlog _ (List.mem_cons_self ..)
  subst hreply
  obtain ⟨hrest, hresult⟩ := runsTo_ret.mp hrun
  subst hrest hresult
  exact ⟨rfl, rfl⟩

/-- A full part is sent under the next number. -/
theorem uploadPart_succeeds {uploadId : Str} {sent : List SentPart} {bytes : Bytes}
    {log : RequestLog} {result : Except StorageError MultipartUploadState}
    (h : RunsTo (uploadPart config providerKey (stateAfter uploadId sent) bytes) log result)
    (hlog : ∀ entry ∈ log, Succeeds entry) : ∃ eTag,
      log = partRequests config providerKey uploadId partNumber sent.length [(bytes, eTag)] ∧
        result = .ok (stateAfter uploadId (sent ++ [(bytes, eTag)])) := by
  obtain ⟨reply, rest, heq, hrun⟩ := runsTo_request.mp h
  subst heq
  obtain ⟨eTag, hreply⟩ := hlog _ (List.mem_cons_self ..)
  subst hreply
  obtain ⟨hrest, hresult⟩ := runsTo_ret.mp hrun
  subst hrest hresult
  refine ⟨eTag, ?_, by rw [stateAfter_add]⟩
  simp only [partRequests, stateAfter]

/-- The loop on an open upload sends full parts until less than one is left. -/
theorem uploadFullParts_succeeds {uploadId : Str} {sent : List SentPart} {buffer : Bytes}
    {log : RequestLog} {result : Except StorageError (Bytes × Option MultipartUploadState)}
    (h : RunsTo (uploadFullParts config providerKey options buffer
      (some (stateAfter uploadId sent))) log result)
    (hlog : ∀ entry ∈ log, Succeeds entry) : ∃ (full : List SentPart) (rest : Bytes),
      log = partRequests config providerKey uploadId partNumber sent.length full ∧
        result = .ok (rest, some (stateAfter uploadId (sent ++ full))) ∧
        buffer = (full.map Prod.fst).flatten ++ rest ∧
        (∀ part ∈ full, part.1.length = multipartPartSize) ∧
        rest.length < multipartPartSize := by
  induction hn : buffer.length using Nat.strong_induction_on
    generalizing buffer sent log result with
  | _ n ih =>
    by_cases hfull : multipartPartSize ≤ buffer.length
    · rw [uploadFullParts, dif_pos hfull] at h
      simp only [openUpload, bind_eq_bind, pure_eq_ret, ret_bind] at h
      obtain ⟨first, state, second, heq, hpart, hrun⟩ := runsTo_bind.mp h
      subst heq
      obtain ⟨eTag, hfirst, hstate⟩ := uploadPart_succeeds hpart fun e he =>
        hlog e (List.mem_append_left _ he)
      subst hfirst hstate
      have hless : (buffer.drop multipartPartSize).length < n := by
        have hpos : 0 < multipartPartSize := by decide
        rw [List.length_drop]
        omega
      obtain ⟨full, rest, hsecond, hresult, hbuffer, hsize, hrest⟩ :=
        ih _ hless hrun (fun e he => hlog e (List.mem_append_right _ he)) rfl
      refine ⟨(buffer.take multipartPartSize, eTag) :: full, rest, ?_, ?_, ?_, ?_, hrest⟩
      · rw [hsecond, List.length_append, List.length_singleton]
        rfl
      · rw [hresult, List.append_assoc, List.singleton_append]
      · rw [List.map_cons, List.flatten_cons, List.append_assoc, ← hbuffer,
          List.take_append_drop]
      · intro part hpart
        cases List.mem_cons.mp hpart with
        | inl he => rw [he, List.length_take, min_eq_left hfull]
        | inr he => exact hsize part he
    · rw [uploadFullParts_short (Nat.lt_of_not_le hfull)] at h
      obtain ⟨hlog, hresult⟩ := runsTo_ret.mp h
      exact ⟨[], buffer, hlog, by rw [hresult, List.append_nil], rfl, by simp,
        Nat.lt_of_not_le hfull⟩

/-! ### Whole writes -/

/-- The parts of a body: all full but the last, which is neither empty nor too long. -/
structure CutInto (b : Bytes) (parts : List Bytes) : Prop where
  flatten_eq : parts.flatten = b
  full : ∀ part ∈ parts.dropLast, part.length = multipartPartSize
  last : ∀ part ∈ parts.getLast?, part ≠ [] ∧ part.length ≤ multipartPartSize

/-- One multipart upload of the parts of `b`, and a completion that lists them in order. -/
def SentInParts (config : S3StorageConfig) (providerKey : Str) (options : BlobPutOptions)
    (ifNotExists : Bool) (number : ℕ → ℤ) (b : Bytes) (log : RequestLog) : Prop :=
  ∃ (uploadId : Str) (sent : List SentPart), CutInto b (sent.map Prod.fst) ∧
    log = ⟨.createMultipartUpload config.bucket providerKey options.contentType,
        .ok (some uploadId)⟩ ::
      (partRequests config providerKey uploadId number 0 sent ++
        [⟨.completeMultipartUpload config.bucket providerKey uploadId
          (completedParts number 0 sent) (ifNoneMatch ifNotExists), .ok ()⟩])

/-- A single request for a body below the part size, parts for any other. -/
def SendsBody (config : S3StorageConfig) (providerKey : Str) (options : BlobPutOptions)
    (ifNotExists : Bool) (number : ℕ → ℤ) (b : Bytes) (log : RequestLog) : Prop :=
  (b.length < multipartPartSize → log = [⟨.putObject config.bucket providerKey b
    options.contentType (ifNoneMatch ifNotExists), .ok ()⟩]) ∧
  (multipartPartSize ≤ b.length →
    SentInParts config providerKey options ifNotExists number b log)

/-- Full parts and a shorter rest, which is a part of its own unless it is empty. -/
theorem cutInto_rest {full : List SentPart} {rest : Bytes}
    (hsize : ∀ part ∈ full, part.1.length = multipartPartSize)
    (hrest : rest.length < multipartPartSize) {eTag : Option Str} :
    CutInto ((full.map Prod.fst).flatten ++ rest)
      ((full ++ if rest = [] then [] else [(rest, eTag)]).map Prod.fst) := by
  have hpos : 0 < multipartPartSize := by decide
  have hfull : ∀ part ∈ full.map Prod.fst, part.length = multipartPartSize := by
    intro part hpart
    obtain ⟨sent, hsent, he⟩ := List.mem_map.mp hpart
    rw [← he, hsize sent hsent]
  by_cases hr : rest = []
  · rw [if_pos hr, hr, List.append_nil, List.append_nil]
    refine ⟨rfl, fun part hpart => hfull part (List.dropLast_subset _ hpart), fun part hpart => ?_⟩
    have hlen := hfull part (List.mem_of_getLast? hpart)
    exact ⟨List.ne_nil_of_length_pos (by omega), hlen.le⟩
  · rw [if_neg hr, List.map_append, List.map_singleton]
    refine ⟨by rw [List.flatten_append, List.flatten_singleton], fun part hpart => ?_,
      fun part hpart => ?_⟩
    · rw [List.dropLast_concat] at hpart
      exact hfull part hpart
    · rw [List.getLast?_concat, Option.mem_some] at hpart
      exact ⟨hpart ▸ hr, hpart ▸ hrest.le⟩

/-- The rest of the buffer goes into the last part, and the completion lists all of them. -/
theorem finishUpload_parts {uploadId : Str} {sent : List SentPart} {rest : Bytes}
    {hasher : D.Hasher} {size : ℕ} {ifNotExists : Bool} {log : RequestLog}
    {result : Except StorageError (Option BlobWriteOutcome)}
    (h : RunsTo (finishUpload config providerKey options ifNotExists
      (⟨rest, hasher, size, some (stateAfter uploadId sent)⟩ : UploadProgress D)) log result)
    (hlog : ∀ entry ∈ log, Succeeds entry) :
    result = .ok (some ⟨size, lowerHex (D.finalize hasher)⟩) ∧ ∃ eTag : Option Str,
      let last : List SentPart := if rest = [] then [] else [(rest, eTag)]
      log = partRequests config providerKey uploadId partNumber sent.length last ++
        [⟨.completeMultipartUpload config.bucket providerKey uploadId
          (completedParts partNumber 0 (sent ++ last)) (ifNoneMatch ifNotExists), .ok ()⟩] := by
  simp only [finishUpload, bind_eq_bind] at h
  obtain ⟨first, state, second, heq, hlast, hrun⟩ := runsTo_bind.mp h
  subst heq
  have hlast' : ∃ eTag : Option Str,
      first = partRequests config providerKey uploadId partNumber sent.length
          (if rest = [] then [] else [(rest, eTag)]) ∧
        state = .ok (stateAfter uploadId (sent ++ if rest = [] then [] else [(rest, eTag)])) := by
    by_cases hr : rest = []
    · rw [uploadLastPart, if_pos hr] at hlast
      obtain ⟨hfirst, hstate⟩ := runsTo_ret.mp hlast
      exact ⟨none, by rw [if_pos hr, hfirst]; rfl, by rw [if_pos hr, hstate, List.append_nil]⟩
    · rw [uploadLastPart, if_neg hr] at hlast
      obtain ⟨eTag, hfirst, hstate⟩ := uploadPart_succeeds hlast fun e he =>
        hlog e (List.mem_append_left _ he)
      exact ⟨eTag, by rw [if_neg hr, hfirst], by rw [if_neg hr, hstate]⟩
  obtain ⟨eTag, hfirst, hstate⟩ := hlast'
  subst hfirst hstate
  obtain ⟨third, reply, fourth, heq, hcomplete, hret⟩ := runsTo_bind.mp hrun
  obtain ⟨hfourth, hresult⟩ := runsTo_ret.mp hret
  subst heq hfourth
  rw [List.append_nil] at hlog ⊢
  obtain ⟨hthird, hreply⟩ := completeMultipartUpload_succeeds hcomplete fun e he =>
    hlog e (List.mem_append_right _ he)
  subst hthird hreply
  exact ⟨hresult, eTag, rfl⟩

/-- What a write does to which every request succeeds. -/
theorem putWhole_succeeds {key : Str} (hkey : S3.providerKey config key = .ok providerKey)
    {b : Bytes} {ifNotExists : Bool} {log : RequestLog}
    {result : Except StorageError (Option BlobWriteOutcome)}
    (h : RunsTo (putWhole D config key b options ifNotExists) log result)
    (hlog : ∀ entry ∈ log, Succeeds entry) :
    result = .ok (some ⟨min b.length u64Max, sha256Hex D b⟩) ∧
      SendsBody config providerKey options ifNotExists partNumber b log := by
  simp only [putWhole, hkey, bind_eq_bind] at h
  by_cases hfull : multipartPartSize ≤ b.length
  · obtain ⟨first, parts, second, heq, hloop, hrun⟩ := runsTo_bind.mp h
    subst heq
    rw [uploadFullParts, dif_pos hfull] at hloop
    simp only [openUpload, bind_eq_bind] at hloop
    obtain ⟨created, state, sending, heq, hcreate, hparts⟩ := runsTo_bind.mp hloop
    subst heq
    obtain ⟨uploadId, hcreated, hstate⟩ := createMultipartUpload_succeeds hcreate fun e he =>
      hlog e (List.mem_append_left _ (List.mem_append_left _ he))
    subst hcreated hstate
    have hparts : RunsTo (uploadFullParts config providerKey options b
        (some (stateAfter uploadId []))) sending parts := by
      rw [uploadFullParts, dif_pos hfull]
      exact hparts
    obtain ⟨full, rest, hsending, hresult, hb, hsize, hrest⟩ :=
      uploadFullParts_succeeds hparts fun e he => hlog e (by simp [he])
    subst hsending hresult
    rw [List.nil_append] at hrun
    obtain ⟨hresult, eTag, hsecond⟩ := finishUpload_parts hrun fun e he => hlog e (by simp [he])
    refine ⟨hresult, fun hlt => absurd hlt (Nat.not_lt.mpr hfull), fun _ =>
      ⟨uploadId, full ++ if rest = [] then [] else [(rest, eTag)], hb ▸ cutInto_rest hsize hrest,
        ?_⟩⟩
    rw [hsecond, partRequests_append, List.append_assoc]
    simp
  · rw [uploadFullParts_short (Nat.lt_of_not_le hfull)] at h
    simp only [ret_bind, finishUpload, bind_eq_bind] at h
    obtain ⟨first, reply, second, heq, hput, hret⟩ := runsTo_bind.mp h
    obtain ⟨hsecond, hresult⟩ := runsTo_ret.mp hret
    subst heq hsecond
    rw [List.append_nil] at hlog ⊢
    obtain ⟨hfirst, hreply⟩ := putSingleBlob_succeeds hput hlog
    subst hfirst hreply
    exact ⟨hresult, fun _ => rfl, fun hle => absurd hle hfull⟩

/-! ### Where the numbers have no gap -/

/-- The most parts that an `i32` numbers from 1 on. -/
def maxParts : ℕ := 2 ^ 31 - 1

theorem partNumber_of_lt {sent : ℕ} (h : sent < maxParts) : partNumber sent = ordinal sent := by
  unfold maxParts at h
  unfold partNumber ordinal
  exact Int.bmod_eq_of_le (by omega) (by omega)

theorem partNumber_maxParts : partNumber maxParts ≠ ordinal maxParts := by decide

theorem CutInto.length_le {b : Bytes} {parts : List Bytes} (h : CutInto b parts) :
    b.length ≤ parts.length * multipartPartSize ∧
      parts.length * multipartPartSize < b.length + multipartPartSize := by
  obtain ⟨hflat, hfull, hlast⟩ := h
  subst hflat
  cases parts using List.reverseRecOn with
  | nil => exact ⟨Nat.zero_le _, by decide⟩
  | append_singleton parts part =>
    rw [List.dropLast_concat] at hfull
    obtain ⟨hne, hle⟩ := hlast part (by rw [List.getLast?_concat]; rfl)
    have hpos : 0 < part.length := List.length_pos_iff.mpr hne
    have hsum : parts.flatten.length = parts.length * multipartPartSize := by
      rw [List.length_flatten, List.map_congr_left hfull, List.map_const', List.sum_replicate,
        smul_eq_mul]
    simp only [List.flatten_append, List.flatten_singleton, List.length_append, hsum,
      List.length_singleton, Nat.add_mul, Nat.one_mul]
    omega

/-- The number that a request sends a part under. -/
def numberOf : Sigma Requests.Reply → Option ℤ
  | ⟨.uploadPart _ _ _ number _, _⟩ => some number
  | _ => none

theorem numberOf_partRequests (uploadId : Str) (number : ℕ → ℤ) (first : ℕ)
    (sent : List SentPart) :
    (partRequests config providerKey uploadId number first sent).filterMap numberOf =
      (List.range' first sent.length).map number := by
  induction sent generalizing first with
  | nil => rfl
  | cons part sent ih =>
    rw [partRequests, List.length_cons, List.range'_succ, List.map_cons, ← ih]
    rfl

/-- The numbers of an upload of `b`, as many as it has parts. -/
theorem SentInParts.numbers {ifNotExists : Bool} {number : ℕ → ℤ} {b : Bytes} {log : RequestLog}
    (h : SentInParts config providerKey options ifNotExists number b log) : ∃ parts : List Bytes,
      CutInto b parts ∧ log.filterMap numberOf = (List.range parts.length).map number := by
  obtain ⟨uploadId, sent, hcut, hlog⟩ := h
  refine ⟨_, hcut, ?_⟩
  have hparts := @numberOf_partRequests config providerKey uploadId number 0 sent
  rw [hlog, List.length_map, List.range_eq_range', ← hparts, List.filterMap_cons_none rfl,
    List.filterMap_append]
  exact List.append_nil _

/-- An upload is numbered 1, 2, 3 and so on exactly as long as the numbers fit. -/
theorem SendsBody.ordinal_iff {ifNotExists : Bool} {b : Bytes} {log : RequestLog}
    (h : SendsBody config providerKey options ifNotExists partNumber b log) :
    SendsBody config providerKey options ifNotExists ordinal b log ↔
      b.length ≤ maxParts * multipartPartSize := by
  have hmax : multipartPartSize ≤ maxParts * multipartPartSize := by decide
  by_cases hfull : multipartPartSize ≤ b.length
  · have hsent := h.2 hfull
    constructor
    · intro hordinal
      obtain ⟨parts, hcut, hnumbers⟩ := hsent.numbers
      obtain ⟨parts', hcut', hordinals⟩ := (hordinal.2 hfull).numbers
      by_contra hlong
      have hmany : maxParts < parts.length := by
        have := hcut.length_le.1
        exact Nat.lt_of_mul_lt_mul_right (a := multipartPartSize) (by omega)
      have hmany' : maxParts < parts'.length := by
        have := hcut'.length_le.1
        exact Nat.lt_of_mul_lt_mul_right (a := multipartPartSize) (by omega)
      have hat := congrArg (fun l => l[maxParts]?) (hnumbers.symm.trans hordinals)
      simp only [List.getElem?_map, List.getElem?_range hmany, List.getElem?_range hmany',
        Option.map_some, Option.some.injEq] at hat
      exact partNumber_maxParts hat
    · intro hle
      obtain ⟨uploadId, sent, hcut, hlog⟩ := hsent
      have hfew : sent.length ≤ maxParts := by
        have hlt := hcut.length_le.2
        rw [List.length_map] at hlt
        have : sent.length * multipartPartSize < (maxParts + 1) * multipartPartSize := by
          rw [Nat.add_mul, Nat.one_mul]
          omega
        exact Nat.le_of_lt_succ (Nat.lt_of_mul_lt_mul_right this)
      have hnumber : ∀ i < 0 + sent.length, partNumber i = ordinal i := fun i hi =>
        partNumber_of_lt (by omega)
      refine ⟨fun hlt => absurd hfull (Nat.not_le.mpr hlt), fun _ => ⟨uploadId, sent, hcut, ?_⟩⟩
      rw [hlog, partRequests_congr 0 sent hnumber, completedParts_congr 0 sent hnumber]
  · have hshort : b.length ≤ maxParts * multipartPartSize := by omega
    exact ⟨fun _ => hshort, fun _ => ⟨h.1, fun hle => absurd hle hfull⟩⟩

/-- For every body and every chunking: the program is that of any other chunking of the bytes, so
requests and outcome are; and in a run whose requests all succeed the outcome tells length and
hash of the body, and the requests send it, in parts numbered from 1 without a gap, exactly when it
has no more parts than an `i32` numbers. -/
theorem body_sent_in_parts_iff (D : Digest) (config : S3StorageConfig) (key providerKey : Str)
    (body : StorageByteStream) (b : Bytes) (options : BlobPutOptions) (ifNotExists : Bool)
    (hkey : S3.providerKey config key = .ok providerKey) (hbody : body.body = .ok b) :
    (∀ body' : StorageByteStream, body'.body = .ok b →
      putBlobInner D config key body' options ifNotExists =
        putBlobInner D config key body options ifNotExists) ∧
    ∀ log result, RunsTo (putBlobInner D config key body options ifNotExists) log result →
      (∀ entry ∈ log, Succeeds entry) →
        ((result = .ok (some ⟨b.length, sha256Hex D b⟩) ∧
          SendsBody config providerKey options ifNotExists ordinal b log) ↔
            b.length ≤ maxParts * multipartPartSize) := by
  refine ⟨fun body' hbody' => by rw [putBlobInner_eq hbody', putBlobInner_eq hbody], ?_⟩
  intro log result hrun hlog
  rw [putBlobInner_eq hbody] at hrun
  obtain ⟨hresult, hsends⟩ := putWhole_succeeds hkey hrun hlog
  rw [hsends.ordinal_iff, and_iff_right_iff_imp, hresult]
  intro hle
  have hmax : maxParts * multipartPartSize ≤ u64Max := by decide
  rw [min_eq_left (hle.trans hmax)]

/-- A server on which every write succeeds. -/
def accepting : (c : S3Call) → Unit → S3Call.Reply c × Unit
  | .putObject .., _ | .completeMultipartUpload .., _ | .abortMultipartUpload .., _
  | .copyObject .., _ | .deleteObject .., _ => (.ok (), ())
  | .createMultipartUpload .., _ => (.ok (some "u".toList), ())
  | .uploadPart .., _ => (.ok (some "t".toList), ())
  | .getObject .., _ => (.error [], ())
  | .headObject .., _ => (.error [], ())

theorem accepting_succeeds (c : S3Call) : Succeeds ⟨c, (accepting c ()).1⟩ := by
  cases c <;> simp [Succeeds, accepting]

/-- Every program has a run in which its writes succeed. -/
theorem exists_run_succeeds {α : Type} (p : S3M α) : ∃ log result, RunsTo p log result ∧
    ∀ entry ∈ log, Succeeds entry := by
  obtain ⟨log, hrun, hlog⟩ := exec_runsTo accepting p ()
  refine ⟨log, _, hrun, fun entry hentry => ?_⟩
  obtain ⟨_, hreply⟩ := hlog entry hentry
  have hentry : entry = ⟨entry.1, (accepting entry.1 ()).1⟩ := Sigma.ext rfl (heq_of_eq hreply)
  rw [hentry]
  exact accepting_succeeds entry.1

/-- Two parts, the second one short. -/
theorem body_sent_in_parts_short : ∃ log result,
    RunsTo (putBlobInner Digest.sha256 ⟨"b".toList, none⟩ "k".toList (partBody [.ok [7]]) ⟨none⟩
      false) log result ∧
    SendsBody ⟨"b".toList, none⟩ "k".toList ⟨none⟩ false ordinal
      (List.replicate multipartPartSize 0 ++ [7]) log := by
  have hbody : (partBody [.ok [7]]).body = .ok (List.replicate multipartPartSize 0 ++ [7]) :=
    StorageByteStream.body_eq_ok.mpr ⟨rfl, by simp [partBody, okChunks]⟩
  obtain ⟨log, result, hrun, hlog⟩ := exists_run_succeeds (putBlobInner Digest.sha256
    ⟨"b".toList, none⟩ "k".toList (partBody [.ok [7]]) ⟨none⟩ false)
  obtain ⟨_, hiff⟩ := body_sent_in_parts_iff Digest.sha256 ⟨"b".toList, none⟩ "k".toList "k".toList
    (partBody [.ok [7]]) _ ⟨none⟩ false (by decide) hbody
  have hshort : (List.replicate multipartPartSize (0 : UInt8) ++ [7]).length ≤
      maxParts * multipartPartSize := by
    rw [List.length_append, List.length_replicate]
    decide
  exact ⟨log, result, hrun, ((hiff log result hrun hlog).mpr hshort).2⟩

/-- A body of one part more than an `i32` numbers. -/
def overlongBody : StorageByteStream :=
  ⟨List.replicate (maxParts + 1) (.ok (List.replicate multipartPartSize 0)), none⟩

theorem body_overlongBody : ∃ b, overlongBody.body = .ok b ∧
    b.length = (maxParts + 1) * multipartPartSize := by
  have hchunks : ∀ n, firstError (List.replicate n
      (.ok (List.replicate multipartPartSize 0) : Except StorageError Bytes)) = none ∧
      okChunks (List.replicate n (.ok (List.replicate multipartPartSize 0))) =
        List.replicate n (List.replicate multipartPartSize 0) := by
    intro n
    induction n with
    | zero => exact ⟨rfl, rfl⟩
    | succ n ih => exact ⟨ih.1, by rw [List.replicate_succ, okChunks, ih.2, List.replicate_succ]⟩
  refine ⟨_, StorageByteStream.body_eq_ok.mpr ⟨(hchunks (maxParts + 1)).1, rfl⟩, ?_⟩
  rw [overlongBody, (hchunks (maxParts + 1)).2, List.length_flatten, List.map_replicate,
    List.sum_replicate, List.length_replicate, smul_eq_mul]

/-- The parts of an overlong body are not numbered 1, 2, 3 and so on. -/
theorem overlong_body_not_numbered : ¬ ∀ (D : Digest) (config : S3StorageConfig)
    (key providerKey : Str) (body : StorageByteStream) (b : Bytes) (options : BlobPutOptions)
    (ifNotExists : Bool) (log : RequestLog)
    (result : Except StorageError (Option BlobWriteOutcome)),
    S3.providerKey config key = .ok providerKey → body.body = .ok b →
    RunsTo (putBlobInner D config key body options ifNotExists) log result →
    (∀ entry ∈ log, Succeeds entry) →
      SendsBody config providerKey options ifNotExists ordinal b log := by
  intro h
  obtain ⟨b, hbody, hlen⟩ := body_overlongBody
  obtain ⟨log, result, hrun, hlog⟩ := exists_run_succeeds (putBlobInner Digest.sha256
    ⟨"b".toList, none⟩ "k".toList overlongBody ⟨none⟩ false)
  have hkey : S3.providerKey ⟨"b".toList, none⟩ "k".toList = .ok "k".toList := by decide
  have hordinal := h _ _ _ _ _ _ _ _ _ _ hkey hbody hrun hlog
  rw [putBlobInner_eq hbody] at hrun
  have hfits := (putWhole_succeeds hkey hrun hlog).2.ordinal_iff.mp hordinal
  have hover : maxParts * multipartPartSize < (maxParts + 1) * multipartPartSize := by decide
  rw [hlen] at hfits
  omega

end GraphqlOrmStorage.S3
