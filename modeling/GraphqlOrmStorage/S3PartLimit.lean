import GraphqlOrmStorage.S3Parts

/-!
# Part numbers and the provider's limit

Parts have one size and are numbered by a counter, so the number of the last
part grows with the body. The provider takes numbers up to ten thousand. What a
write sends is followed here for any replies and for streams that may fail: the
numbers are consecutive from one, and how far they get depends on the bytes
received so far.
-/
namespace GraphqlOrmStorage.S3

open Text Program Prog

variable {config : S3StorageConfig} {providerKey : Str} {options : BlobPutOptions} {D : Digest}

/-- The largest part number the provider takes. -/
def providerPartLimit : ℕ := 10000

/-- The bytes that arrive before the stream ends or fails. -/
def receivedBytes (body : StorageByteStream) : ℕ := (okChunks body.inner).flatten.length

/-- The body has no more parts than the provider takes. A stream that fails never
gets to its last, shorter part. -/
def FitsPartLimit (body : StorageByteStream) : Prop :=
  if firstError body.inner = none then receivedBytes body ≤ providerPartLimit * multipartPartSize
  else receivedBytes body < (providerPartLimit + 1) * multipartPartSize

/-! ### The numbers of a stage -/

/-- A stage uploads `count` parts after `sent` others. -/
def Sends (sent count : ℕ) (log : RequestLog) : Prop :=
  log.filterMap numberOf = (List.range' sent count).map partNumber

lemma Sends.append {sent m n : ℕ} {first second : RequestLog} (h₁ : Sends sent m first)
    (h₂ : Sends (sent + m) n second) : Sends sent (m + n) (first ++ second) := by
  unfold Sends at h₁ h₂ ⊢
  rw [List.filterMap_append, h₁, h₂, ← List.map_append, List.range'_append_1]

/-- The counter of an upload that has sent some parts; without an upload there are none. -/
def Counts (sent : ℕ) : Option MultipartUploadState → Prop
  | none => sent = 0
  | some state => state.nextPartNumber = partNumber sent

lemma openUpload_counts {before : Option MultipartUploadState} {sent : ℕ}
    (hc : Counts sent before) {log : RequestLog} {result : Except StorageError MultipartUploadState}
    (h : RunsTo (openUpload config providerKey options before) log result) :
    Sends sent 0 log ∧ (∀ state, result = .ok state → Counts sent (some state)) ∧
      ((∀ entry ∈ log, Succeeds entry) → ∃ state, result = .ok state) := by
  cases before with
  | some state =>
    obtain ⟨hlog, hresult⟩ := runsTo_ret.mp h
    subst hlog hresult
    refine ⟨rfl, fun state' he => ?_, fun _ => ⟨state, rfl⟩⟩
    obtain rfl : state = state' := by simpa using he
    exact hc
  | none =>
    have hzero : sent = 0 := hc
    subst hzero
    obtain ⟨reply, rest, hlog, hrun⟩ := runsTo_request.mp h
    subst hlog
    cases reply with
    | error e =>
      obtain ⟨hrest, hresult⟩ := runsTo_ret.mp hrun
      subst hrest hresult
      refine ⟨rfl, fun _ he => (by cases he), fun hall => ?_⟩
      obtain ⟨id, hid⟩ := hall _ (List.mem_singleton_self _)
      cases hid
    | ok id =>
      cases id with
      | none =>
        obtain ⟨hrest, hresult⟩ := runsTo_ret.mp hrun
        subst hrest hresult
        refine ⟨rfl, fun _ he => (by cases he), fun hall => ?_⟩
        obtain ⟨id, hid⟩ := hall _ (List.mem_singleton_self _)
        cases hid
      | some id =>
        obtain ⟨hrest, hresult⟩ := runsTo_ret.mp hrun
        subst hrest hresult
        refine ⟨rfl, fun state he => ?_, fun _ => ⟨_, rfl⟩⟩
        rw [← Except.ok.inj he]
        show (1 : ℤ) = partNumber 0
        decide

lemma uploadPart_counts {state : MultipartUploadState} {sent : ℕ}
    (hc : Counts sent (some state)) {bytes : Bytes} {log : RequestLog}
    {result : Except StorageError MultipartUploadState}
    (h : RunsTo (uploadPart config providerKey state bytes) log result) :
    Sends sent 1 log ∧ (∀ state', result = .ok state' → Counts (sent + 1) (some state')) ∧
      ((∀ entry ∈ log, Succeeds entry) → ∃ state', result = .ok state') := by
  have hnumber : state.nextPartNumber = partNumber sent := hc
  obtain ⟨reply, rest, hlog, hrun⟩ := runsTo_request.mp h
  subst hlog
  cases reply with
  | error e =>
    obtain ⟨hrest, hresult⟩ := runsTo_ret.mp hrun
    subst hrest hresult
    refine ⟨by simp [Sends, numberOf, hnumber], fun _ he => (by cases he), fun hall => ?_⟩
    obtain ⟨eTag, htag⟩ := hall _ (List.mem_singleton_self _)
    cases htag
  | ok eTag =>
    obtain ⟨hrest, hresult⟩ := runsTo_ret.mp hrun
    subst hrest hresult
    refine ⟨by simp [Sends, numberOf, hnumber], fun state' he => ?_, fun _ => ⟨_, rfl⟩⟩
    rw [← Except.ok.inj he]
    show Int.bmod (state.nextPartNumber + 1) (2 ^ 32) = _
    rw [hnumber, partNumber_succ]

/-- Every full part of the buffer takes the next number; if the requests succeed, as many
as there are. -/
lemma uploadFullParts_counts {buffer : Bytes} {before : Option MultipartUploadState} {sent : ℕ}
    (hc : Counts sent before) {log : RequestLog}
    {result : Except StorageError (Bytes × Option MultipartUploadState)}
    (h : RunsTo (uploadFullParts config providerKey options buffer before) log result) :
    ∃ count, Sends sent count log ∧ count * multipartPartSize ≤ buffer.length ∧
      (∀ rest after, result = .ok (rest, after) → Counts (sent + count) after ∧
        rest.length + count * multipartPartSize = buffer.length ∧
        rest.length < multipartPartSize) ∧
      ((∀ entry ∈ log, Succeeds entry) → ∃ rest after, result = .ok (rest, after)) := by
  induction hn : buffer.length using Nat.strong_induction_on
    generalizing buffer before sent log result with
  | _ n ih =>
    rw [uploadFullParts] at h
    by_cases hfull : multipartPartSize ≤ buffer.length
    · rw [dif_pos hfull, bind_eq_bind, runsTo_bind] at h
      obtain ⟨first, opened, rest, hlog, h₁, h⟩ := h
      subst hlog
      obtain ⟨hnone, hopen, hopened⟩ := openUpload_counts hc h₁
      cases opened with
      | error e =>
        obtain ⟨hrest, hresult⟩ := runsTo_ret.mp h
        subst hrest hresult
        refine ⟨0, by rwa [List.append_nil], by omega, fun _ _ he => (by cases he), fun hall => ?_⟩
        obtain ⟨state, hstate⟩ := hopened fun entry he => hall entry (List.mem_append_left _ he)
        cases hstate
      | ok state =>
        simp only [bind_eq_bind, runsTo_bind] at h
        obtain ⟨second, part, third, hlog, h₂, h⟩ := h
        subst hlog
        obtain ⟨hone, hnext, hsent⟩ := uploadPart_counts (hopen state rfl) h₂
        have hfirst : Sends sent 1 (first ++ second) := by
          simpa using hnone.append hone
        cases part with
        | error e =>
          obtain ⟨hrest, hresult⟩ := runsTo_ret.mp h
          subst hrest hresult
          refine ⟨1, by rwa [List.append_nil], by omega, fun _ _ he => (by cases he),
            fun hall => ?_⟩
          obtain ⟨state, hstate⟩ := hsent fun entry he => hall entry (by simp [he])
          cases hstate
        | ok state =>
          have hpos : 0 < multipartPartSize := by decide
          obtain ⟨count, hmore, hle, hok, hall⟩ := ih (buffer.drop multipartPartSize).length
            (by rw [List.length_drop]; omega) (hnext state rfl) h rfl
          have hsum : (1 + count) * multipartPartSize =
              multipartPartSize + count * multipartPartSize := by
            rw [Nat.add_mul, Nat.one_mul]
          rw [List.length_drop] at hle hok
          refine ⟨1 + count, ?_, by omega, fun rest after he => ?_, fun hsucc => ?_⟩
          · rw [← List.append_assoc]
            exact hfirst.append hmore
          · obtain ⟨hcount, hlen, hlt⟩ := hok rest after he
            rw [Nat.add_assoc] at hcount
            exact ⟨hcount, by omega, hlt⟩
          · exact hall fun entry he => hsucc entry (by simp [he])
    · rw [dif_neg hfull] at h
      obtain ⟨hlog, hresult⟩ := runsTo_ret.mp h
      subst hlog hresult
      refine ⟨0, rfl, by omega, fun rest after he => ?_, fun _ => ⟨_, _, rfl⟩⟩
      obtain ⟨rfl, rfl⟩ : buffer = rest ∧ before = after := by simpa using he
      exact ⟨hc, by omega, by omega⟩

/-- The loop over the stream numbers the full parts of what it received. -/
lemma uploadChunks_counts {items : List (Except StorageError Bytes)} {p : UploadProgress D}
    {sent : ℕ} (hc : Counts sent p.multipart) (hp : p.buffer.length < multipartPartSize)
    {log : RequestLog} {result : Except StorageError (UploadProgress D)}
    (h : RunsTo (uploadChunks config providerKey options items p) log result) :
    ∃ count, Sends sent count log ∧
      count * multipartPartSize ≤ p.buffer.length + (okChunks items).flatten.length ∧
      (∀ q, result = .ok q → firstError items = none ∧ Counts (sent + count) q.multipart ∧
        q.buffer.length + count * multipartPartSize =
          p.buffer.length + (okChunks items).flatten.length) ∧
      ((∀ entry ∈ log, Succeeds entry) →
        p.buffer.length + (okChunks items).flatten.length < (count + 1) * multipartPartSize ∧
        (firstError items = none → ∃ q, result = .ok q)) := by
  induction items generalizing p sent log with
  | nil =>
    obtain ⟨hlog, hresult⟩ := runsTo_ret.mp h
    subst hlog hresult
    refine ⟨0, rfl, by omega, fun q he => ?_, fun _ => ⟨by simpa [okChunks] using hp, fun _ =>
      ⟨p, rfl⟩⟩⟩
    obtain rfl := Except.ok.inj he
    exact ⟨rfl, hc, by simp [okChunks]⟩
  | cons item items ih =>
    cases item with
    | error e =>
      obtain ⟨hlog, hresult⟩ := runsTo_ret.mp h
      subst hlog hresult
      refine ⟨0, rfl, by omega, fun _ he => (by cases he), fun _ =>
        ⟨by simpa [okChunks] using hp, fun hnone => ?_⟩⟩
      simp [firstError] at hnone
    | ok chunk =>
      simp only [uploadChunks, bind_eq_bind, runsTo_bind] at h
      obtain ⟨first, parts, second, hlog, h₁, h⟩ := h
      subst hlog
      obtain ⟨count, hsends, hle, hok, hall⟩ := uploadFullParts_counts hc h₁
      rw [List.length_append] at hle hok
      have htotal : (okChunks (.ok chunk :: items)).flatten.length =
          chunk.length + (okChunks items).flatten.length := by
        rw [okChunks, List.flatten_cons, List.length_append]
      cases parts with
      | error e =>
        obtain ⟨hrest, hresult⟩ := runsTo_ret.mp h
        subst hrest hresult
        refine ⟨count, by rwa [List.append_nil], by omega, fun _ he => (by cases he),
          fun hsucc => ?_⟩
        obtain ⟨rest, after, hr⟩ := hall fun entry he => hsucc entry (by simp [he])
        cases hr
      | ok parts =>
        obtain ⟨rest, after⟩ := parts
        obtain ⟨hcount, hlen, hlt⟩ := hok rest after rfl
        obtain ⟨more, hsends', hle', hok', hall'⟩ := ih hcount hlt h
        dsimp only at hle' hok' hall'
        have hsum : (count + more) * multipartPartSize =
            count * multipartPartSize + more * multipartPartSize := Nat.add_mul _ _ _
        refine ⟨count + more, hsends.append hsends', by omega, fun q hq => ?_, fun hsucc => ?_⟩
        · obtain ⟨hnone, hcounts, hq⟩ := hok' q hq
          rw [Nat.add_assoc] at hcounts
          exact ⟨hnone, hcounts, by omega⟩
        · obtain ⟨hless, hdone⟩ := hall' fun entry he => hsucc entry (by simp [he])
          rw [Nat.add_mul, Nat.one_mul] at hless ⊢
          exact ⟨by omega, hdone⟩

lemma putSingleBlob_numbers {bytes : Bytes} {ifNotExists : Bool} {log : RequestLog}
    {result : Except StorageError Unit}
    (h : RunsTo (putSingleBlob config providerKey bytes options ifNotExists) log result) :
    log.filterMap numberOf = [] := by
  obtain ⟨reply, rest, hlog, hrun⟩ := runsTo_request.mp h
  subst hlog
  cases reply with
  | ok _ =>
    obtain ⟨hrest, -⟩ := runsTo_ret.mp hrun
    rw [hrest]
    rfl
  | error error =>
    obtain ⟨hrest, -⟩ := runsTo_ret.mp hrun
    rw [hrest]
    rfl

lemma completeMultipartUpload_numbers {state : MultipartUploadState} {ifNotExists : Bool}
    {log : RequestLog} {result : Except StorageError Unit}
    (h : RunsTo (completeMultipartUpload config providerKey state ifNotExists) log result) :
    log.filterMap numberOf = [] := by
  obtain ⟨reply, rest, hlog, hrun⟩ := runsTo_request.mp h
  subst hlog
  cases reply with
  | ok _ =>
    obtain ⟨hrest, -⟩ := runsTo_ret.mp hrun
    rw [hrest]
    rfl
  | error error =>
    obtain ⟨reply, rest', hlog, hrun⟩ := runsTo_request.mp hrun
    obtain ⟨hrest, -⟩ := runsTo_ret.mp hrun
    rw [hlog, hrest]
    rfl

/-- What is left in the buffer takes one more number. -/
lemma finishUpload_counts {p : UploadProgress D} {sent : ℕ} (hc : Counts sent p.multipart)
    {ifNotExists : Bool} {log : RequestLog}
    {result : Except StorageError (Option BlobWriteOutcome)}
    (h : RunsTo (finishUpload config providerKey options ifNotExists p) log result) :
    ∃ count, Sends sent count log ∧ (count = 0 ∨ count = 1 ∧ p.buffer ≠ []) ∧
      ((∀ entry ∈ log, Succeeds entry) → 0 < sent → p.buffer ≠ [] → count = 1) := by
  unfold finishUpload at h
  cases hm : p.multipart with
  | none =>
    simp only [hm, bind_eq_bind, runsTo_bind] at h
    obtain ⟨first, reply, rest, hlog, hput, hrun⟩ := h
    obtain ⟨hrest, -⟩ := runsTo_ret.mp hrun
    subst hlog hrest
    rw [hm] at hc
    refine ⟨0, ?_, Or.inl rfl, fun _ hpos => absurd hc hpos.ne'⟩
    rw [Sends, List.append_nil, putSingleBlob_numbers hput]
    rfl
  | some state =>
    simp only [hm, bind_eq_bind, runsTo_bind] at h
    rw [hm] at hc
    obtain ⟨first, last, second, hlog, hlast, hrun⟩ := h
    subst hlog
    have hsecond : second.filterMap numberOf = [] := by
      cases last with
      | error e =>
        obtain ⟨hrest, -⟩ := runsTo_ret.mp hrun
        rw [hrest]
        rfl
      | ok state' =>
        obtain ⟨done, completed, rest, hlog, hcomplete, hret⟩ := runsTo_bind.mp hrun
        obtain ⟨hrest, -⟩ := runsTo_ret.mp hret
        rw [hlog, hrest, List.append_nil, completeMultipartUpload_numbers hcomplete]
    unfold uploadLastPart at hlast
    by_cases hb : p.buffer = []
    · rw [if_pos hb] at hlast
      obtain ⟨hfirst, -⟩ := runsTo_ret.mp hlast
      refine ⟨0, ?_, Or.inl rfl, fun _ _ hne => absurd hb hne⟩
      rw [Sends, hfirst, List.nil_append, hsecond]
      rfl
    · rw [if_neg hb] at hlast
      obtain ⟨hone, -, -⟩ := uploadPart_counts hc hlast
      refine ⟨1, ?_, Or.inr ⟨rfl, hb⟩, fun _ _ _ => rfl⟩
      rw [Sends, List.filterMap_append, hsecond, List.append_nil]
      exact hone

/-- The numbers of a whole write are consecutive from one, and as many as the bytes received
make parts. -/
lemma putBlobInner_counts {key : Str} (hkey : S3.providerKey config key = .ok providerKey)
    {body : StorageByteStream} {ifNotExists : Bool} {log : RequestLog}
    {result : Except StorageError (Option BlobWriteOutcome)}
    (h : RunsTo (putBlobInner D config key body options ifNotExists) log result) :
    ∃ count, Sends 0 count log ∧
      (count * multipartPartSize ≤ receivedBytes body ∨ firstError body.inner = none ∧
        count * multipartPartSize < receivedBytes body + multipartPartSize) ∧
      ((∀ entry ∈ log, Succeeds entry) →
        receivedBytes body < (count + 1) * multipartPartSize ∧
        (firstError body.inner = none → multipartPartSize ≤ receivedBytes body →
          receivedBytes body ≤ count * multipartPartSize)) := by
  simp only [putBlobInner, hkey, bind_eq_bind, runsTo_bind] at h
  obtain ⟨first, loop, second, hlog, hloop, h⟩ := h
  subst hlog
  obtain ⟨count, hsends, hle, hok, hall⟩ :=
    uploadChunks_counts (show Counts 0 none from rfl)
      (show ([] : Bytes).length < multipartPartSize by decide) hloop
  simp only [List.length_nil, Nat.zero_add] at hle hok hall
  have hreceived : (okChunks body.inner).flatten.length = receivedBytes body := rfl
  rw [hreceived] at hle hok hall
  cases loop with
  | error e =>
    obtain ⟨hrest, -⟩ := runsTo_ret.mp h
    subst hrest
    rw [List.append_nil]
    refine ⟨count, hsends, Or.inl hle, fun hsucc => ?_⟩
    obtain ⟨hless, hdone⟩ := hall hsucc
    refine ⟨hless, fun hnone => ?_⟩
    obtain ⟨q, hq⟩ := hdone hnone
    cases hq
  | ok p =>
    obtain ⟨hnone, hcounts, hlen⟩ := hok p rfl
    obtain ⟨last, hsends', hlast, hneeded⟩ := finishUpload_counts hcounts h
    have hsum : (count + last) * multipartPartSize =
        count * multipartPartSize + last * multipartPartSize := Nat.add_mul _ _ _
    refine ⟨count + last, hsends.append (by rwa [Nat.zero_add]), ?_, fun hsucc => ?_⟩
    · cases hlast with
      | inl hzero =>
        subst hzero
        exact Or.inl (by omega)
      | inr hone =>
        obtain ⟨rfl, hne⟩ := hone
        have hpos : 0 < p.buffer.length := List.length_pos_iff.mpr hne
        exact Or.inr ⟨hnone, by omega⟩
    · obtain ⟨hless, -⟩ := hall fun entry he => hsucc entry (List.mem_append_left _ he)
      have hnext : (count + last + 1) * multipartPartSize =
          count * multipartPartSize + last * multipartPartSize + multipartPartSize := by
        rw [Nat.add_mul, hsum, Nat.one_mul]
      rw [Nat.add_mul, Nat.one_mul] at hless
      refine ⟨by omega, fun _ hfull => ?_⟩
      by_cases hb : p.buffer = []
      · rw [hb, List.length_nil] at hlen
        omega
      · have hcount : 0 < count := by
          by_contra hzero
          obtain rfl : count = 0 := by omega
          omega
        have hone : last = 1 :=
          hneeded (fun entry he => hsucc entry (List.mem_append_right _ he)) (by omega) hb
        subst hone
        omega

/-- Every part number of a write is one that the provider takes, and its counter counts. -/
def NumbersTaken (D : Digest) (config : S3StorageConfig) (key : Str) (body : StorageByteStream)
    (options : BlobPutOptions) (ifNotExists : Bool) : Prop :=
  ∀ log result, RunsTo (putBlobInner D config key body options ifNotExists) log result →
    (∀ number ∈ log.filterMap numberOf, 1 ≤ number ∧ number ≤ (providerPartLimit : ℤ)) ∧
    ∃ count < maxParts, log.filterMap numberOf = (List.range count).map ordinal

lemma mem_numbers {count : ℕ} (h : count ≤ providerPartLimit) {number : ℤ}
    (hn : number ∈ (List.range count).map ordinal) :
    1 ≤ number ∧ number ≤ (providerPartLimit : ℤ) := by
  obtain ⟨i, hi, rfl⟩ := List.mem_map.mp hn
  rw [List.mem_range] at hi
  unfold ordinal
  omega

/-- For every stream and every chunking: whatever the replies are, the part numbers are
those of the provider exactly when the bytes received make no more parts than it takes.
A refused key sends nothing. -/
theorem part_numbers_taken_iff (D : Digest) (config : S3StorageConfig) (key : Str)
    (body : StorageByteStream) (options : BlobPutOptions) (ifNotExists : Bool) :
    NumbersTaken D config key body options ifNotExists ↔
      (∃ e, S3.providerKey config key = .error e) ∨ FitsPartLimit body := by
  have hpart : 0 < multipartPartSize := by decide
  have hmax : providerPartLimit < maxParts := by decide
  cases hkey : S3.providerKey config key with
  | error e =>
    refine ⟨fun _ => Or.inl ⟨e, rfl⟩, fun _ log result h => ?_⟩
    simp only [putBlobInner, hkey] at h
    obtain ⟨hlog, -⟩ := runsTo_ret.mp h
    subst hlog
    exact ⟨by simp, 0, by decide, rfl⟩
  | ok providerKey =>
    constructor
    · intro h
      refine Or.inr ?_
      obtain ⟨log, result, hrun, hlog⟩ :=
        exists_run_succeeds (putBlobInner D config key body options ifNotExists)
      obtain ⟨htaken, count', -, hordinal⟩ := h log result hrun
      obtain ⟨count, hsends, -, hall⟩ := putBlobInner_counts hkey hrun
      obtain ⟨hless, hwhole⟩ := hall hlog
      -- As many numbers as parts, and the last of them is the number of parts.
      have hcount : count ≤ providerPartLimit := by
        have heq : count = count' := by
          have hlen := congrArg List.length (hsends.symm.trans hordinal)
          simpa using hlen
        subst heq
        by_contra hmany
        have hlast : ordinal (count - 1) ∈ log.filterMap numberOf := by
          rw [hordinal]
          exact List.mem_map_of_mem (List.mem_range.mpr (by omega))
        have hbound := (htaken _ hlast).2
        unfold ordinal at hbound
        omega
      have hmono : count * multipartPartSize ≤ providerPartLimit * multipartPartSize :=
        Nat.mul_le_mul_right _ hcount
      unfold FitsPartLimit
      split_ifs with hnone
      · by_cases hfull : multipartPartSize ≤ receivedBytes body
        · exact (hwhole hnone hfull).trans hmono
        · have hone : multipartPartSize ≤ providerPartLimit * multipartPartSize := by decide
          omega
      · rw [Nat.add_mul, Nat.one_mul] at hless ⊢
        omega
    · intro h
      have hfits : FitsPartLimit body := h.resolve_left (by simp)
      intro log result hrun
      obtain ⟨count, hsends, hle, -⟩ := putBlobInner_counts hkey hrun
      have hcount : count ≤ providerPartLimit := by
        have hsize : count * multipartPartSize < (providerPartLimit + 1) * multipartPartSize := by
          rw [Nat.add_mul, Nat.one_mul]
          unfold FitsPartLimit at hfits
          split_ifs at hfits with hnone
          · omega
          · rw [Nat.add_mul, Nat.one_mul] at hfits
            cases hle with
            | inl hle => omega
            | inr hle => exact absurd hle.1 hnone
        exact Nat.le_of_lt_succ (Nat.lt_of_mul_lt_mul_right hsize)
      have hnumbers : log.filterMap numberOf = (List.range count).map ordinal := by
        rw [hsends, ← List.range_eq_range']
        refine List.map_congr_left fun i hi => partNumber_of_lt ?_
        rw [List.mem_range] at hi
        omega
      rw [hnumbers]
      exact ⟨fun number hn => mem_numbers hcount hn, count, by omega, rfl⟩

/-- A stream of full chunks, one of them more than the provider takes parts. -/
def bodyOverLimit : StorageByteStream :=
  ⟨List.replicate (providerPartLimit + 1) (.ok (List.replicate multipartPartSize 0)), none⟩

/-- It is far from the largest object, but its last part is refused. -/
theorem large_upload_exceeds_part_limit : ¬ ∀ (D : Digest) (config : S3StorageConfig) (key : Str)
    (body : StorageByteStream) (options : BlobPutOptions) (ifNotExists : Bool),
    receivedBytes body ≤ 5 * 2 ^ 40 → NumbersTaken D config key body options ifNotExists := by
  intro h
  have hchunks : ∀ n, firstError (List.replicate n
      (.ok (List.replicate multipartPartSize 0) : Except StorageError Bytes)) = none ∧
      (okChunks (List.replicate n (.ok (List.replicate multipartPartSize 0)))).flatten.length =
        n * multipartPartSize := by
    intro n
    induction n with
    | zero => exact ⟨rfl, by simp [okChunks]⟩
    | succ n ih =>
      refine ⟨ih.1, ?_⟩
      rw [List.replicate_succ, okChunks, List.flatten_cons, List.length_append, ih.2,
        List.length_replicate, Nat.add_mul, Nat.one_mul, Nat.add_comm]
  obtain ⟨hnone, hlen⟩ := hchunks (providerPartLimit + 1)
  have hsize : receivedBytes bodyOverLimit = (providerPartLimit + 1) * multipartPartSize := hlen
  have htaken := h Digest.sha256 ⟨"b".toList, none⟩ "k".toList bodyOverLimit ⟨none⟩ false
    (by rw [hsize]; decide)
  have hkey : S3.providerKey ⟨"b".toList, none⟩ "k".toList = .ok "k".toList := by decide
  obtain ⟨log, result, hrun, hlog⟩ := exists_run_succeeds (putBlobInner Digest.sha256
    ⟨"b".toList, none⟩ "k".toList bodyOverLimit ⟨none⟩ false)
  obtain ⟨hnumbers, -⟩ := htaken log result hrun
  obtain ⟨count, hsends, -, hall⟩ := putBlobInner_counts hkey hrun
  have hwhole := (hall hlog).2 hnone (by rw [hsize]; decide)
  rw [hsize] at hwhole
  have hcount : providerPartLimit < count :=
    Nat.lt_of_succ_le (Nat.le_of_mul_le_mul_right hwhole (by decide))
  have hlast : partNumber providerPartLimit ∈ log.filterMap numberOf := by
    rw [hsends, ← List.range_eq_range']
    exact List.mem_map_of_mem (List.mem_range.mpr hcount)
  have hbound := (hnumbers _ hlast).2
  revert hbound
  decide

end GraphqlOrmStorage.S3
