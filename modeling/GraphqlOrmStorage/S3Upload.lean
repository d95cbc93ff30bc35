import GraphqlOrmStorage.S3Blob

/-!
# Multipart uploads left open

A multipart upload exists from the response that names it until it is completed
or aborted. The run of `put_blob_inner` is followed against arbitrary replies:
up to the completion a run is described by the upload it holds, and no request
before the completion releases anything. So the upload is released exactly when
the completion is reached.
-/
namespace GraphqlOrmStorage.S3

open Text Program Prog

/-- A multipart upload, as requests name it. -/
structure Upload where
  bucket : Str
  key : Str
  uploadId : Str
  deriving DecidableEq

/-- Requests and their replies, in the order they were made. -/
abbrev RequestLog := List (Sigma Requests.Reply)

/-- The upload that a response opened. -/
def opensUpload : Sigma Requests.Reply → Option Upload
  | ⟨.createMultipartUpload bucket key _, .ok (some uploadId)⟩ => some ⟨bucket, key, uploadId⟩
  | _ => none

/-- The upload that was completed, or that an abort was sent for. -/
def releasesUpload : Sigma Requests.Reply → Option Upload
  | ⟨.completeMultipartUpload bucket key uploadId _ _, .ok ()⟩ => some ⟨bucket, key, uploadId⟩
  | ⟨.abortMultipartUpload bucket key uploadId, _⟩ => some ⟨bucket, key, uploadId⟩
  | _ => none

/-- A part was sent and not accepted. -/
def refusesPart : Sigma Requests.Reply → Bool
  | ⟨.uploadPart .., .error _⟩ => true
  | _ => false

def openedUploads (log : RequestLog) : List Upload := log.filterMap opensUpload

def releasedUploads (log : RequestLog) : List Upload := log.filterMap releasesUpload

/-- Every upload that was opened has been completed or aborted. -/
def UploadsReleased (log : RequestLog) : Prop := ∀ u ∈ openedUploads log, u ∈ releasedUploads log

/-- Every part that was sent was accepted. -/
def PartsAccepted (log : RequestLog) : Prop := ∀ entry ∈ log, refusesPart entry = false

@[simp] theorem openedUploads_append (first second : RequestLog) :
    openedUploads (first ++ second) = openedUploads first ++ openedUploads second :=
  List.filterMap_append

@[simp] theorem releasedUploads_append (first second : RequestLog) :
    releasedUploads (first ++ second) = releasedUploads first ++ releasedUploads second :=
  List.filterMap_append

@[simp] theorem partsAccepted_append (first second : RequestLog) :
    PartsAccepted (first ++ second) ↔ PartsAccepted first ∧ PartsAccepted second := by
  simp only [PartsAccepted, List.forall_mem_append]

variable {config : S3StorageConfig} {providerKey : Str} {options : BlobPutOptions}

/-- The upload that the state of a run stands for. -/
def held (config : S3StorageConfig) (providerKey : Str) :
    Option MultipartUploadState → List Upload
  | none => []
  | some state => [⟨config.bucket, providerKey, state.uploadId⟩]

/-- A stage before the completion releases nothing. If it ends well it passes on the upload
it was given or opened; if it fails then for the reason `fault`, because a part was refused, or
without an upload. -/
def Carries (config : S3StorageConfig) (providerKey : Str) (fault : Prop)
    (before : Option MultipartUploadState) (log : RequestLog) :
    Except StorageError (Option MultipartUploadState) → Prop
  | .ok after => releasedUploads log = [] ∧ PartsAccepted log ∧
      held config providerKey before ++ openedUploads log = held config providerKey after
  | .error _ => releasedUploads log = [] ∧ (fault ∨ ¬ PartsAccepted log ∨
      held config providerKey before ++ openedUploads log = [])

theorem Carries.refl (fault : Prop) (state : Option MultipartUploadState) :
    Carries config providerKey fault state [] (.ok state) := by
  simp [Carries, releasedUploads, PartsAccepted, openedUploads]

theorem Carries.trans {fault : Prop} {before middle : Option MultipartUploadState}
    {first second : RequestLog} {result : Except StorageError (Option MultipartUploadState)}
    (h₁ : Carries config providerKey fault before first (.ok middle))
    (h₂ : Carries config providerKey fault middle second result) :
    Carries config providerKey fault before (first ++ second) result := by
  obtain ⟨hrel, hacc, hheld⟩ := h₁
  cases result with
  | ok after =>
    obtain ⟨hrel', hacc', hheld'⟩ := h₂
    refine ⟨by simp [hrel, hrel'], (partsAccepted_append _ _).mpr ⟨hacc, hacc'⟩, ?_⟩
    rw [openedUploads_append, ← List.append_assoc, hheld, hheld']
  | error e =>
    obtain ⟨hrel', h⟩ := h₂
    refine ⟨by simp [hrel, hrel'], ?_⟩
    rw [partsAccepted_append, openedUploads_append, ← List.append_assoc, hheld]
    tauto

theorem Carries.mono {fault fault' : Prop} (hf : fault → fault')
    {before : Option MultipartUploadState} {log : RequestLog}
    {result : Except StorageError (Option MultipartUploadState)}
    (h : Carries config providerKey fault before log result) :
    Carries config providerKey fault' before log result := by
  cases result with
  | ok after => exact h
  | error e => exact ⟨h.1, h.2.imp_left hf⟩

theorem openUpload_carries {before : Option MultipartUploadState} {log : RequestLog}
    {result : Except StorageError MultipartUploadState}
    (h : RunsTo (openUpload config providerKey options before) log result) :
    Carries config providerKey False before log (result.map some) := by
  cases before with
  | some state =>
    obtain ⟨hlog, hresult⟩ := runsTo_ret.mp h
    subst hlog hresult
    exact Carries.refl _ _
  | none =>
    obtain ⟨reply, rest, hlog, hrun⟩ := runsTo_request.mp h
    subst hlog
    rcases reply with error | (_ | uploadId)
    all_goals
      obtain ⟨hrest, hresult⟩ := runsTo_ret.mp hrun
      subst hrest hresult
      simp [Carries, Except.map, releasedUploads, releasesUpload, openedUploads, opensUpload, held,
        PartsAccepted, refusesPart]

theorem uploadPart_carries {state : MultipartUploadState} {bytes : Bytes} {log : RequestLog}
    {result : Except StorageError MultipartUploadState}
    (h : RunsTo (uploadPart config providerKey state bytes) log result) :
    Carries config providerKey False (some state) log (result.map some) := by
  obtain ⟨reply, rest, hlog, hrun⟩ := runsTo_request.mp h
  subst hlog
  cases reply with
  | error error =>
    obtain ⟨hrest, hresult⟩ := runsTo_ret.mp hrun
    subst hrest hresult
    simp [Carries, Except.map, releasedUploads, releasesUpload, PartsAccepted, refusesPart]
  | ok eTag =>
    obtain ⟨hrest, hresult⟩ := runsTo_ret.mp hrun
    subst hrest hresult
    simp [Carries, Except.map, releasedUploads, releasesUpload, openedUploads, opensUpload, held,
      PartsAccepted, refusesPart, MultipartUploadState.add]

theorem uploadFullParts_carries {buffer : Bytes} {before : Option MultipartUploadState}
    {log : RequestLog} {result : Except StorageError (Bytes × Option MultipartUploadState)}
    (h : RunsTo (uploadFullParts config providerKey options buffer before) log result) :
    Carries config providerKey False before log (result.map Prod.snd) := by
  induction hn : buffer.length using Nat.strong_induction_on
    generalizing buffer before log result with
  | _ n ih =>
    rw [uploadFullParts] at h
    by_cases hb : multipartPartSize ≤ buffer.length
    · rw [dif_pos hb, bind_eq_bind, runsTo_bind] at h
      obtain ⟨log₁, opened, rest, hlog, h₁, h⟩ := h
      subst hlog
      have hopen := openUpload_carries h₁
      cases opened with
      | error e =>
        obtain ⟨hrest, hresult⟩ := runsTo_ret.mp h
        subst hrest hresult
        simpa [Except.map] using hopen
      | ok state =>
        simp only [bind_eq_bind, runsTo_bind] at h
        obtain ⟨log₂, sent, log₃, hlog, h₂, h⟩ := h
        subst hlog
        refine hopen.trans ?_
        have hpart := uploadPart_carries h₂
        cases sent with
        | error e =>
          obtain ⟨hrest, hresult⟩ := runsTo_ret.mp h
          subst hrest hresult
          simpa [Except.map] using hpart
        | ok state =>
          refine hpart.trans (ih _ ?_ h rfl)
          have hpos : 0 < multipartPartSize := by decide
          rw [List.length_drop]
          omega
    · rw [dif_neg hb] at h
      obtain ⟨hlog, hresult⟩ := runsTo_ret.mp h
      subst hlog hresult
      exact Carries.refl _ _

variable {D : Digest}

/-- The loop over the body; a stream error is its only other way to fail. -/
theorem uploadChunks_carries {items : List (Except StorageError Bytes)} {p : UploadProgress D}
    {log : RequestLog} {result : Except StorageError (UploadProgress D)}
    (h : RunsTo (uploadChunks config providerKey options items p) log result) :
    Carries config providerKey (firstError items ≠ none) p.multipart log
        (result.map UploadProgress.multipart) ∧
      ∀ p', result = .ok p' → firstError items = none := by
  induction items generalizing p log with
  | nil =>
    obtain ⟨hlog, hresult⟩ := runsTo_ret.mp h
    subst hlog hresult
    exact ⟨Carries.refl _ _, fun _ _ => rfl⟩
  | cons item items ih =>
    cases item with
    | error e =>
      obtain ⟨hlog, hresult⟩ := runsTo_ret.mp h
      subst hlog hresult
      exact ⟨⟨rfl, Or.inl (by simp [firstError])⟩, fun _ he => by cases he⟩
    | ok chunk =>
      simp only [uploadChunks, bind_eq_bind, runsTo_bind] at h
      obtain ⟨first, sent, second, hlog, h₁, h⟩ := h
      subst hlog
      have hparts := (uploadFullParts_carries h₁).mono
        (show False → firstError items ≠ none from False.elim)
      cases sent with
      | error e =>
        obtain ⟨hrest, hresult⟩ := runsTo_ret.mp h
        subst hrest hresult
        exact ⟨by simpa [Except.map, firstError] using hparts, fun _ he => by cases he⟩
      | ok sent =>
        obtain ⟨hrest, hok⟩ := ih h
        exact ⟨hparts.trans hrest, hok⟩

/-- Once the completion is reached the upload is completed or aborted. -/
theorem completeMultipartUpload_releases {state : MultipartUploadState} {ifNotExists : Bool}
    {log : RequestLog} {result : Except StorageError Unit}
    (h : RunsTo (completeMultipartUpload config providerKey state ifNotExists) log result) :
    releasedUploads log = held config providerKey (some state) ∧ openedUploads log = [] ∧
      PartsAccepted log := by
  obtain ⟨reply, rest, hlog, hrun⟩ := runsTo_request.mp h
  subst hlog
  cases reply with
  | ok _ =>
    obtain ⟨hrest, _⟩ := runsTo_ret.mp hrun
    subst hrest
    simp [releasedUploads, releasesUpload, openedUploads, opensUpload, held, PartsAccepted,
      refusesPart]
  | error error =>
    obtain ⟨reply, rest', hlog, hrun⟩ := runsTo_request.mp hrun
    obtain ⟨hrest, _⟩ := runsTo_ret.mp hrun
    subst hlog hrest
    exact ⟨rfl, rfl, by simp [PartsAccepted, refusesPart]⟩

/-- Without parts there is a single request and no upload. -/
theorem putSingleBlob_requests {bytes : Bytes} {ifNotExists : Bool} {log : RequestLog}
    {result : Except StorageError Unit}
    (h : RunsTo (putSingleBlob config providerKey bytes options ifNotExists) log result) :
    openedUploads log = [] ∧ PartsAccepted log := by
  obtain ⟨reply, rest, hlog, hrun⟩ := runsTo_request.mp h
  subst hlog
  cases reply with
  | error error =>
    obtain ⟨hrest, _⟩ := runsTo_ret.mp hrun
    subst hrest
    simp [openedUploads, opensUpload, PartsAccepted, refusesPart]
  | ok _ =>
    obtain ⟨hrest, _⟩ := runsTo_ret.mp hrun
    subst hrest
    simp [openedUploads, opensUpload, PartsAccepted, refusesPart]

theorem uploadLastPart_carries {state : MultipartUploadState} {buffer : Bytes} {log : RequestLog}
    {result : Except StorageError MultipartUploadState}
    (h : RunsTo (uploadLastPart config providerKey state buffer) log result) :
    Carries config providerKey False (some state) log (result.map some) := by
  unfold uploadLastPart at h
  by_cases hb : buffer = []
  · rw [if_pos hb] at h
    obtain ⟨hlog, hresult⟩ := runsTo_ret.mp h
    subst hlog hresult
    exact Carries.refl _ _
  · rw [if_neg hb] at h
    exact uploadPart_carries h

/-- The run stopped before the completion, where nothing is released. -/
def StoppedEarly (fault : Prop) (log : RequestLog) : Prop :=
  releasedUploads log = [] ∧ (fault ∨ ¬ PartsAccepted log ∨ openedUploads log = [])

theorem Carries.stoppedEarly {fault : Prop} {log : RequestLog} {e : StorageError}
    (h : Carries config providerKey fault none log (.error e)) : StoppedEarly fault log := h

/-- After the loop the run refuses the last part, or it reaches the completion and releases
what it holds. -/
theorem finishUpload_releases {p : UploadProgress D} {ifNotExists : Bool}
    {first second : RequestLog} {result : Except StorageError (Option BlobWriteOutcome)}
    (hloop : Carries config providerKey False none first (.ok p.multipart))
    (h : RunsTo (finishUpload config providerKey options ifNotExists p) second result) :
    StoppedEarly False (first ++ second) ∨
      (PartsAccepted (first ++ second) ∧ UploadsReleased (first ++ second)) := by
  unfold finishUpload at h
  cases hp : p.multipart with
  | none =>
    simp only [hp, bind_eq_bind, runsTo_bind] at h hloop
    obtain ⟨sent, reply, rest, hlog, hput, hrun⟩ := h
    obtain ⟨hrest, _⟩ := runsTo_ret.mp hrun
    obtain ⟨hopened, haccepted⟩ := putSingleBlob_requests hput
    obtain ⟨_, haccepted', hheld⟩ := hloop
    have hnone : openedUploads first = [] := by simpa [held] using hheld
    subst hlog hrest
    refine Or.inr ⟨by simp [haccepted, haccepted'], ?_⟩
    simp [UploadsReleased, hnone, hopened]
  | some state =>
    simp only [hp, bind_eq_bind, runsTo_bind] at h hloop
    obtain ⟨sent, reply, rest, hlog, hlast, hrun⟩ := h
    have hcarries := hloop.trans (uploadLastPart_carries hlast)
    subst hlog
    rw [← List.append_assoc]
    cases reply with
    | error e =>
      obtain ⟨hrest, _⟩ := runsTo_ret.mp hrun
      subst hrest
      rw [List.append_nil]
      exact Or.inl hcarries.stoppedEarly
    | ok state' =>
      obtain ⟨done, completed, last, hlog, hcomplete, hrun⟩ := runsTo_bind.mp hrun
      obtain ⟨hlast, _⟩ := runsTo_ret.mp hrun
      obtain ⟨_, haccepted, hheld⟩ := hcarries
      obtain ⟨hreleased, hopened, haccepted'⟩ := completeMultipartUpload_releases hcomplete
      subst hlog hlast
      rw [List.append_nil]
      refine Or.inr ⟨(partsAccepted_append _ _).mpr ⟨haccepted, haccepted'⟩, fun u hu => ?_⟩
      rw [openedUploads_append, hopened, List.append_nil] at hu
      have hstate : u ∈ held config providerKey (some state') := by
        rw [← hheld]
        exact List.mem_append_right _ hu
      rw [releasedUploads_append, hreleased]
      exact List.mem_append_right _ hstate

/-- A run of `put_blob_inner` stops early, or it has seen the whole body and leaves nothing
open. -/
theorem putBlobInner_releases {key : Str} {body : StorageByteStream} {ifNotExists : Bool}
    {log : RequestLog} {result : Except StorageError (Option BlobWriteOutcome)}
    (h : RunsTo (putBlobInner D config key body options ifNotExists) log result) :
    StoppedEarly (firstError body.inner ≠ none) log ∨
      (firstError body.inner = none ∧ PartsAccepted log ∧ UploadsReleased log) := by
  unfold putBlobInner at h
  cases hk : S3.providerKey config key with
  | error e =>
    simp only [hk] at h
    obtain ⟨hlog, _⟩ := runsTo_ret.mp h
    subst hlog
    exact Or.inl ⟨rfl, Or.inr (Or.inr rfl)⟩
  | ok providerKey =>
    simp only [hk, bind_eq_bind, runsTo_bind] at h
    obtain ⟨first, progress, second, hlog, hloop, hrun⟩ := h
    subst hlog
    obtain ⟨hcarries, hend⟩ := uploadChunks_carries hloop
    cases progress with
    | error e =>
      obtain ⟨hsecond, _⟩ := runsTo_ret.mp hrun
      subst hsecond
      rw [List.append_nil]
      exact Or.inl hcarries.stoppedEarly
    | ok p =>
      have hnone := hend p rfl
      have hfinish := finishUpload_releases (hcarries.mono fun hf => hf hnone) hrun
      rcases hfinish with ⟨hreleased, hcause⟩ | hreleased
      · exact Or.inl ⟨hreleased, hcause.imp_left False.elim⟩
      · exact Or.inr ⟨hnone, hreleased⟩

/-- For every body, every kind of write and every pattern of replies: no upload is left open
exactly when none was opened, or the body has no error and every part is accepted. -/
theorem multipart_uploads_released_iff (D : Digest) (config : S3StorageConfig) (key : Str)
    (body : StorageByteStream) (options : BlobPutOptions) (ifNotExists : Bool) (log : RequestLog)
    (result : Except StorageError (Option BlobWriteOutcome))
    (h : RunsTo (putBlobInner D config key body options ifNotExists) log result) :
    UploadsReleased log ↔
      openedUploads log = [] ∨ (firstError body.inner = none ∧ PartsAccepted log) := by
  rcases putBlobInner_releases h with ⟨hreleased, hcause⟩ | ⟨hnone, haccepted, hall⟩
  · have hiff : UploadsReleased log ↔ openedUploads log = [] := by
      simp [UploadsReleased, hreleased, List.eq_nil_iff_forall_not_mem]
    rw [hiff]
    tauto
  · exact ⟨fun _ => Or.inr ⟨hnone, haccepted⟩, fun _ => hall⟩

theorem uploadFullParts_short {buffer : Bytes} (h : buffer.length < multipartPartSize)
    (multipart : Option MultipartUploadState) :
    uploadFullParts config providerKey options buffer multipart =
      .ret (.ok (buffer, multipart)) := by
  rw [uploadFullParts, dif_neg (by omega)]
  rfl

/-- A stream of one full part, and then possibly an error. -/
def partBody (rest : List (Except StorageError Bytes)) : StorageByteStream :=
  ⟨.ok (List.replicate multipartPartSize 0) :: rest, none⟩

/-- The first part of `partBody` opens an upload and is sent at once. -/
theorem runsTo_fullPart (config : S3StorageConfig) (providerKey uploadId : Str) :
    RunsTo (uploadFullParts config providerKey ⟨none⟩ (List.replicate multipartPartSize 0) none)
      [⟨.createMultipartUpload config.bucket providerKey none, .ok (some uploadId)⟩,
        ⟨.uploadPart config.bucket providerKey uploadId 1 (List.replicate multipartPartSize 0),
          .ok none⟩]
      (.ok ([], some ⟨uploadId, 2, [⟨none, 1⟩]⟩)) := by
  have hlen : (List.replicate multipartPartSize (0 : UInt8)).length = multipartPartSize :=
    List.length_replicate
  rw [uploadFullParts, dif_pos (by rw [hlen])]
  refine runsTo_request.mpr ⟨.ok (some uploadId), _, rfl, ?_⟩
  rw [List.take_of_length_le (by rw [hlen]), List.drop_eq_nil_of_le (by rw [hlen])]
  refine runsTo_request.mpr ⟨.ok none, _, rfl, ?_⟩
  show RunsTo (uploadFullParts config providerKey ⟨none⟩ [] _) _ _
  rw [uploadFullParts_short (by decide)]
  exact .ret _

/-- A completion that fails is followed by an abort. -/
theorem multipart_uploads_released_aborted : ∃ log result,
    RunsTo (putBlobInner Digest.sha256 ⟨"b".toList, none⟩ "k".toList (partBody []) ⟨none⟩ false)
      log result ∧ openedUploads log ≠ [] ∧ UploadsReleased log := by
  have hloop := runsTo_fullPart ⟨"b".toList, none⟩ "k".toList "u".toList
  have habort : RunsTo (completeMultipartUpload ⟨"b".toList, none⟩ "k".toList
      ⟨"u".toList, 2, [⟨none, 1⟩]⟩ false)
      [⟨.completeMultipartUpload "b".toList "k".toList "u".toList [⟨none, 1⟩] none,
          .error "status: 500".toList⟩,
        ⟨.abortMultipartUpload "b".toList "k".toList "u".toList, .ok ()⟩]
      (.error (mapS3Error "status: 500".toList)) :=
    .call _ _ _ (.call _ _ _ (.ret _))
  have hrun : RunsTo (putBlobInner Digest.sha256 ⟨"b".toList, none⟩ "k".toList (partBody []) ⟨none⟩
      false) _ _ :=
    .bind (.bind hloop (.ret _)) (.bind (.ret _) (.bind habort (.ret _)))
  refine ⟨_, _, hrun, List.cons_ne_nil _ _, ?_⟩
  refine (multipart_uploads_released_iff _ _ _ _ _ _ _ _ hrun).mpr (Or.inr ⟨rfl, ?_⟩)
  simp [PartsAccepted, refusesPart]

/-- A body that fails after its first full part leaves its upload open. -/
theorem multipart_uploads_not_released : ¬ ∀ (D : Digest) (config : S3StorageConfig) (key : Str)
    (body : StorageByteStream) (options : BlobPutOptions) (ifNotExists : Bool) (log : RequestLog)
    (result : Except StorageError (Option BlobWriteOutcome)),
    RunsTo (putBlobInner D config key body options ifNotExists) log result →
      UploadsReleased log := by
  intro h
  have hloop := runsTo_fullPart ⟨"b".toList, none⟩ "k".toList "u".toList
  have hrun : RunsTo (putBlobInner Digest.sha256 ⟨"b".toList, none⟩ "k".toList
      (partBody [.error (.missingBlob [])]) ⟨none⟩ false) _ _ :=
    .bind (.bind hloop (.ret _)) (.ret _)
  have hreleased := h _ _ _ _ _ _ _ _ hrun
  exact absurd (hreleased ⟨"b".toList, "k".toList, "u".toList⟩ (List.mem_singleton.mpr rfl))
    List.not_mem_nil

end GraphqlOrmStorage.S3
