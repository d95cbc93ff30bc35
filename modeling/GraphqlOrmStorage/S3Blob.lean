import GraphqlOrmStorage.S3
import GraphqlOrmStorage.Program

/-!
# The S3 backend: blob operations

The calls of `S3StorageBackend` as programs over single requests of the client.
A request that fails is known only by the debug text of its error, from which
the backend guesses what went wrong. The body of a response is what successive
reads of it return.
-/
namespace GraphqlOrmStorage.S3

open Text Program

/-- `MULTIPART_PART_SIZE`. -/
def multipartPartSize : ℕ := 8 * 1024 * 1024

/-! ### Errors -/

/-- `str::contains`. -/
def contains (text : Str) (s : String) : Bool := decide (s.toList <:+: text)

/-- `is_missing_error`, on the debug text. -/
def isMissingError (error : Str) : Bool :=
  contains error "NoSuchKey" || contains error "NotFound" || contains error "Not Found" ||
    contains error "status: 404" || contains error "code: 404"

/-- `is_precondition_error`, on the displayed text; only provider errors are asked about. -/
def isPreconditionError : StorageError → Bool
  | .provider backend message _ =>
    let text := "storage provider error for ".toList ++ backend ++ ": ".toList ++ message
    contains text "PreconditionFailed" || contains text "Precondition Failed" ||
      contains text "status: 412" || contains text "code: 412"
  | _ => false

/-- `is_retryable_s3_message`. -/
def isRetryableS3Message (message : Str) : Bool :=
  let lower := toAsciiLowercase message
  contains lower "timeout" || contains lower "timed out" || contains lower "dispatch" ||
    contains lower "connection" || contains lower "throttl" || contains lower "slowdown" ||
    contains lower "temporarily" || contains lower "status: 5" || contains lower "code: 5"

/-- `map_s3_error`. -/
def mapS3Error (error : Str) : StorageError :=
  .provider StorageBackend.s3.asStr error (isRetryableS3Message error)

/-! ### Requests -/

structure CompletedPart where
  eTag : Option Str
  partNumber : ℤ
  deriving DecidableEq

structure GetObjectOutput where
  contentLength : Option ℤ
  eTag : Option Str
  body : List (Except Str Bytes)

structure HeadObjectOutput where
  contentLength : Option ℤ
  eTag : Option Str

inductive S3Call where
  | putObject (bucket key : Str) (body : Bytes) (contentType ifNoneMatch : Option Str)
  | createMultipartUpload (bucket key : Str) (contentType : Option Str)
  | uploadPart (bucket key uploadId : Str) (partNumber : ℤ) (body : Bytes)
  | completeMultipartUpload (bucket key uploadId : Str) (parts : List CompletedPart)
      (ifNoneMatch : Option Str)
  | abortMultipartUpload (bucket key uploadId : Str)
  | getObject (bucket key : Str) (range : Option Str)
  | headObject (bucket key : Str)
  | copyObject (bucket key copySource : Str)
  | deleteObject (bucket key : Str)

/-- What a request returns: the parts of the response that are read, or the error's text. -/
abbrev S3Call.Reply : S3Call → Type
  | putObject .. | completeMultipartUpload .. | abortMultipartUpload .. | copyObject ..
  | deleteObject .. => Except Str Unit
  | createMultipartUpload .. | uploadPart .. => Except Str (Option Str)
  | getObject .. => Except Str GetObjectOutput
  | headObject .. => Except Str HeadObjectOutput

abbrev Requests : Interface := ⟨S3Call, S3Call.Reply⟩

abbrev S3M := Prog Requests

/-- A single request. -/
def request (c : S3Call) : S3M (S3Call.Reply c) := Prog.perform (I := Requests) c

variable {α S : Type}

/-- A run that starts with a request goes on with some reply to it. -/
theorem runsTo_request {c : S3Call} {k : S3Call.Reply c → S3M α} {log : List (Sigma Requests.Reply)}
    {a : α} : Prog.RunsTo ((request c).bind k) log a ↔
      ∃ r rest, log = ⟨c, r⟩ :: rest ∧ Prog.RunsTo (k r) rest a := Prog.runsTo_call

@[simp] theorem exec_request {h : (c : S3Call) → S → S3Call.Reply c × S} {c : S3Call}
    {k : S3Call.Reply c → S3M α} {s : S} :
    ((request c).bind k).exec h s = (k (h c s).1).exec h (h c s).2 := rfl

/-! ### Writing -/

structure MultipartUploadState where
  uploadId : Str
  nextPartNumber : ℤ
  completedParts : List CompletedPart

/-- The value of the `If-None-Match` header. -/
def ifNoneMatch (ifNotExists : Bool) : Option Str := if ifNotExists then some "*".toList else none

/-- `put_single_blob`. -/
def putSingleBlob (config : S3StorageConfig) (providerKey : Str) (bytes : Bytes)
    (options : BlobPutOptions) (ifNotExists : Bool) : S3M (Except StorageError Unit) := do
  match ← request (.putObject config.bucket providerKey bytes options.contentType
      (ifNoneMatch ifNotExists)) with
  | .error error => return .error (mapS3Error error)
  | .ok () => return .ok ()

/-- `create_multipart_upload`. -/
def createMultipartUpload (config : S3StorageConfig) (providerKey : Str)
    (options : BlobPutOptions) : S3M (Except StorageError MultipartUploadState) := do
  match ← request (.createMultipartUpload config.bucket providerKey options.contentType) with
  | .error error => return .error (mapS3Error error)
  | .ok none => return .error (.provider StorageBackend.s3.asStr
      "S3 multipart upload did not return an upload id".toList true)
  | .ok (some uploadId) => return .ok ⟨uploadId, 1, []⟩

/-- The state after a part; the part number is an `i32`. -/
def MultipartUploadState.add (state : MultipartUploadState) (eTag : Option Str) :
    MultipartUploadState where
  uploadId := state.uploadId
  nextPartNumber := Int.bmod (state.nextPartNumber + 1) (2 ^ 32)
  completedParts := state.completedParts ++ [⟨eTag, state.nextPartNumber⟩]

/-- `upload_part`. -/
def uploadPart (config : S3StorageConfig) (providerKey : Str) (state : MultipartUploadState)
    (bytes : Bytes) : S3M (Except StorageError MultipartUploadState) := do
  match ← request (.uploadPart config.bucket providerKey state.uploadId state.nextPartNumber
      bytes) with
  | .error error => return .error (mapS3Error error)
  | .ok eTag => return .ok (state.add eTag)

/-- `complete_multipart_upload`. -/
def completeMultipartUpload (config : S3StorageConfig) (providerKey : Str)
    (state : MultipartUploadState) (ifNotExists : Bool) : S3M (Except StorageError Unit) := do
  match ← request (.completeMultipartUpload config.bucket providerKey state.uploadId
      state.completedParts (ifNoneMatch ifNotExists)) with
  | .ok () => return .ok ()
  | .error error =>
    let _ ← request (.abortMultipartUpload config.bucket providerKey state.uploadId)
    return .error (mapS3Error error)

/-- The upload that parts go to: the one that is open, or a new one. -/
def openUpload (config : S3StorageConfig) (providerKey : Str) (options : BlobPutOptions) :
    Option MultipartUploadState → S3M (Except StorageError MultipartUploadState)
  | some state => return .ok state
  | none => createMultipartUpload config providerKey options

/-- The inner loop of `put_blob_inner`: full parts are cut off the buffer and uploaded. -/
def uploadFullParts (config : S3StorageConfig) (providerKey : Str) (options : BlobPutOptions)
    (buffer : Bytes) (multipart : Option MultipartUploadState) :
    S3M (Except StorageError (Bytes × Option MultipartUploadState)) :=
  if _h : multipartPartSize ≤ buffer.length then do
    match ← openUpload config providerKey options multipart with
    | .error e => return .error e
    | .ok state =>
      match ← uploadPart config providerKey state (buffer.take multipartPartSize) with
      | .error e => return .error e
      | .ok state =>
        uploadFullParts config providerKey options (buffer.drop multipartPartSize) (some state)
  else return .ok (buffer, multipart)
  termination_by buffer.length
  decreasing_by
    have hpos : 0 < multipartPartSize := by decide
    rw [List.length_drop]
    omega

/-- What the outer loop carries from chunk to chunk. -/
structure UploadProgress (D : Digest) where
  buffer : Bytes
  hasher : D.Hasher
  sizeBytes : ℕ
  multipart : Option MultipartUploadState

variable {D : Digest}

/-- The outer loop of `put_blob_inner`. -/
def uploadChunks (config : S3StorageConfig) (providerKey : Str) (options : BlobPutOptions) :
    List (Except StorageError Bytes) → UploadProgress D →
      S3M (Except StorageError (UploadProgress D))
  | [], p => return .ok p
  | .error e :: _, _ => return .error e
  | .ok chunk :: rest, p => do
    match ← uploadFullParts config providerKey options (p.buffer ++ chunk) p.multipart with
    | .error e => return .error e
    | .ok (buffer, multipart) =>
      uploadChunks config providerKey options rest ⟨buffer, D.update p.hasher chunk,
        saturatingAdd p.sizeBytes chunk.length, multipart⟩

/-- The last part, if anything is left for it. -/
def uploadLastPart (config : S3StorageConfig) (providerKey : Str) (state : MultipartUploadState)
    (buffer : Bytes) : S3M (Except StorageError MultipartUploadState) :=
  if buffer = [] then return .ok state else uploadPart config providerKey state buffer

/-- How the result of the publishing request is reported. -/
def published {α : Type} (ifNotExists : Bool) (outcome : α) :
    Except StorageError Unit → Except StorageError (Option α)
  | .ok () => .ok (some outcome)
  | .error e => if ifNotExists && isPreconditionError e then .ok none else .error e

/-- `put_blob_inner` after its loop. -/
def finishUpload (config : S3StorageConfig) (providerKey : Str) (options : BlobPutOptions)
    (ifNotExists : Bool) (p : UploadProgress D) :
    S3M (Except StorageError (Option BlobWriteOutcome)) :=
  let outcome : BlobWriteOutcome := ⟨p.sizeBytes, lowerHex (D.finalize p.hasher)⟩
  match p.multipart with
  | some state => do
    match ← uploadLastPart config providerKey state p.buffer with
    | .error e => return .error e
    | .ok state =>
      return published ifNotExists outcome
        (← completeMultipartUpload config providerKey state ifNotExists)
  | none => do
    return published ifNotExists outcome
      (← putSingleBlob config providerKey p.buffer options ifNotExists)

/-- `put_blob_inner`. -/
def putBlobInner (D : Digest) (config : S3StorageConfig) (key : Str) (body : StorageByteStream)
    (options : BlobPutOptions) (ifNotExists : Bool) :
    S3M (Except StorageError (Option BlobWriteOutcome)) :=
  match providerKey config key with
  | .error e => return .error e
  | .ok providerKey => do
    match ← uploadChunks config providerKey options body.inner
        (⟨[], D.new, 0, none⟩ : UploadProgress D) with
    | .error e => return .error e
    | .ok p => finishUpload config providerKey options ifNotExists p

/-- `put_blob`. -/
def putBlob (D : Digest) (config : S3StorageConfig) (key : Str) (body : StorageByteStream)
    (options : BlobPutOptions) : S3M (Except StorageError BlobWriteOutcome) := do
  match ← putBlobInner D config key body options false with
  | .error e => return .error e
  | .ok (some outcome) => return .ok outcome
  | .ok none => return .error (.preconditionFailed key "blob unexpectedly already exists".toList)

/-- `put_blob_if_not_exists`. -/
def putBlobIfNotExists (D : Digest) (config : S3StorageConfig) (key : Str)
    (body : StorageByteStream) (options : BlobPutOptions) :
    S3M (Except StorageError (Option BlobWriteOutcome)) :=
  putBlobInner D config key body options true

/-! ### Reading, copying, deleting -/

/-- `u64::try_from` of a reported length. -/
def reportedSize (contentLength : Option ℤ) : Option ℕ :=
  contentLength.bind fun size => if 0 ≤ size then some size.toNat else none

/-- The stream over a response body, its errors told with `what` and the key. -/
def bodyStream (what : String) (key : Str) (body : List (Except Str Bytes)) :
    List (Except StorageError Bytes) :=
  body.map fun chunk => chunk.mapError fun source => .provider StorageBackend.s3.asStr
    ("S3 object ".toList ++ what.toList ++ " failed for ".toList ++ key ++ ": ".toList ++ source) true

/-- `get_blob`. -/
def getBlob (config : S3StorageConfig) (key : Str) : S3M (Except StorageError BlobBody) :=
  match providerKey config key with
  | .error e => return .error e
  | .ok providerKey => do
    match ← request (.getObject config.bucket providerKey none) with
    | .error error =>
      if isMissingError error then return .error (.missingBlob key)
      else return .error (mapS3Error error)
    | .ok output =>
      return .ok ⟨key, some ⟨key, reportedSize output.contentLength, none, output.eTag, none⟩,
        ⟨bodyStream "stream" key output.body, none⟩⟩

/-- `head_blob`. -/
def headBlob (config : S3StorageConfig) (key : Str) :
    S3M (Except StorageError (Option BlobMetadata)) :=
  match providerKey config key with
  | .error e => return .error e
  | .ok providerKey => do
    match ← request (.headObject config.bucket providerKey) with
    | .error error =>
      if isMissingError error then return .ok none else return .error (mapS3Error error)
    | .ok output =>
      return .ok (some ⟨key, reportedSize output.contentLength, none, output.eTag, none⟩)

/-- `blob_exists`. -/
def blobExists (config : S3StorageConfig) (key : Str) : S3M (Except StorageError Bool) := do
  match ← headBlob config key with
  | .error e => return .error e
  | .ok metadata => return .ok metadata.isSome

/-- A number in decimal. -/
def decimal (n : ℕ) : Str := (toString n).toList

/-- The text of the `Range` header; the last position is included. -/
def rangeHeader (start stop : ℕ) : Str :=
  "bytes=".toList ++ decimal start ++ '-' :: decimal (stop - 1)

/-- `get_blob_range`. -/
def getBlobRange (config : S3StorageConfig) (key : Str) (start stop : ℕ) :
    S3M (Except StorageError BlobBody) :=
  if stop < start then
    return .error (.preconditionFailed key "range end is before range start".toList)
  else if start = stop then do
    match ← headBlob config key with
    | .error e => return .error e
    | .ok metadata => return .ok ⟨key, metadata, .fromBytes []⟩
  else match providerKey config key with
    | .error e => return .error e
    | .ok providerKey => do
      match ← request (.getObject config.bucket providerKey (some (rangeHeader start stop))) with
      | .error error =>
        if isMissingError error then return .error (.missingBlob key)
        else return .error (mapS3Error error)
      | .ok output =>
        return .ok ⟨key, some ⟨key, reportedSize output.contentLength, none, output.eTag, none⟩,
          ⟨bodyStream "range stream" key output.body, some (stop - start)⟩⟩

/-- `copy_blob`. -/
def copyBlob (config : S3StorageConfig) (src dst : Str) : S3M (Except StorageError Unit) :=
  match providerKey config src with
  | .error e => return .error e
  | .ok fromKey =>
    match providerKey config dst with
    | .error e => return .error e
    | .ok toKey => do
      match ← request (.copyObject config.bucket toKey (config.bucket ++ '/' :: fromKey)) with
      | .ok () => return .ok ()
      | .error error =>
        if isMissingError error then return .error (.missingBlob src)
        else return .error (mapS3Error error)

/-- `delete_blob`. -/
def deleteBlob (config : S3StorageConfig) (key : Str) : S3M (Except StorageError Unit) :=
  match providerKey config key with
  | .error e => return .error e
  | .ok providerKey => do
    match ← request (.deleteObject config.bucket providerKey) with
    | .error error => return .error (mapS3Error error)
    | .ok () => return .ok ()

end GraphqlOrmStorage.S3
