import GraphqlOrmStorage.Sha256

/-!
# Errors, streams and records of the crate

The data that the provider-neutral traits exchange. A stream is the list of
items it yields; after the first error no code reads further. A stored size is
a `u64`, so additions to it saturate at `2^64 - 1`.
-/
namespace GraphqlOrmStorage

open Text

/-- `StorageBackend`. -/
inductive StorageBackend where
  | local | s3 | azureBlob | smb
  deriving DecidableEq, Repr

def StorageBackend.asStr : StorageBackend → Str
  | .local => "local".toList
  | .s3 => "s3".toList
  | .azureBlob => "azure_blob".toList
  | .smb => "smb".toList

/-- `StorageNamespace`, the first component of every generated key. -/
inductive StorageNamespace where
  | originals | recycleBin | thumbnails | derivatives | exports | temp
  deriving DecidableEq, Repr

def StorageNamespace.asStr : StorageNamespace → Str
  | .originals => "originals".toList
  | .recycleBin => "recycle_bin".toList
  | .thumbnails => "thumbnails".toList
  | .derivatives => "derivatives".toList
  | .exports => "exports".toList
  | .temp => "temp".toList

/-- `StorageProviderErrorKind`. -/
inductive StorageProviderErrorKind where
  | connectivity | authentication | securityNegotiation | containerNotFound | permissionDenied
  | remotePathNotFound | capacity | conditionalCreateConflict | timeout | connectionLost | protocol
  deriving DecidableEq, Repr

/-- `StorageError`. -/
inductive StorageError where
  | unsupportedBackend (backend : Str)
  | provider (backend message : Str) (retryable : Bool)
  | remoteProvider (backend : Str) (kind : StorageProviderErrorKind) (operation message : Str)
      (retryable : Bool)
  | invalidStorageKey (key : Str)
  | missingBlob (key : Str)
  | preconditionFailed (key condition : Str)
  | missingParent (path : Path)
  | io (path : Path) (source : ErrorKind)
  deriving DecidableEq, Repr

/-- `StorageError::is_retryable`. -/
def StorageError.isRetryable : StorageError → Bool
  | .provider _ _ retryable => retryable
  | .remoteProvider _ _ _ _ retryable => retryable
  | .io _ _ => true
  | .unsupportedBackend _ | .invalidStorageKey _ | .missingBlob _ | .preconditionFailed _ _
  | .missingParent _ => false

/-- How a call can end other than with a value: with an error, with a panic, or not
within the bound a loop of the model was given. -/
inductive Stop where
  | error (e : StorageError)
  | panic
  | outOfFuel
  deriving DecidableEq, Repr

/-- The largest `u64`. -/
def u64Max : ℕ := 2 ^ 64 - 1

/-- The largest `isize`, above which an allocation request panics. -/
def isizeMax : ℕ := 2 ^ 63 - 1

/-- `u64::saturating_add`. -/
def saturatingAdd (a b : ℕ) : ℕ := min (a + b) u64Max

theorem saturatingAdd_eq {a b m : ℕ} (h : a + b ≤ m) (hm : m < 2 ^ 63) :
    saturatingAdd a b = a + b := by
  unfold saturatingAdd u64Max
  omega

/-- `StorageByteStream`. -/
structure StorageByteStream where
  inner : List (Except StorageError Bytes)
  sizeHint : Option ℕ

namespace StorageByteStream

/-- `StorageByteStream::from_bytes`: a single chunk of known size. -/
def fromBytes (bytes : Bytes) : StorageByteStream := ⟨[.ok bytes], some (min bytes.length u64Max)⟩

end StorageByteStream

/-- The loop of `collect_storage_stream`. -/
def collectChunks (bytes : Bytes) : List (Except StorageError Bytes) → Except StorageError Bytes
  | [] => .ok bytes
  | .ok chunk :: rest => collectChunks (bytes ++ chunk) rest
  | .error e :: _ => .error e

/-- What a stream delivers: its concatenated chunks, or its first error. -/
def StorageByteStream.body (s : StorageByteStream) : Except StorageError Bytes :=
  collectChunks [] s.inner

/-- `collect_storage_stream`. The size hint is allocated up front. -/
def collectStorageStream (s : StorageByteStream) : Except Stop Bytes :=
  if isizeMax < s.sizeHint.getD 0 then .error .panic
  else match collectChunks [] s.inner with
    | .ok bytes => .ok bytes
    | .error e => .error (.error e)

/-- `BlobWriteOutcome`. -/
structure BlobWriteOutcome where
  sizeBytes : ℕ
  sha256Hex : Str
  deriving DecidableEq, Repr

/-- What a write of these bytes reports. -/
def outcomeOf (D : Digest) (b : Bytes) : BlobWriteOutcome := ⟨min b.length u64Max, sha256Hex D b⟩

/-- `BlobPutOptions`. -/
structure BlobPutOptions where
  contentType : Option Str
  deriving DecidableEq, Repr

/-- `BlobMetadata`. -/
structure BlobMetadata where
  key : Str
  sizeBytes : Option ℕ
  sha256Hex : Option Str
  etag : Option Str
  lastModified : Option ℤ
  deriving DecidableEq, Repr

/-- `BlobBody`. -/
structure BlobBody where
  key : Str
  metadata : Option BlobMetadata
  body : StorageByteStream

/-- `BlobListPage`. -/
structure BlobListPage where
  keys : List Str
  nextContinuation : Option Str
  deriving DecidableEq, Repr

/-- The chunks before the first error. -/
def okChunks : List (Except StorageError Bytes) → List Bytes
  | .ok c :: rest => c :: okChunks rest
  | _ => []

/-- The first error, if there is one. -/
def firstError : List (Except StorageError Bytes) → Option StorageError
  | [] => none
  | .ok _ :: rest => firstError rest
  | .error e :: _ => some e

theorem collectChunks_eq (bytes : Bytes) (l : List (Except StorageError Bytes)) :
    collectChunks bytes l = match firstError l with
      | none => .ok (bytes ++ (okChunks l).flatten)
      | some e => .error e := by
  induction l generalizing bytes with
  | nil => simp [collectChunks, firstError, okChunks]
  | cons x l ih =>
    cases x with
    | error e => rfl
    | ok c => simp only [collectChunks, firstError, okChunks, ih, List.flatten_cons, List.append_assoc]

/-- A stream delivers `b` exactly when it has no error and its chunks concatenate to `b`. -/
theorem StorageByteStream.body_eq_ok {s : StorageByteStream} {b : Bytes} :
    s.body = .ok b ↔ firstError s.inner = none ∧ (okChunks s.inner).flatten = b := by
  unfold body
  rw [collectChunks_eq]
  cases firstError s.inner <;> simp

@[simp] theorem StorageByteStream.body_fromBytes (b : Bytes) : (fromBytes b).body = .ok b := by
  simp [fromBytes, body, collectChunks]

end GraphqlOrmStorage
