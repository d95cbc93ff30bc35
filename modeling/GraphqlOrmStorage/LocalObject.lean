import GraphqlOrmStorage.LocalBlob

/-!
# The local backend: streaming objects

An object of a bucket and a key is two files: the data below the bucket, and a
sidecar with the object's metadata below the internal directory. Both are written
under temporary names and published by two renames. The JSON codec of the sidecar
is a parameter; what is needed of it is said where it is needed.
-/
namespace GraphqlOrmStorage.Local

open Text Program FileTree

/-- `ObjectMetadata`, in the order of its keys. -/
abbrev ObjectMetadata := List (Str × Str)

/-- `ObjectInfo`. -/
structure ObjectInfo where
  bucket : Str
  key : Str
  contentType : Option Str
  metadata : ObjectMetadata
  sizeBytes : ℕ
  sha256Hex : Str
  etag : Option Str
  lastModified : ℤ
  deriving DecidableEq

/-- `ObjectContentRange`. -/
structure ObjectContentRange where
  start : ℕ
  stop : ℕ
  totalSize : ℕ
  deriving DecidableEq

/-- `ObjectRangeBody`. -/
structure ObjectRangeBody where
  object : ObjectInfo
  range : ObjectContentRange
  contentLength : ℕ
  body : StorageByteStream

/-- `serde_json::to_vec` and `from_slice` for `ObjectInfo`; an error is its text. -/
structure Codec where
  toVec : ObjectInfo → Except Str Bytes
  fromSlice : Bytes → Except Str ObjectInfo

/-- `OBJECT_METADATA_DIR`. -/
def objectMetadataDir : Str := "object-metadata".toList

def metadataSuffix : Str := ".metadata.json".toList

/-- `object_path_for`. -/
def objectPathFor (bucket key : Str) : Except StorageError Path :=
  match validateObjectBucket bucket with
  | .error e => .error e
  | .ok () =>
    match validateBlobKey key with
    | .error e => .error e
    | .ok () => .ok (relativePath bucket ++ relativePath key)

/-- `object_metadata_path_for`. -/
def objectMetadataPathFor (bucket key : Str) : Except StorageError Path :=
  match validateObjectBucket bucket with
  | .error e => .error e
  | .ok () =>
    match validateBlobKey key with
    | .error e => .error e
    | .ok () =>
      let path := internalStorageDir :: objectMetadataDir :: (relativePath bucket ++ relativePath key)
      match path.getLast? with
      | none => .error (.invalidStorageKey key)
      | some fileName => .ok (path.dropLast ++ [fileName ++ metadataSuffix])

/-- `LocalMultipartWriter`; the open file is the one at `tempPath`. -/
structure LocalMultipartWriter (D : Digest) where
  bucket : Str
  key : Str
  contentType : Option Str
  metadata : ObjectMetadata
  objectPath : Path
  tempPath : Path
  metadataPath : Path
  metadataTempPath : Path
  hasher : D.Hasher
  sizeBytes : ℕ

variable {D : Digest}

/-- `create_multipart_object`; the two identifiers are for the data and the sidecar. -/
def createMultipartObject (D : Digest) (dataId metaId : Uuid) (bucket key : Str)
    (contentType : Option Str) (metadata : ObjectMetadata) :
    FsM (Except StorageError (LocalMultipartWriter D)) :=
  match objectPathFor bucket key with
  | .error e => return .error e
  | .ok objectPath =>
    match objectMetadataPathFor bucket key with
    | .error e => return .error e
    | .ok metadataPath => do
      match ← createParentDir objectPath with
      | .error e => return .error e
      | .ok () =>
        match ← createParentDir metadataPath with
        | .error e => return .error e
        | .ok () =>
          match tempPathFor objectPath key dataId with
          | .error e => return .error e
          | .ok temp =>
            match tempPathFor metadataPath key metaId with
            | .error e => return .error e
            | .ok metadataTemp =>
              match ← Fs.createFile temp with
              | .error source => return .error (.io temp source)
              | .ok () => return .ok ⟨bucket, key, contentType, metadata, objectPath, temp,
                  metadataPath, metadataTemp, D.new, 0⟩

namespace LocalMultipartWriter

/-- The writer after it has counted and hashed a chunk. -/
def feed (w : LocalMultipartWriter D) (bytes : Bytes) : LocalMultipartWriter D :=
  { w with
    sizeBytes := saturatingAdd w.sizeBytes bytes.length
    hasher := D.update w.hasher bytes }

/-- `write_chunk`. The chunk is counted and hashed before it is written. -/
def writeChunk (w : LocalMultipartWriter D) (bytes : Bytes) :
    FsM (Except StorageError Unit × LocalMultipartWriter D) := do
  match ← Fs.append w.tempPath bytes with
  | .error source => return (.error (.io w.tempPath source), w.feed bytes)
  | .ok () => return (.ok (), w.feed bytes)

/-- The record that `complete` publishes. -/
def info (w : LocalMultipartWriter D) (now : ℤ) : ObjectInfo :=
  let sha256Hex := lowerHex (D.finalize w.hasher)
  ⟨w.bucket, w.key, w.contentType, w.metadata, w.sizeBytes, sha256Hex, some sha256Hex, now⟩

end LocalMultipartWriter

/-- `write_object_metadata`. -/
def writeObjectMetadata (codec : Codec) (path : Path) (object : ObjectInfo) :
    FsM (Except StorageError Unit) :=
  match codec.toVec object with
  | .error source => return .error (.provider StorageBackend.local.asStr
      ("local object metadata could not be serialized: ".toList ++ source) false)
  | .ok bytes => do
    match ← Fs.writeFile path bytes with
    | .error source => return .error (.io path source)
    | .ok () => return .ok ()

namespace LocalMultipartWriter

/-- `complete`. -/
def complete (codec : Codec) (now : ℤ) (w : LocalMultipartWriter D) :
    FsM (Except StorageError ObjectInfo) := do
  match ← Fs.flush w.tempPath with
  | .error source => return .error (.io w.tempPath source)
  | .ok () =>
    match ← writeObjectMetadata codec w.metadataTempPath (w.info now) with
    | .error e => return .error e
    | .ok () =>
      match ← Fs.rename w.tempPath w.objectPath with
      | .error source =>
        let _ ← Fs.removeFile w.tempPath
        discardTemp w.metadataTempPath (.error (.io w.objectPath source))
      | .ok () =>
        match ← Fs.rename w.metadataTempPath w.metadataPath with
        | .error source => discardTemp w.metadataTempPath (.error (.io w.metadataPath source))
        | .ok () => return .ok (w.info now)

/-- `abort`. Both removals are tried before either result is looked at. -/
def abort (w : LocalMultipartWriter D) : FsM (Except StorageError Unit) := do
  let tempResult ← removeIfPresent w.tempPath
  let metadataResult ← removeIfPresent w.metadataTempPath
  match tempResult with
  | .error e => return .error e
  | .ok () => return metadataResult

end LocalMultipartWriter

/-- The loop of `put_object_stream`. -/
def streamChunks (codec : Codec) (now : ℤ) :
    List (Except StorageError Bytes) → LocalMultipartWriter D → FsM (Except StorageError ObjectInfo)
  | [], w => w.complete codec now
  | .error e :: _, w => do
    let _ ← w.abort
    return .error e
  | .ok bytes :: rest, w => do
    match ← w.writeChunk bytes with
    | (.ok (), w') => streamChunks codec now rest w'
    | (.error e, w') =>
      let _ ← w'.abort
      return .error e

/-- `put_object_stream`. -/
def putObjectStream (D : Digest) (codec : Codec) (now : ℤ) (dataId metaId : Uuid) (bucket key : Str)
    (contentType : Option Str) (metadata : ObjectMetadata) (stream : StorageByteStream) :
    FsM (Except StorageError ObjectInfo) := do
  match ← createMultipartObject D dataId metaId bucket key contentType metadata with
  | .error e => return .error e
  | .ok writer => streamChunks codec now stream.inner writer

/-- The text `{bucket}/{key}` of error messages. -/
def objectName (bucket key : Str) : Str := bucket ++ '/' :: key

/-- `get_object_metadata`. -/
def getObjectMetadata (codec : Codec) (bucket key : Str) : FsM (Except StorageError ObjectInfo) :=
  match objectMetadataPathFor bucket key with
  | .error e => return .error e
  | .ok metadataPath => do
    match ← Fs.readFile metadataPath with
    | .error .notFound => return .error (.missingBlob (objectName bucket key))
    | .error source => return .error (.io metadataPath source)
    | .ok bytes =>
      match codec.fromSlice bytes with
      | .error source => return .error (.provider StorageBackend.local.asStr
          ("local object metadata is invalid: ".toList ++ source) false)
      | .ok object => return .ok object

/-- `get_object_range`. -/
def getObjectRange (codec : Codec) (bucket key : Str) (start stop : ℕ) :
    FsM (Except StorageError ObjectRangeBody) :=
  if stop < start then
    return .error (.preconditionFailed (objectName bucket key)
      "range end is before range start".toList)
  else do
    match ← getObjectMetadata codec bucket key with
    | .error e => return .error e
    | .ok object =>
      if object.sizeBytes < start then
        return .error (.preconditionFailed (objectName bucket key)
          "range start is beyond object size".toList)
      else
        let stop := min stop object.sizeBytes
        let length := stop - start
        match objectPathFor bucket key with
        | .error e => return .error e
        | .ok objectPath =>
          match ← Fs.openFile objectPath with
          | .error .notFound => return .error (.missingBlob (objectName bucket key))
          | .error source => return .error (.io objectPath source)
          | .ok file =>
            match seekStart start with
            | .error source => return .error (.io objectPath source)
            | .ok () => return .ok ⟨object, ⟨start, stop, object.sizeBytes⟩, length,
                ⟨rangeStream objectPath start length file, some length⟩⟩

/-- `delete_object`. -/
def deleteObject (bucket key : Str) : FsM (Except StorageError Unit) :=
  match objectPathFor bucket key with
  | .error e => return .error e
  | .ok objectPath =>
    match objectMetadataPathFor bucket key with
    | .error e => return .error e
    | .ok metadataPath => do
      match ← removeIfPresent objectPath with
      | .error e => return .error e
      | .ok () => removeIfPresent metadataPath

end GraphqlOrmStorage.Local
