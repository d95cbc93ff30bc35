import GraphqlOrmStorage.Key

/-!
# The local backend: blob operations

`LocalStorageBackend` as programs over filesystem calls. Paths are relative to
the backend's root. A random UUID that the source draws is an argument here, so
a statement about runs says what it needs of the drawn values.
-/
namespace GraphqlOrmStorage.Local

open Text Program

/-- `path_for`. -/
def pathFor (key : Str) : Except StorageError Path :=
  match validateBlobKey key with
  | .error e => .error e
  | .ok () => .ok (relativePath key)

/-- `create_parent_dir`. -/
def createParentDir (path : Path) : FsM (Except StorageError Unit) :=
  if path = [] then return .error (.missingParent path)
  else do
    match ← Fs.createDirAll path.dropLast with
    | .ok () => return .ok ()
    | .error source => return .error (.io path.dropLast source)

def uploadingSuffix : Str := ".uploading".toList

/-- The name `temp_path_for` gives the temporary file of a file name. -/
def tempName (fileName : Str) (uuid : Uuid) : Str :=
  fileName ++ '.' :: (uuid.toStr ++ uploadingSuffix)

/-- `temp_path_for`. -/
def tempPathFor (path : Path) (key : Str) (uuid : Uuid) : Except StorageError Path :=
  match path.getLast? with
  | none => .error (.invalidStorageKey key)
  | some fileName => .ok (path.dropLast ++ [tempName fileName uuid])

/-- The chunk loop of `write_stream_to_temp`. -/
def writeChunks (D : Digest) (temp : Path) : List (Except StorageError Bytes) → D.Hasher → ℕ →
    FsM (Except StorageError (D.Hasher × ℕ))
  | [], hasher, size => return .ok (hasher, size)
  | .error e :: _, _, _ => return .error e
  | .ok chunk :: rest, hasher, size => do
    match ← Fs.append temp chunk with
    | .error source => return .error (.io temp source)
    | .ok () =>
      writeChunks D temp rest (D.update hasher chunk) (saturatingAdd size chunk.length)

/-- `write_stream_to_temp`. -/
def writeStreamToTemp (D : Digest) (temp : Path) (body : StorageByteStream) :
    FsM (Except StorageError BlobWriteOutcome) := do
  match ← Fs.createFile temp with
  | .error source => return .error (.io temp source)
  | .ok () =>
    match ← writeChunks D temp body.inner D.new 0 with
    | .error e => return .error e
    | .ok (hasher, size) =>
      match ← Fs.flush temp with
      | .error source => return .error (.io temp source)
      | .ok () => return .ok ⟨size, lowerHex (D.finalize hasher)⟩

/-- `let _ = remove_file(temp)` before an operation returns. -/
def discardTemp {α : Type} (temp : Path) (result : α) : FsM α := do
  let _ ← Fs.removeFile temp
  return result

/-- The part that `put_blob` and `put_blob_if_not_exists` have in common: make the parent,
write the body to a temporary file next to the target, and hand over to `publish`. -/
def uploadThen {α : Type} (D : Digest) (uuid : Uuid) (key : Str) (body : StorageByteStream)
    (publish : Path → Path → BlobWriteOutcome → FsM (Except StorageError α)) :
    FsM (Except StorageError α) :=
  match pathFor key with
  | .error e => return .error e
  | .ok path => do
    match ← createParentDir path with
    | .error e => return .error e
    | .ok () =>
      match tempPathFor path key uuid with
      | .error e => return .error e
      | .ok temp =>
        match ← writeStreamToTemp D temp body with
        | .error e => discardTemp temp (.error e)
        | .ok outcome => publish temp path outcome

/-- `put_blob`. -/
def putBlob (D : Digest) (uuid : Uuid) (key : Str) (body : StorageByteStream)
    (_options : BlobPutOptions) : FsM (Except StorageError BlobWriteOutcome) :=
  uploadThen D uuid key body fun temp path outcome => do
    match ← Fs.rename temp path with
    | .error source => discardTemp temp (.error (.io path source))
    | .ok () => return .ok outcome

/-- `put_blob_if_not_exists`. -/
def putBlobIfNotExists (D : Digest) (uuid : Uuid) (key : Str) (body : StorageByteStream)
    (_options : BlobPutOptions) : FsM (Except StorageError (Option BlobWriteOutcome)) :=
  uploadThen D uuid key body fun temp path outcome => do
    match ← Fs.hardLink temp path with
    | .ok () => discardTemp temp (.ok (some outcome))
    | .error .alreadyExists => discardTemp temp (.ok none)
    | .error source => discardTemp temp (.error (.io path source))

/-- `metadata.len()`; a directory reports the size of its block. -/
def nodeLen : Node → ℕ
  | .file b _ => b.length
  | .dir => 4096

/-- `metadata.modified()`; the times of directories are not modelled. -/
def nodeModified : Node → ℤ
  | .file _ m => m
  | .dir => 0

/-- `head_blob`. -/
def headBlob (key : Str) : FsM (Except StorageError (Option BlobMetadata)) :=
  match pathFor key with
  | .error e => return .error e
  | .ok path => do
    match ← Fs.metadata path with
    | .ok node => return .ok (some ⟨key, some (nodeLen node), none, none, some (nodeModified node)⟩)
    | .error .notFound => return .ok none
    | .error source => return .error (.io path source)

/-- `blob_exists`. -/
def blobExists (key : Str) : FsM (Except StorageError Bool) :=
  match pathFor key with
  | .error e => return .error e
  | .ok path => do
    match ← Fs.metadata path with
    | .ok (.file _ _) => return .ok true
    | .ok .dir => return .ok false
    | .error .notFound => return .ok false
    | .error source => return .error (.io path source)

/-- The buffer size of `ReaderStream::new`. -/
def readerCapacity : ℕ := 4096

def readChunksFuel : ℕ → Bytes → List Bytes
  | 0, _ => []
  | n + 1, b => if b = [] then [] else b.take readerCapacity :: readChunksFuel n (b.drop readerCapacity)

/-- The chunks `ReaderStream` cuts a content into. -/
def readChunks (b : Bytes) : List Bytes := readChunksFuel b.length b

/-- `ReaderStream::new(file)` with errors mapped to the path; a directory opens, but its
first read fails. -/
def readerStream (path : Path) : Node → List (Except StorageError Bytes)
  | .file b _ => (readChunks b).map .ok
  | .dir => [.error (.io path .isADirectory)]

/-- `get_blob`. -/
def getBlob (key : Str) : FsM (Except StorageError BlobBody) :=
  match pathFor key with
  | .error e => return .error e
  | .ok path => do
    match ← Fs.openFile path with
    | .error .notFound => return .error (.missingBlob key)
    | .error source => return .error (.io path source)
    | .ok file =>
      match ← headBlob key with
      | .error e => return .error e
      | .ok metadata => return .ok ⟨key, metadata, ⟨readerStream path file, none⟩⟩

/-- `seek` to an offset from the start; offsets are signed 64-bit numbers. -/
def seekStart (offset : ℕ) : Except ErrorKind Unit :=
  if offset < 2 ^ 63 then .ok () else .error .invalidInput

/-- `ReaderStream::new(file.take(length))` after seeking; nothing is read for length zero. -/
def rangeStream (path : Path) (start length : ℕ) : Node → List (Except StorageError Bytes)
  | .file b _ => (readChunks ((b.drop start).take length)).map .ok
  | .dir => if length = 0 then [] else [.error (.io path .isADirectory)]

/-- `get_blob_range`. -/
def getBlobRange (key : Str) (start stop : ℕ) : FsM (Except StorageError BlobBody) :=
  if stop < start then
    return .error (.preconditionFailed key "range end is before range start".toList)
  else match pathFor key with
    | .error e => return .error e
    | .ok path => do
      match ← Fs.openFile path with
      | .error .notFound => return .error (.missingBlob key)
      | .error source => return .error (.io path source)
      | .ok file =>
        match seekStart start with
        | .error source => return .error (.io path source)
        | .ok () =>
          match ← headBlob key with
          | .error e => return .error e
          | .ok metadata => return .ok ⟨key, metadata,
              ⟨rangeStream path start (stop - start) file, some (stop - start)⟩⟩

/-- `copy_blob`. -/
def copyBlob (uuid : Uuid) (src dst : Str) : FsM (Except StorageError Unit) :=
  match pathFor src with
  | .error e => return .error e
  | .ok fromPath =>
    match pathFor dst with
    | .error e => return .error e
    | .ok toPath => do
      match ← createParentDir toPath with
      | .error e => return .error e
      | .ok () =>
        match tempPathFor toPath dst uuid with
        | .error e => return .error e
        | .ok temp =>
          match ← Fs.copyFile fromPath temp with
          | .error .notFound => discardTemp temp (.error (.missingBlob src))
          | .error source => discardTemp temp (.error (.io fromPath source))
          | .ok _ =>
            match ← Fs.rename temp toPath with
            | .error source => discardTemp temp (.error (.io toPath source))
            | .ok () => return .ok ()

/-- `remove_file` where a missing file is as good as a removed one. -/
def removeIfPresent (path : Path) : FsM (Except StorageError Unit) := do
  match ← Fs.removeFile path with
  | .ok () => return .ok ()
  | .error .notFound => return .ok ()
  | .error source => return .error (.io path source)

/-- `delete_blob`. -/
def deleteBlob (key : Str) : FsM (Except StorageError Unit) :=
  match pathFor key with
  | .error e => return .error e
  | .ok path => removeIfPresent path

/-! ### Walking the tree -/

/-- `INTERNAL_STORAGE_DIR`. -/
def internalStorageDir : Str := ".graphql-orm-storage".toList

/-- `is_internal_storage_path`. -/
def isInternalStoragePath (path : Path) : Bool := path.head? = some internalStorageDir

/-- `is_uploading_temp_file`. -/
def isUploadingTempFile (path : Path) : Bool :=
  path.getLast?.any fun name => uploadingSuffix.isSuffixOf name

/-- `key_for_path`, for a path below the root. -/
def keyForPath (path : Path) : Str := replaceChar '\\' '/' (['/'].intercalate path)

/-- `sorted_child_paths`; siblings compare by their names. -/
def sortedChildPaths (path : Path) : FsM (Except StorageError (List Path)) := do
  match ← Fs.readDir path with
  | .error source => return .error (.io path source)
  | .ok paths => return .ok (paths.insertionSort (· ≤ ·))

/-- The loop of `collect_blob_page`. The stack is given top first. -/
def collectLoop (continuation : Option Str) (limit : ℕ) : ℕ → List Path → List Str →
    FsM (Except Stop (List Str))
  | _, [], page => return .ok page
  | 0, _ :: _, _ => return .error .outOfFuel
  | fuel + 1, path :: stack, page =>
    if page.length = limit then return .ok page
    else if isInternalStoragePath path then collectLoop continuation limit fuel stack page
    else do
      match ← Fs.metadata path with
      | .error .notFound => collectLoop continuation limit fuel stack page
      | .error source => return .error (.error (.io path source))
      | .ok (.file _ _) =>
        if isUploadingTempFile path then collectLoop continuation limit fuel stack page
        else if continuation.any fun token => keyForPath path ≤ token then
          collectLoop continuation limit fuel stack page
        else collectLoop continuation limit fuel stack (page ++ [keyForPath path])
      | .ok .dir =>
        match ← sortedChildPaths path with
        | .error e => return .error (.error e)
        | .ok entries => collectLoop continuation limit fuel (entries ++ stack) page

/-- The size of a `String` on a 64-bit target. -/
def stringSize : ℕ := 24

/-- `collect_blob_page`. The page is allocated up front. -/
def collectBlobPage (fuel : ℕ) (pre : Str) (continuation : Option Str) (limit : ℕ) :
    FsM (Except Stop (List Str)) :=
  match validateBlobPrefix pre with
  | .error e => return .error (.error e)
  | .ok () =>
    let start := if pre = [] then [] else relativePath pre
    if isizeMax < stringSize * limit then return .error .panic
    else collectLoop continuation limit fuel [start] []

/-- `list_blobs_page`. The addition wraps as in a release build. -/
def listBlobsPage (fuel : ℕ) (pre : Str) (continuation : Option Str) (limit : ℕ) :
    FsM (Except Stop BlobListPage) :=
  if limit = 0 then
    return .error (.error (.preconditionFailed pre "list limit must be greater than zero".toList))
  else do
    match ← collectBlobPage fuel pre continuation ((limit + 1) % 2 ^ 64) with
    | .error stop => return .error stop
    | .ok pageKeys =>
      if limit < pageKeys.length then
        return .ok ⟨pageKeys.take limit, (pageKeys.take limit).getLast?⟩
      else return .ok ⟨pageKeys, none⟩

/-- The loop that follows continuation tokens, for pages of `limit` keys. -/
def drainPages (walkFuel : ℕ) (pre : Str) (limit : ℕ) : ℕ → Option Str → List Str →
    FsM (Except Stop (List Str))
  | 0, _, _ => return .error .outOfFuel
  | fuel + 1, continuation, keys => do
    match ← listBlobsPage walkFuel pre continuation limit with
    | .error stop => return .error stop
    | .ok page =>
      match page.nextContinuation with
      | none => return .ok (keys ++ page.keys)
      | some token => drainPages walkFuel pre limit fuel (some token) (keys ++ page.keys)

/-- `list_blobs`. -/
def listBlobs (fuel : ℕ) (pre : Str) : FsM (Except Stop (List Str)) :=
  drainPages fuel pre 1000 fuel none []

/-- `is_older_than`, in nanoseconds; a file from the future has no age. -/
def isOlderThan (modified now : ℤ) (olderThan : ℕ) : Bool :=
  modified ≤ now ∧ (olderThan : ℤ) ≤ now - modified

/-- The loop of `sweep_temp_files`. -/
def sweepLoop (now : ℤ) (olderThan : ℕ) : ℕ → List Path → ℕ → FsM (Except Stop ℕ)
  | _, [], removed => return .ok removed
  | 0, _ :: _, _ => return .error .outOfFuel
  | fuel + 1, path :: stack, removed => do
    match ← Fs.metadata path with
    | .error .notFound => sweepLoop now olderThan fuel stack removed
    | .error source => return .error (.error (.io path source))
    | .ok (.file _ modified) =>
      if isUploadingTempFile path && isOlderThan modified now olderThan then
        match ← Fs.removeFile path with
        | .error source => return .error (.error (.io path source))
        | .ok () => sweepLoop now olderThan fuel stack (removed + 1)
      else sweepLoop now olderThan fuel stack removed
    | .ok .dir =>
      match ← sortedChildPaths path with
      | .error e => return .error (.error e)
      | .ok entries => sweepLoop now olderThan fuel (entries.reverse ++ stack) removed

/-- `sweep_temp_files`. -/
def sweepTempFiles (fuel : ℕ) (now : ℤ) (olderThan : ℕ) : FsM (Except Stop ℕ) :=
  sweepLoop now olderThan fuel [[]] 0

end GraphqlOrmStorage.Local
