import GraphqlOrmStorage.Key
import GraphqlOrmStorage.Program

/-!
# The SMB backend

The calls of the backend as programs over single SMB requests. Besides requests
a program takes and gives back permits of the transfer limiter; a permit that a
value owns is given back where the value is dropped. The protocol library is
behind the interface: a request is answered with what the library returns, and
its error texts are carried along.

Reconnecting is one request, as none of its parts touches a file. The share's
own path is always well formed, since `connect` validates the configuration.
-/
namespace GraphqlOrmStorage.Smb

open Text Program

/-! ### Errors -/

/-- The members of `smb::Status` that are told apart. -/
inductive Status where
  | logonFailure | accessDenied | badNetworkName | objectNameNotFound | objectPathNotFound
  | objectNameCollision | ioTimeout | networkNameDeleted | userSessionDeleted
  | networkSessionExpired | other
  deriving DecidableEq

/-- `smb::Error`, by what `map_smb_error` looks at. -/
inductive Cause where
  | status (status : Status)
  | transportTimeout | operationTimeout | notConnected | connectionStopped
  | messageProcessing (message : Str)
  | transportIo | io | sspi | negotiation | signatureVerificationFailed | crypto | other
  deriving DecidableEq

structure SmbError where
  cause : Cause
  text : Str
  deriving DecidableEq

/-- `std::io::Error`. -/
structure IoError where
  kind : ErrorKind
  text : Str
  deriving DecidableEq

/-- How a request under a deadline can fail. -/
inductive Failure (ε : Type) where
  | timedOut
  | failed (error : ε)
  deriving DecidableEq

/-- `remote_error`. -/
def remoteError (kind : StorageProviderErrorKind) (operation message : Str) (retryable : Bool) :
    StorageError :=
  .remoteProvider StorageBackend.smb.asStr kind operation message retryable

/-- The kind that `map_io_error` assigns. -/
def ioErrorKind : ErrorKind → StorageProviderErrorKind
  | .timedOut => .timeout
  | .connectionAborted | .connectionReset | .brokenPipe | .notConnected | .unexpectedEof =>
    .connectionLost
  | .permissionDenied => .permissionDenied
  | .notFound => .remotePathNotFound
  | .storageFull | .quotaExceeded => .capacity
  | _ => .protocol

/-- The kinds that are worth another attempt. -/
def retryableKind (kind : StorageProviderErrorKind) : Bool :=
  kind = .connectivity ∨ kind = .timeout ∨ kind = .connectionLost

/-- `map_io_error`. -/
def mapIoError (operation : Str) (error : IoError) : StorageError :=
  let kind := ioErrorKind error.kind
  remoteError kind operation error.text (retryableKind kind)

/-- The kind that `map_smb_error` assigns. -/
def smbErrorKind : Cause → StorageProviderErrorKind
  | .status .logonFailure => .authentication
  | .status .accessDenied => .permissionDenied
  | .status .badNetworkName => .containerNotFound
  | .status .objectNameNotFound | .status .objectPathNotFound => .remotePathNotFound
  | .status .objectNameCollision => .conditionalCreateConflict
  | .status .ioTimeout => .timeout
  | .status .networkNameDeleted | .status .userSessionDeleted
  | .status .networkSessionExpired => .connectionLost
  | .transportTimeout | .operationTimeout => .timeout
  | .notConnected | .connectionStopped => .connectionLost
  | .messageProcessing message =>
    if "Failed to send message to worker".toList <:+: message then .connectionLost else .protocol
  | .transportIo | .io => .connectivity
  | .sspi => .authentication
  | .negotiation | .signatureVerificationFailed | .crypto => .securityNegotiation
  | .status .other | .other => .protocol

/-- `map_smb_error`. -/
def mapSmbError (operation : Str) (error : SmbError) : StorageError :=
  let kind := smbErrorKind error.cause
  remoteError kind operation error.text (retryableKind kind)

/-- The error of a request that ran into its deadline. -/
def timeoutError (operation : Str) : StorageError :=
  remoteError .timeout operation "operation timed out".toList true

/-- `with_timeout`. -/
def withTimeout {α : Type} (operation : Str) :
    Except (Failure SmbError) α → Except StorageError α
  | .ok a => .ok a
  | .error .timedOut => .error (timeoutError operation)
  | .error (.failed error) => .error (mapSmbError operation error)

/-- The same around the stream interface of a file. -/
def withIoTimeout {α : Type} (operation : Str) : Except (Failure IoError) α → Except StorageError α
  | .ok a => .ok a
  | .error .timedOut => .error (timeoutError operation)
  | .error (.failed error) => .error (mapIoError operation error)

/-- `is_not_found`. -/
def isNotFound : StorageError → Bool
  | .remoteProvider _ .remotePathNotFound _ _ _ => true
  | _ => false

/-- `is_collision`. -/
def isCollision : StorageError → Bool
  | .remoteProvider _ .conditionalCreateConflict _ _ _ => true
  | _ => false

/-! ### Requests -/

abbrev Handle := ℕ

/-- `FileAccessMask`, as it is requested. -/
inductive Access where
  | read | delete | readDelete
  deriving DecidableEq

/-- `smb::Resource`. -/
inductive Resource where
  | file (h : Handle)
  | directory (h : Handle)
  | pipe (h : Handle)
  deriving DecidableEq

def Resource.handle : Resource → Handle
  | .file h | .directory h | .pipe h => h

inductive SmbCall where
  /-- A permit of the limiter is taken; the reply is whether it is still open. -/
  | acquirePermit
  | releasePermit
  | createDirectory (path : Str)
  /-- `FILE_CREATE` if exclusive, else overwriting. -/
  | createFile (path : Str) (exclusive : Bool)
  | openExisting (path : Str) (access : Access)
  /-- Closing without a deadline. -/
  | closeResource (h : Handle)
  | close (h : Handle)
  /-- A file value is dropped and closes itself. -/
  | dropFile (h : Handle)
  | queryInfo (h : Handle)
  | setRename (h : Handle) (path : Str) (replace : Bool)
  | setDelete (h : Handle)
  | writeBlock (h : Handle) (bytes : Bytes) (offset : ℕ)
  | flush (h : Handle)
  | readBlock (h : Handle) (length offset : ℕ)
  | reconnect

abbrev SmbCall.Reply : SmbCall → Type
  | acquirePermit => Bool
  | releasePermit | dropFile _ => Unit
  | createDirectory _ | createFile _ _ | openExisting _ _ => Except (Failure SmbError) Resource
  | closeResource _ => Except SmbError Unit
  | close _ | setRename _ _ _ | setDelete _ => Except (Failure SmbError) Unit
  | queryInfo _ => Except (Failure SmbError) ℕ
  | writeBlock _ _ _ => Except (Failure IoError) ℕ
  | flush _ => Except (Failure IoError) Unit
  | readBlock _ _ _ => Except (Failure IoError) Bytes
  | reconnect => Except StorageError Unit

abbrev Requests : Interface := ⟨SmbCall, SmbCall.Reply⟩

abbrev SmbM := Prog Requests

/-- A single request. -/
def request (c : SmbCall) : SmbM (SmbCall.Reply c) := Prog.perform (I := Requests) c

/-! ### Paths -/

/-- `SmbStorageConfig`, the fields that the modelled calls read. -/
structure SmbStorageConfig where
  rootPrefix : Option Str
  maxTransferConcurrency : ℕ

/-- The key below the configured root. -/
def belowRoot (config : SmbStorageConfig) (key : Str) : Str :=
  match config.rootPrefix with
  | some pre => pre ++ '/' :: key
  | none => key

/-- `mapped_key`. -/
def mappedKey (config : SmbStorageConfig) (key : Str) : Except StorageError Str :=
  match validateBlobKey key with
  | .error e => .error e
  | .ok () => .ok (belowRoot config key)

/-- `remote_path`; the share's separators are backslashes. -/
def remotePath (config : SmbStorageConfig) (key : Str) : Except StorageError Str :=
  (mappedKey config key).map (replaceChar '/' '\\')

def tempSuffix : Str := ".uploading".toList

/-- The last part of a temporary key. -/
def tempName (uuid : Uuid) (name : Str) : Str := '.' :: name ++ '.' :: uuid.toStr ++ tempSuffix

/-- The temporary key beside a key. -/
def tempBeside (uuid : Uuid) (key : Str) : Str :=
  let split := (rsplitOnce '/' key).getD ([], key)
  if split.1 = [] then tempName uuid split.2 else split.1 ++ '/' :: tempName uuid split.2

/-- `temp_key`. -/
def tempKey (uuid : Uuid) (key : Str) : Except StorageError Str :=
  match validateBlobKey (tempBeside uuid key) with
  | .error e => .error e
  | .ok () => .ok (tempBeside uuid key)

/-- The loop of `ensure_directories`. -/
def ensureSegments : Str → List Str → SmbM (Except StorageError Unit)
  | _, [] => return .ok ()
  | current, segment :: rest => do
    let current := if current = [] then segment else current ++ '/' :: segment
    match withTimeout "create_directory".toList
        (← request (.createDirectory (replaceChar '/' '\\' current))) with
    | .error e => return .error e
    | .ok resource =>
      match ← request (.closeResource resource.handle) with
      | .error e => return .error (mapSmbError "close".toList e)
      | .ok () => ensureSegments current rest

/-- `ensure_directories`. -/
def ensureDirectories (path : Str) : SmbM (Except StorageError Unit) :=
  ensureSegments [] (path.splitOn '/')

/-- `ensure_parent_directories`. -/
def ensureParentDirectories (config : SmbStorageConfig) (key : Str) :
    SmbM (Except StorageError Unit) :=
  match mappedKey config key with
  | .error e => return .error e
  | .ok mapped => match rsplitOnce '/' mapped with
    | none => return .ok ()
    | some (parent, _) => ensureDirectories parent

/-! ### Opening, removing and renaming -/

/-- The last step of `open_file`: only a file will do. -/
def expectFile (operation message : Str) : Resource → SmbM (Except StorageError Handle)
  | .file h => return .ok h
  | other => do
    let _ ← request (.closeResource other.handle)
    return .error (remoteError .protocol operation message false)

/-- `open_file`: one more attempt after a reconnect. -/
def openFile (config : SmbStorageConfig) (key : Str) (access : Access) :
    SmbM (Except StorageError Handle) :=
  match remotePath config key with
  | .error e => return .error e
  | .ok path => do
    match withTimeout "open".toList (← request (.openExisting path access)) with
    | .ok resource => expectFile "open".toList "remote key is not a file".toList resource
    | .error e =>
      if e.isRetryable then
        match ← request .reconnect with
        | .error e => return .error e
        | .ok () =>
          match withTimeout "open".toList (← request (.openExisting path access)) with
          | .error e => return .error e
          | .ok resource => expectFile "open".toList "remote key is not a file".toList resource
      else return .error e

/-- `result.and(close_result)`. -/
def andThen {α : Type} (result : Except StorageError Unit) (other : Except StorageError α) :
    Except StorageError α :=
  match result with
  | .error e => .error e
  | .ok () => other

/-- `remove_file`. -/
def removeFile (config : SmbStorageConfig) (key : Str) : SmbM (Except StorageError Unit) := do
  match ← openFile config key .delete with
  | .error e => if isNotFound e then return .ok () else return .error e
  | .ok file =>
    let result := withTimeout "delete".toList (← request (.setDelete file))
    let closeResult := withTimeout "close".toList (← request (.close file))
    return andThen result closeResult

/-- `rename`. -/
def rename (config : SmbStorageConfig) (src dst : Str) (replace : Bool) :
    SmbM (Except StorageError Unit) := do
  match ← ensureParentDirectories config dst with
  | .error e => return .error e
  | .ok () =>
    match ← openFile config src .readDelete with
    | .error e => return .error e
    | .ok file =>
      match mappedKey config dst with
      | .error e => do
        request (.dropFile file)
        return .error e
      | .ok mapped => do
        let result := withTimeout "rename".toList
          (← request (.setRename file (replaceChar '/' '\\' mapped) replace))
        let closeResult := withTimeout "close".toList (← request (.close file))
        return andThen result closeResult

/-- `cleanup_failed_write`. -/
def cleanupFailedWrite (config : SmbStorageConfig) (key : Str) (file : Handle) : SmbM Unit := do
  let _ ← request (.close file)
  let _ ← removeFile config key

/-! ### Body streams -/

/-- A body is handed in by the caller, or it is the stream of `get_blob`, which owns an open
file and a permit. -/
inductive BodySource where
  | external (chunks : List (Except StorageError Bytes))
  | blob (file : Handle) (offset size : ℕ)
  | finished

def readChunkSize : ℕ := 256 * 1024

namespace BodySource

/-- One item of the stream. At its end and after an error the file and the permit are gone. -/
def next : BodySource → SmbM (Option (Except StorageError Bytes) × BodySource)
  | external [] => return (none, external [])
  | external (chunk :: rest) => return (some chunk, external rest)
  | finished => return (none, finished)
  | blob file offset size =>
    if size ≤ offset then do
      match withTimeout "close".toList (← request (.close file)) with
      | .error e => do
        request .releasePermit
        return (some (.error e), finished)
      | .ok () => do
        request .releasePermit
        return (none, finished)
    else do
      match withIoTimeout "read".toList
          (← request (.readBlock file (min (size - offset) readChunkSize) offset)) with
      | .error e => do
        request (.dropFile file)
        request .releasePermit
        return (some (.error e), finished)
      | .ok [] => do
        request (.dropFile file)
        request .releasePermit
        return (some (.error (remoteError .protocol "read".toList
          "unexpected end of remote file".toList false)), finished)
      | .ok bytes => return (some (.ok bytes), blob file (saturatingAdd offset bytes.length) size)

/-- The stream is dropped. -/
def drop : BodySource → SmbM Unit
  | blob file _ _ => do
    request (.dropFile file)
    request .releasePermit
  | external _ | finished => return ()

/-- A bound on the number of items: every read moves the offset. -/
def bound : BodySource → ℕ
  | external chunks => chunks.length + 1
  | blob _ offset size => size - offset + 2
  | finished => 1

end BodySource

/-! ### Writing -/

/-- `transfer_permit`. -/
def transferPermit : SmbM (Except StorageError Unit) := do
  if ← request .acquirePermit then return .ok ()
  else return .error (remoteError .protocol "transfer".toList
    "transfer limiter is closed".toList false)

/-- The loop over one chunk; a server may take part of a block. The first argument bounds the
number of blocks. -/
def writeBlocks (file : Handle) : ℕ → Bytes → ℕ → SmbM (Except StorageError ℕ)
  | 0, _, offset => return .ok offset
  | _ + 1, [], offset => return .ok offset
  | fuel + 1, b :: bytes, offset => do
    match withIoTimeout "write".toList (← request (.writeBlock file (b :: bytes) offset)) with
    | .error e => return .error e
    | .ok 0 => return .error (remoteError .protocol "write".toList
        "server accepted a zero-length write".toList false)
    | .ok count => writeBlocks file fuel ((b :: bytes).drop count) (saturatingAdd offset count)

/-- The loop over the chunks of the body, with the number of bytes and the hasher. -/
def writeChunks (D : Digest) (file : Handle) : ℕ → BodySource → D.Hasher → ℕ →
    SmbM (Except StorageError (D.Hasher × ℕ) × BodySource)
  | 0, source, hasher, offset => return (.ok (hasher, offset), source)
  | fuel + 1, source, hasher, offset => do
    match ← source.next with
    | (none, source) => return (.ok (hasher, offset), source)
    | (some (.error e), source) => return (.error e, source)
    | (some (.ok chunk), source) =>
      match ← writeBlocks file chunk.length chunk offset with
      | .error e => return (.error e, source)
      | .ok offset => writeChunks D file fuel source (D.update hasher chunk) offset

/-- `write_file` once the file is created. A failure before the final close closes the file and
removes it by name; a failing close removes it as well. -/
def fillFile (D : Digest) (config : SmbStorageConfig) (key : Str) (file : Handle)
    (source : BodySource) : SmbM (Except StorageError BlobWriteOutcome × BodySource) := do
  match ← writeChunks D file source.bound source D.new 0 with
  | (.error e, source) => do
    cleanupFailedWrite config key file
    return (.error e, source)
  | (.ok (hasher, offset), source) =>
    match withIoTimeout "flush".toList (← request (.flush file)) with
    | .error e => do
      cleanupFailedWrite config key file
      return (.error e, source)
    | .ok () =>
      match withTimeout "close".toList (← request (.close file)) with
      | .error e => do
        if e.isRetryable then
          let _ ← request .reconnect
        let _ ← removeFile config key
        return (.error e, source)
      | .ok () => return (.ok ⟨offset, lowerHex (D.finalize hasher)⟩, source)

/-- `write_file` while it holds its permit. -/
def createAndFill (D : Digest) (config : SmbStorageConfig) (key : Str) (source : BodySource)
    (exclusive : Bool) : SmbM (Except StorageError BlobWriteOutcome × BodySource) := do
  match ← ensureParentDirectories config key with
  | .error e => return (.error e, source)
  | .ok () =>
    match remotePath config key with
    | .error e => return (.error e, source)
    | .ok path =>
      match withTimeout "create".toList (← request (.createFile path exclusive)) with
      | .error e => return (.error e, source)
      | .ok resource =>
        match ← expectFile "create".toList "remote key did not create a file".toList resource with
        | .error e => return (.error e, source)
        | .ok file => fillFile D config key file source

/-- `write_file`. The body and the permit are dropped when it returns. -/
def writeFile (D : Digest) (config : SmbStorageConfig) (key : Str) (source : BodySource)
    (exclusive : Bool) : SmbM (Except StorageError BlobWriteOutcome) := do
  match ← transferPermit with
  | .error e => do
    source.drop
    return .error e
  | .ok () =>
    let (result, source) ← createAndFill D config key source exclusive
    source.drop
    request .releasePermit
    return result

/-- `put_blob`: upload to a temporary name, then replace. -/
def putBlob (D : Digest) (config : SmbStorageConfig) (uuid : Uuid) (key : Str)
    (body : BodySource) : SmbM (Except StorageError BlobWriteOutcome) :=
  match validateBlobKey key with
  | .error e => do
    body.drop
    return .error e
  | .ok () => match tempKey uuid key with
    | .error e => do
      body.drop
      return .error e
    | .ok temp => do
      match ← writeFile D config temp body false with
      | .error e => do
        if e.isRetryable then
          let _ ← request .reconnect
        let _ ← removeFile config temp
        return .error e
      | .ok outcome =>
        match ← rename config temp key true with
        | .error e => do
          if e.isRetryable then
            let _ ← request .reconnect
          let _ ← removeFile config temp
          return .error e
        | .ok () => return .ok outcome

/-- `put_blob_if_not_exists`: the final name is created first. -/
def putBlobIfNotExists (D : Digest) (config : SmbStorageConfig) (key : Str) (body : BodySource) :
    SmbM (Except StorageError (Option BlobWriteOutcome)) :=
  match validateBlobKey key with
  | .error e => do
    body.drop
    return .error e
  | .ok () => do
    match ← writeFile D config key body true with
    | .ok outcome => return .ok (some outcome)
    | .error e =>
      if isCollision e then return .ok none
      else do
        if e.isRetryable then
          let _ ← request .reconnect
        return .error e

/-! ### Reading, copying, deleting -/

/-- `BlobBody` with the stream of `get_blob`. -/
structure SmbBody where
  key : Str
  sizeBytes : ℕ
  body : BodySource

/-- `get_blob`. -/
def getBlob (config : SmbStorageConfig) (key : Str) : SmbM (Except StorageError SmbBody) :=
  match validateBlobKey key with
  | .error e => return .error e
  | .ok () => do
    match ← transferPermit with
    | .error e => return .error e
    | .ok () =>
      match ← openFile config key .read with
      | .error e => do
        request .releasePermit
        return .error e
      | .ok file =>
        match withTimeout "head".toList (← request (.queryInfo file)) with
        | .error e => do
          request (.dropFile file)
          request .releasePermit
          return .error e
        | .ok size => return .ok ⟨key, size, .blob file 0 size⟩

/-- `blob_exists`. -/
def blobExists (config : SmbStorageConfig) (key : Str) : SmbM (Except StorageError Bool) :=
  match validateBlobKey key with
  | .error e => return .error e
  | .ok () => do
    match ← openFile config key .read with
    | .ok file =>
      match withTimeout "close".toList (← request (.close file)) with
      | .error e => return .error e
      | .ok () => return .ok true
    | .error e => if isNotFound e then return .ok false else return .error e

/-- `head_blob`. -/
def headBlob (config : SmbStorageConfig) (key : Str) :
    SmbM (Except StorageError (Option BlobMetadata)) :=
  match validateBlobKey key with
  | .error e => return .error e
  | .ok () => do
    match ← openFile config key .read with
    | .error e => if isNotFound e then return .ok none else return .error e
    | .ok file =>
      match withTimeout "head".toList (← request (.queryInfo file)) with
      | .error e => do
        request (.dropFile file)
        return .error e
      | .ok size =>
        match withTimeout "close".toList (← request (.close file)) with
        | .error e => return .error e
        | .ok () => return .ok (some ⟨key, some size, none, none, none⟩)

/-- The loop of `collect_storage_stream` over a body; the first argument bounds its items. -/
def collectBody : ℕ → BodySource → Bytes → SmbM (Except StorageError Bytes)
  | 0, source, bytes => do
    source.drop
    return .ok bytes
  | fuel + 1, source, bytes => do
    match ← source.next with
    | (none, source) => do
      source.drop
      return .ok bytes
    | (some (.error e), source) => do
      source.drop
      return .error e
    | (some (.ok chunk), source) => collectBody fuel source (bytes ++ chunk)

/-- The trait's default `copy_blob`. -/
def copyBlob (D : Digest) (config : SmbStorageConfig) (uuid : Uuid) (src dst : Str) :
    SmbM (Except StorageError Unit) := do
  match ← getBlob config src with
  | .error e => return .error e
  | .ok blob =>
    match ← putBlob D config uuid dst blob.body with
    | .error e => return .error e
    | .ok _ => return .ok ()

/-- `delete_blob`. -/
def deleteBlob (config : SmbStorageConfig) (key : Str) : SmbM (Except StorageError Unit) :=
  match validateBlobKey key with
  | .error e => return .error e
  | .ok () => removeFile config key

/-! ### Accepted keys -/

theorem legalName_tempName (uuid : Uuid) {name : Str} (h : LegalName name) (hb : '\\' ∉ name) :
    LegalName (tempName uuid name) ∧ '\\' ∉ tempName uuid name := by
  have hlong : 36 ≤ (tempName uuid name).length := by
    simp only [tempName, List.length_append, List.length_cons, uuid.length_toStr]
    omega
  have hmem : ∀ c : Char, isUuidChar c = false → c ∉ tempSuffix → c ≠ '.' → c ∉ name →
      c ∉ tempName uuid name := by
    intro c hc hs hdot hn
    have hu := uuid.not_mem_toStr hc
    simp [tempName, hu, hs, hdot, hn]
  refine ⟨⟨?_, ?_, ?_, hmem _ (by decide) (by decide) (by decide) h.2.2.2.1,
    hmem _ (by decide) (by decide) (by decide) h.2.2.2.2⟩,
    hmem _ (by decide) (by decide) (by decide) hb⟩ <;>
  · intro he
    rw [he] at hlong
    simp at hlong

/-- The temporary key beside an accepted key is accepted. -/
theorem validKey_tempBeside (uuid : Uuid) {key : Str} (h : ValidKey key) :
    ValidKey (tempBeside uuid key) := by
  -- The last part of the key, and what comes before it.
  have hsplit : ∃ parent name, (rsplitOnce '/' key).getD ([], key) = (parent, name) ∧
      LegalName name ∧ '\\' ∉ name ∧ (parent ≠ [] → ValidKey parent) := by
    cases hr : rsplitOnce '/' key with
    | none =>
      have hslash : '/' ∉ key := rsplitOnce_eq_none.mp hr
      refine ⟨[], key, rfl, h.2 key ?_, h.1, by simp⟩
      rw [List.splitOn_eq_singleton hslash]
      exact List.mem_singleton.mpr rfl
    | some x =>
      obtain ⟨parent, name⟩ := x
      obtain ⟨rfl, hname⟩ := rsplitOnce_eq_some.mp hr
      have hparts := h.2
      rw [List.splitOn_append_cons_self, List.splitOn_eq_singleton hname] at hparts
      refine ⟨parent, name, rfl, hparts name (by simp), fun hb => h.1 (by simp [hb]), fun _ => ?_⟩
      exact ⟨fun hb => h.1 (by simp [hb]), fun c hc => hparts c (List.mem_append_left _ hc)⟩
  obtain ⟨parent, name, hs, hname, hback, hparent⟩ := hsplit
  obtain ⟨hlegal, hno⟩ := legalName_tempName uuid hname hback
  have hone := List.splitOn_eq_singleton hlegal.2.2.2.1
  simp only [tempBeside, hs]
  split_ifs with he
  · exact ⟨hno, by simpa [hone] using hlegal⟩
  · obtain ⟨hpb, hpl⟩ := hparent he
    refine ⟨by simp [hpb, hno], fun c hc => ?_⟩
    rw [List.splitOn_append_cons_self, hone] at hc
    rcases List.mem_append.mp hc with hc | hc
    · exact hpl c hc
    · exact List.mem_singleton.mp hc ▸ hlegal

theorem tempKey_of_valid (uuid : Uuid) {key : Str} (h : ValidKey key) :
    tempKey uuid key = .ok (tempBeside uuid key) := by
  simp only [tempKey, validateBlobKey_eq_ok.mpr (validKey_tempBeside uuid h)]

theorem mappedKey_of_valid (config : SmbStorageConfig) {key : Str} (h : ValidKey key) :
    mappedKey config key = .ok (belowRoot config key) := by
  simp only [mappedKey, validateBlobKey_eq_ok.mpr h]

/-- The path of an accepted key on the share. -/
def keyPath (config : SmbStorageConfig) (key : Str) : Str :=
  replaceChar '/' '\\' (belowRoot config key)

theorem remotePath_of_valid (config : SmbStorageConfig) {key : Str} (h : ValidKey key) :
    remotePath config key = .ok (keyPath config key) := by
  rw [remotePath, mappedKey_of_valid config h]
  rfl

end GraphqlOrmStorage.Smb
