import GraphqlOrmStorage.LocalBlob
import GraphqlOrmStorage.Triples

/-!
# What a blob store is for

The trait as one service over a map from keys to contents, whatever the provider: a call
on a key that is not valid is rejected, a put whose body fails passes the failure on, and
everything else is answered out of the map. Reads are taken together with collecting the
body, and of the metadata only the key and the size, which all providers tell.
-/
namespace GraphqlOrmStorage.Contract

open Text Program
open Local (BlobMap concatBody)

/-- A stream fails with its first error. -/
theorem body_eq_error {body : StorageByteStream} {e : StorageError} :
    body.body = .error e ↔ firstError body.inner = some e := by
  rw [StorageByteStream.body, collectChunks_eq]
  cases firstError body.inner <;> simp

/-- A call of the trait. -/
inductive StoreCall where
  | putBlob (key : Str) (body : StorageByteStream) (options : BlobPutOptions)
  | putBlobIfNotExists (key : Str) (body : StorageByteStream) (options : BlobPutOptions)
  | getBlob (key : Str)
  | headBlob (key : Str)
  | blobExists (key : Str)
  | copyBlob (src dst : Str)
  | deleteBlob (key : Str)

/-- What it returns. -/
inductive StoreAnswer where
  | wrote (result : Except StorageError BlobWriteOutcome)
  | created (result : Except StorageError (Option BlobWriteOutcome))
  | read (result : Except Stop Bytes)
  | described (result : Except StorageError (Option (Str × Option ℕ)))
  | found (result : Except StorageError Bool)
  | done (result : Except StorageError Unit)


/-- The part of the metadata that all providers tell. -/
def keyAndSize (m : BlobMetadata) : Str × Option ℕ := (m.key, m.sizeBytes)

/-- The keys that a call names, those that it reads before those that it writes. -/
def StoreCall.keys : StoreCall → List Str
  | .putBlob key _ _ | .putBlobIfNotExists key _ _ | .getBlob key | .headBlob key
  | .blobExists key | .deleteBlob key => [key]
  | .copyBlob src dst => [src, dst]

/-- The body that a call writes. -/
def StoreCall.body? : StoreCall → Option StorageByteStream
  | .putBlob _ body _ | .putBlobIfNotExists _ body _ => some body
  | _ => none

/-- A call that ends with this error. -/
def StoreCall.failed (e : StorageError) : StoreCall → StoreAnswer
  | .putBlob _ _ _ => .wrote (.error e)
  | .putBlobIfNotExists _ _ _ => .created (.error e)
  | .getBlob _ => .read (.error (.error e))
  | .headBlob _ => .described (.error e)
  | .blobExists _ => .found (.error e)
  | .copyBlob _ _ | .deleteBlob _ => .done (.error e)

/-- The answer to a call whose keys are valid, and what becomes of the map. -/
def answerValid (D : Digest) (M : BlobMap) : StoreCall → StoreAnswer × BlobMap
  | .putBlob key body _ =>
    match body.body with
    | .error e => (.wrote (.error e), M)
    | .ok b => (.wrote (.ok (outcomeOf D b)), Function.update M key (some b))
  | .putBlobIfNotExists key body _ =>
    match body.body, M key with
    | .error e, _ => (.created (.error e), M)
    | .ok _, some _ => (.created (.ok none), M)
    | .ok b, none => (.created (.ok (some (outcomeOf D b))), Function.update M key (some b))
  | .getBlob key =>
    match M key with
    | none => (.read (.error (.error (.missingBlob key))), M)
    | some b => (.read (.ok b), M)
  | .headBlob key => (.described (.ok ((M key).map fun b => (key, some b.length))), M)
  | .blobExists key => (.found (.ok (M key).isSome), M)
  | .copyBlob src dst =>
    match M src with
    | none => (.done (.error (.missingBlob src)), M)
    | some b => (.done (.ok ()), Function.update M dst (some b))
  | .deleteBlob key => (.done (.ok ()), Function.update M key none)

/-- The first key of a call that is not valid. -/
def StoreCall.invalidKey (q : StoreCall) : Option Str := q.keys.find? fun key => ¬ ValidKey key

/-- The service. -/
def serve (D : Digest) (M : BlobMap) (q : StoreCall) : StoreAnswer × BlobMap :=
  match q.invalidKey with
  | some key => (q.failed (.invalidStorageKey key), M)
  | none => answerValid D M q

theorem serve_of_valid {D : Digest} {M : BlobMap} {q : StoreCall}
    (h : ∀ key ∈ q.keys, ValidKey key) : serve D M q = answerValid D M q := by
  have hnone : q.invalidKey = none := List.find?_eq_none.mpr fun key hk => by simpa using h key hk
  simp only [serve, hnone]

/-- A call with one key that is not valid. -/
theorem serve_of_invalid {D : Digest} {M : BlobMap} {q : StoreCall} {key : Str}
    (hq : q.keys = [key]) (h : ¬ ValidKey key) :
    serve D M q = (q.failed (.invalidStorageKey key), M) := by
  have hsome : q.invalidKey = some key := by simp [StoreCall.invalidKey, hq, h]
  simp only [serve, hsome]

theorem serve_copyBlob_of_invalid {D : Digest} {M : BlobMap} {src dst : Str}
    (h : ¬ ValidKey src ∨ ValidKey src ∧ ¬ ValidKey dst) : ∃ key,
      key = (if ValidKey src then dst else src) ∧
      serve D M (.copyBlob src dst) = (.done (.error (.invalidStorageKey key)), M) := by
  refine ⟨_, rfl, ?_⟩
  rcases h with hsrc | ⟨hsrc, hdst⟩
  · simp [serve, StoreCall.invalidKey, StoreCall.keys, hsrc, StoreCall.failed]
  · simp [serve, StoreCall.invalidKey, StoreCall.keys, hsrc, hdst, StoreCall.failed]

/-- The call ended with an error. -/
def StoreAnswer.fails : StoreAnswer → Bool
  | .wrote (.error _) | .created (.error _) | .read (.error _) | .described (.error _)
  | .found (.error _) | .done (.error _) => true
  | _ => false

/-- The same answer, but for which error it is. -/
def SameButErrors (a a' : StoreAnswer) : Prop := a = a' ∨ a.fails = true ∧ a'.fails = true

/-- The bytes of a body that a call may have to store before the body ends or fails. -/
def StoreCall.size (q : StoreCall) : ℕ :=
  (q.body?.map fun body => (concatBody body).length).getD 0

end GraphqlOrmStorage.Contract
