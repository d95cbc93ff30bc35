import GraphqlOrmStorage.LocalContract
import GraphqlOrmStorage.S3Contract
import GraphqlOrmStorage.Service

/-!
# The storage service as an object store

Whatever the provider does for keys, the service does for objects: it keeps what it
returned under the identifier it drew, until the object is deleted or written again. The
identifier alone decides; the file name and the type of an object go into its key and its
description and keep nothing apart that the identifier does not.
-/
namespace GraphqlOrmStorage.Service

open Text Program Contract
open Local (BlobMap concatBody)

/-! ### The calls -/

/-- A call of the service, with what it draws; the last one is `put_object` of the provider. -/
inductive ObjectCall where
  | putObject (objectId : Uuid) (createdAt : ℤ) (request : StoragePutRequest)
  | putObjectStream (objectId : Uuid) (createdAt : ℤ) (request : StoragePutStreamRequest)
  | getObject (object : StoredObject)
  | deleteObject (object : StoredObject)
  | objectExists (object : StoredObject)
  | objectBackendMetadata (object : StoredObject)
  | replace (object : StoredObject) (bytes : Bytes)

inductive ObjectAnswer where
  | stored (result : Except StorageError StoredObject)
  | loaded (result : Except Stop StorageObjectBody)
  | deleted (result : Except StorageError Unit)
  | found (result : Except StorageError Bool)
  | described (result : Except StorageError (Option (Str × Option ℕ)))

/-- `put_object` of the providers; they differ in the options. -/
def replaceObject {m : Type → Type} [Monad m] (S : ObjectStorage m)
    (options : StoredObject → BlobPutOptions) (object : StoredObject) (bytes : Bytes) :
    m (Except StorageError StoredObject) := do
  match ← S.putBlob object.storageKey (.fromBytes bytes) (options object) with
  | .error e => return .error e
  | .ok _ => return .ok object

def ObjectCall.exec {m : Type → Type} [Monad m] (S : ObjectStorage m)
    (options : StoredObject → BlobPutOptions) : ObjectCall → m ObjectAnswer
  | .putObject objectId createdAt request => do
    return .stored (← StorageService.putObject S objectId createdAt request)
  | .putObjectStream objectId createdAt request => do
    return .stored (← StorageService.putObjectStream S objectId createdAt request)
  | .getObject object => do return .loaded (← StorageService.getObject S object)
  | .deleteObject object => do return .deleted (← StorageService.deleteObject S object)
  | .objectExists object => do return .found (← StorageService.objectExists S object)
  | .objectBackendMetadata object => do
    return .described
      ((← StorageService.objectBackendMetadata S object).map (Option.map keyAndSize))
  | .replace object bytes => do return .stored (← replaceObject S options object bytes)

/-- `S3StorageBackend` as an `ObjectStorage`. -/
def s3ObjectStorage (D : Digest) (config : S3.S3StorageConfig) : ObjectStorage S3.S3M where
  backend := .s3
  putBlob := S3.putBlob D config
  getBlob := S3.getBlob config
  blobExists := S3.blobExists config
  headBlob := S3.headBlob config
  deleteObject object := S3.deleteBlob config object.storageKey

/-- The local backend stores without a type. -/
def localOptions (_object : StoredObject) : BlobPutOptions := ⟨none⟩

def s3Options (object : StoredObject) : BlobPutOptions := ⟨object.mimeType⟩

/-! ### One call of the service is one call of the store -/

/-- What a put describes before its body is written. -/
def drafted (backend : StorageBackend) (objectId : Uuid) (createdAt : ℤ)
    (request : StoragePutStreamRequest) : StoredObject :=
  buildStreamStoredObject backend objectId createdAt request

/-- The description with what has been written. -/
def written (object : StoredObject) (outcome : BlobWriteOutcome) : StoredObject :=
  { object with sizeBytes := outcome.sizeBytes, sha256Hex := outcome.sha256Hex }

variable (backend : StorageBackend) (options : StoredObject → BlobPutOptions)

def ObjectCall.below : ObjectCall → StoreCall
  | .putObject objectId createdAt request =>
    .putBlob (drafted backend objectId createdAt request.toStream).storageKey request.toStream.body
      ⟨request.mimeType⟩
  | .putObjectStream objectId createdAt request =>
    .putBlob (drafted backend objectId createdAt request).storageKey request.body ⟨request.mimeType⟩
  | .getObject object => .getBlob object.storageKey
  | .deleteObject object => .deleteBlob object.storageKey
  | .objectExists object => .blobExists object.storageKey
  | .objectBackendMetadata object => .headBlob object.storageKey
  | .replace object bytes => .putBlob object.storageKey (.fromBytes bytes) (options object)

/-- What the service makes of the answer. -/
inductive Gives : ObjectCall → StoreAnswer → ObjectAnswer → Prop
  | putObject (objectId : Uuid) (createdAt : ℤ) (request : StoragePutRequest)
    (r : Except StorageError BlobWriteOutcome) :
    Gives (.putObject objectId createdAt request) (.wrote r)
      (.stored (r.map (written (drafted backend objectId createdAt request.toStream))))
  | putObjectStream (objectId : Uuid) (createdAt : ℤ) (request : StoragePutStreamRequest)
    (r : Except StorageError BlobWriteOutcome) :
    Gives (.putObjectStream objectId createdAt request) (.wrote r)
      (.stored (r.map (written (drafted backend objectId createdAt request))))
  | getObject (object : StoredObject) (r : Except Stop Bytes) :
    Gives (.getObject object) (.read r) (.loaded (r.map (StorageObjectBody.mk object)))
  | deleteObject (object : StoredObject) (r : Except StorageError Unit) :
    Gives (.deleteObject object) (.done r) (.deleted r)
  | objectExists (object : StoredObject) (r : Except StorageError Bool) :
    Gives (.objectExists object) (.found r) (.found r)
  | objectBackendMetadata (object : StoredObject)
    (r : Except StorageError (Option (Str × Option ℕ))) :
    Gives (.objectBackendMetadata object) (.described r) (.described r)
  | replace (object : StoredObject) (bytes : Bytes) (r : Except StorageError BlobWriteOutcome) :
    Gives (.replace object bytes) (.wrote r) (.stored (r.map fun _ => object))

/-- The calls of the store that the service makes. -/
def storeCallOf {m : Type → Type} [Monad m] (S : ObjectStorage m) : ObjectCall → m StoreAnswer
  | .putObject objectId createdAt request => do
    return .wrote (← S.putBlob (drafted S.backend objectId createdAt request.toStream).storageKey
      request.toStream.body ⟨request.mimeType⟩)
  | .putObjectStream objectId createdAt request => do
    return .wrote (← S.putBlob (drafted S.backend objectId createdAt request).storageKey
      request.body ⟨request.mimeType⟩)
  | .getObject object => do
    match ← S.getBlob object.storageKey with
    | .error e => return .read (.error (.error e))
    | .ok blob => return .read (collectStorageStream blob.body)
  | .deleteObject object => do return .done (← S.deleteObject object)
  | .objectExists object => do return .found (← S.blobExists object.storageKey)
  | .objectBackendMetadata object => do
    return .described ((← S.headBlob object.storageKey).map (Option.map keyAndSize))
  | .replace object bytes => do
    return .wrote (← S.putBlob object.storageKey (.fromBytes bytes) (options object))

/-- The service makes one call below and adds what it knows of the object. -/
theorem exec_below {I : Interface} (S : ObjectStorage (Prog I))
    (options : StoredObject → BlobPutOptions) (q : ObjectCall) :
    ∃ (α : Type) (inner : Prog I α) (f : α → StoreAnswer) (g : α → ObjectAnswer),
      storeCallOf options S q = inner.bind (fun r => .ret (f r)) ∧
      q.exec S options = inner.bind (fun r => .ret (g r)) ∧ ∀ r, Gives S.backend q (f r) (g r) := by
  cases q with
  | putObject objectId createdAt request =>
    refine ⟨_, S.putBlob _ _ _, _, _, rfl, ?_, .putObject objectId createdAt request⟩
    refine (Prog.bind_assoc ..).trans (congrArg _ (funext fun r => ?_))
    cases r <;> rfl
  | putObjectStream objectId createdAt request =>
    refine ⟨_, S.putBlob _ _ _, _, _, rfl, ?_, .putObjectStream objectId createdAt request⟩
    refine (Prog.bind_assoc ..).trans (congrArg _ (funext fun r => ?_))
    cases r <;> rfl
  | getObject object =>
    refine ⟨_, S.getBlob object.storageKey, fun r => .read (match r with
      | .error e => .error (.error e)
      | .ok blob => collectStorageStream blob.body), _, ?_, ?_, fun r => .getObject object _⟩
    · simp only [storeCallOf, Prog.bind_eq_bind]
      congr 1
      funext r
      cases r <;> rfl
    · simp only [ObjectCall.exec, StorageService.getObject, StorageService.getObjectStream,
        Prog.bind_eq_bind, Prog.bind_assoc]
      congr 1
      funext r
      cases r with
      | error e => rfl
      | ok blob =>
        cases hcollect : collectStorageStream blob.body <;>
        · simp only [hcollect, Prog.pure_eq_ret, Prog.ret_bind]
          rfl
  | deleteObject object =>
    exact ⟨_, S.deleteObject object, _, _, rfl, rfl, .deleteObject object⟩
  | objectExists object =>
    exact ⟨_, S.blobExists object.storageKey, _, _, rfl, rfl, .objectExists object⟩
  | objectBackendMetadata object =>
    exact ⟨_, S.headBlob object.storageKey, _, _, rfl, rfl,
      fun r => .objectBackendMetadata object _⟩
  | replace object bytes =>
    refine ⟨_, S.putBlob _ _ _, _, _, rfl, ?_, .replace object bytes⟩
    refine (Prog.bind_assoc ..).trans (congrArg _ (funext fun r => ?_))
    cases r <;> rfl

/-- A call of the service on a directory. -/
def LocalDoes (D : Digest) (t : FileTree) (q : ObjectCall) (a : ObjectAnswer) (t' : FileTree) :
    Prop :=
  ∃ u now, Local.FreshUuid t u ∧
    FsM.run now (q.exec (localObjectStorage D u) localOptions) t = (a, t')

/-- A call of the service on a bucket. -/
def S3Does (D : Digest) (config : S3.S3StorageConfig) (s : S3.Store) (q : ObjectCall)
    (a : ObjectAnswer) (s' : S3.Store) : Prop :=
  ∃ log, Prog.RunsIn S3.Prompt s (q.exec (s3ObjectStorage D config) s3Options) log s' a

theorem localDoes_below {D : Digest} {t t' : FileTree} {q : ObjectCall} {a' : ObjectAnswer}
    (h : LocalDoes D t q a' t') :
    ∃ a, Local.Does D t (q.below .local localOptions) a t' ∧ Gives .local q a a' := by
  obtain ⟨u, now, hfresh, hrun⟩ := h
  obtain ⟨α, inner, f, g, hbelow, hexec, hgives⟩ :=
    exec_below (localObjectStorage D u) localOptions q
  have hsame : Local.storeCall D u (q.below .local localOptions) =
      storeCallOf localOptions (localObjectStorage D u) q := by
    cases q <;> rfl
  rw [hexec, FsM.run_bind] at hrun
  obtain ⟨ha, ht⟩ := Prod.mk.inj hrun
  refine ⟨f (FsM.run now inner t).1, ⟨u, now, hfresh, ?_⟩, ha ▸ hgives _⟩
  rw [hsame, hbelow, FsM.run_bind, ← ht]
  rfl

theorem s3Does_below {D : Digest} {config : S3.S3StorageConfig} {s s' : S3.Store} {q : ObjectCall}
    {a' : ObjectAnswer} (h : S3Does D config s q a' s') :
    ∃ a, S3.Does D config s (q.below .s3 s3Options) a s' ∧ Gives .s3 q a a' := by
  obtain ⟨log, hrun⟩ := h
  obtain ⟨α, inner, f, g, hbelow, hexec, hgives⟩ :=
    exec_below (s3ObjectStorage D config) s3Options q
  have hsame : S3.storeCall D config (q.below .s3 s3Options) =
      storeCallOf s3Options (s3ObjectStorage D config) q := by
    cases q <;> rfl
  rw [hexec] at hrun
  obtain ⟨first, s₁, r, second, rfl, hfirst, hsecond⟩ := Prog.runsIn_bind.mp hrun
  obtain ⟨rfl, rfl, rfl⟩ := Prog.runsIn_ret.mp hsecond
  refine ⟨f r, ⟨first ++ [], ?_⟩, hgives r⟩
  rw [hsame, hbelow]
  exact Prog.runsIn_bind.mpr ⟨first, s', r, [], rfl, hfirst, .ret ..⟩

/-! ### The object store -/

/-- What the service has returned, and what is stored under each identifier. -/
structure Shelf where
  returned : List StoredObject
  content : Uuid → Option Bytes

/-- A put: a body that ends without an error is stored under the identifier. -/
def Shelf.put (D : Digest) (N : Shelf) (object : StoredObject) (body : StorageByteStream) :
    ObjectAnswer × Shelf :=
  match body.body with
  | .error e => (.stored (.error e), N)
  | .ok b => (.stored (.ok (written object (outcomeOf D b))),
      ⟨written object (outcomeOf D b) :: N.returned,
        Function.update N.content object.objectId (some b)⟩)

/-- What an object store does. -/
def Shelf.serve (D : Digest) (backend : StorageBackend) (N : Shelf) :
    ObjectCall → ObjectAnswer × Shelf
  | .putObject objectId createdAt request =>
    N.put D (drafted backend objectId createdAt request.toStream) request.toStream.body
  | .putObjectStream objectId createdAt request =>
    N.put D (drafted backend objectId createdAt request) request.body
  | .getObject object =>
    match N.content object.objectId with
    | none => (.loaded (.error (.error (.missingBlob object.storageKey))), N)
    | some b => (.loaded (.ok ⟨object, b⟩), N)
  | .deleteObject object =>
    (.deleted (.ok ()), { N with content := Function.update N.content object.objectId none })
  | .objectExists object => (.found (.ok (N.content object.objectId).isSome), N)
  | .objectBackendMetadata object =>
    (.described (.ok ((N.content object.objectId).map fun b =>
      (object.storageKey, some b.length))), N)
  | .replace object bytes =>
    (.stored (.ok object),
      { N with content := Function.update N.content object.objectId (some bytes) })

/-- A put draws an identifier that no object has; other calls are on objects that were returned. -/
def Shelf.Admits (N : Shelf) : ObjectCall → Prop
  | .putObject objectId _ _ | .putObjectStream objectId _ _ =>
    ∀ object ∈ N.returned, object.objectId ≠ objectId
  | .getObject object | .deleteObject object | .objectExists object
  | .objectBackendMetadata object | .replace object _ => object ∈ N.returned

/-- The keys of the objects hold what is stored under their identifiers. -/
structure Keeps (M : BlobMap) (N : Shelf) : Prop where
  stored : ∀ object ∈ N.returned, M object.storageKey = N.content object.objectId
  generated : ∀ object ∈ N.returned, ∃ fileName, object.storageKey =
    buildStorageKey object.ns object.objectId (requestExtension fileName)
  unique : ∀ object ∈ N.returned, ∀ object' ∈ N.returned, object.objectId = object'.objectId →
    object = object'

section Keeping

variable {M : BlobMap} {N : Shelf} {object object' : StoredObject}

/-- A key that the service generates. -/
def Generated (key : Str) : Prop :=
  ∃ ns objectId fileName, key = buildStorageKey ns objectId (requestExtension fileName)

theorem Generated.valid {key : Str} (h : Generated key) : ValidKey key := by
  obtain ⟨ns, objectId, fileName, rfl⟩ := h
  exact validKey_buildStorageKey ns objectId fileName

theorem Keeps.generated_key (h : Keeps M N) (ho : object ∈ N.returned) :
    Generated object.storageKey := by
  obtain ⟨fileName, hkey⟩ := h.generated object ho
  exact ⟨_, _, fileName, hkey⟩

theorem Keeps.empty (M : BlobMap) : Keeps M ⟨[], fun _ => none⟩ := by
  constructor <;> simp

/-- The identifier can be read off the key. -/
theorem objectId_of_key {ns ns' : StorageNamespace} {u u' : Uuid} {fileName fileName' : Option Str}
    (h : buildStorageKey ns u (requestExtension fileName) =
      buildStorageKey ns' u' (requestExtension fileName')) : u = u' := by
  have hpath := congrArg (List.splitOn '/') h
  rw [splitOn_buildStorageKey, splitOn_buildStorageKey] at hpath
  exact storagePath_inj hpath

theorem Keeps.same_id (h : Keeps M N) (ho : object ∈ N.returned) (ho' : object' ∈ N.returned)
    (hkey : object.storageKey = object'.storageKey) : object.objectId = object'.objectId := by
  obtain ⟨fileName, hgenerated⟩ := h.generated object ho
  obtain ⟨fileName', hgenerated'⟩ := h.generated object' ho'
  exact objectId_of_key (hgenerated.symm.trans (hkey.trans hgenerated'))

/-- What is stored under an object that was returned changes. -/
theorem Keeps.update (h : Keeps M N) (ho : object ∈ N.returned) (content : Option Bytes) :
    Keeps (Function.update M object.storageKey content)
      { N with content := Function.update N.content object.objectId content } where
  stored object' ho' := by
    simp only [Function.update_apply]
    by_cases hid : object'.objectId = object.objectId
    · rw [h.unique object' ho' object ho hid, if_pos rfl, if_pos rfl]
    · rw [if_neg fun hkey => hid (h.same_id ho' ho hkey), if_neg hid, h.stored object' ho']
  generated := h.generated
  unique := h.unique

/-- An object with an identifier of its own comes on the shelf. -/
theorem Keeps.add (h : Keeps M N) (object : StoredObject) {fileName : Option Str}
    (hkey : object.storageKey =
      buildStorageKey object.ns object.objectId (requestExtension fileName))
    (hnew : ∀ object' ∈ N.returned, object'.objectId ≠ object.objectId) (b : Bytes) :
    Keeps (Function.update M object.storageKey (some b)) ⟨object :: N.returned,
      Function.update N.content object.objectId (some b)⟩ where
  stored object' ho' := by
    simp only [Function.update_apply]
    rcases List.mem_cons.mp ho' with rfl | ho'
    · rw [if_pos rfl, if_pos rfl]
    · have hid := hnew object' ho'
      have hkey' : object'.storageKey ≠ object.storageKey := by
        obtain ⟨fileName', hgenerated⟩ := h.generated object' ho'
        exact fun heq => hid (objectId_of_key (hgenerated.symm.trans (heq.trans hkey)))
      rw [if_neg hkey', if_neg hid, h.stored object' ho']
  generated object' ho' := by
    rcases List.mem_cons.mp ho' with rfl | ho'
    · exact ⟨fileName, hkey⟩
    · exact h.generated object' ho'
  unique object₁ ho₁ object₂ ho₂ hid := by
    rcases List.mem_cons.mp ho₁ with rfl | h₁ <;> rcases List.mem_cons.mp ho₂ with rfl | h₂
    · rfl
    · exact absurd hid.symm (hnew _ h₂)
    · exact absurd hid (hnew _ h₁)
    · exact h.unique _ h₁ _ h₂ hid

/-- One call of the service is the call below, seen through the identifiers. -/
def Matches (D : Digest) (backend : StorageBackend) (options : StoredObject → BlobPutOptions)
    (M : BlobMap) (N : Shelf) (q : ObjectCall) : Prop :=
  (∀ key ∈ (q.below backend options).keys, Generated key) ∧
    Keeps (serve D M (q.below backend options)).2 (N.serve D backend q).2 ∧
    ∀ a', Gives backend q (serve D M (q.below backend options)).1 a' →
      a' = (N.serve D backend q).1

theorem Keeps.put_matches {D : Digest} {backend : StorageBackend}
    {options : StoredObject → BlobPutOptions} (h : Keeps M N) {q : ObjectCall}
    {request : StoragePutStreamRequest} {objectId : Uuid} (createdAt : ℤ)
    (hnew : ∀ object ∈ N.returned, object.objectId ≠ objectId)
    (hbelow : q.below backend options =
      .putBlob (drafted backend objectId createdAt request).storageKey request.body
        ⟨request.mimeType⟩)
    (hserve : N.serve D backend q =
      N.put D (drafted backend objectId createdAt request) request.body)
    (hgives : ∀ r a', Gives backend q (.wrote r) a' →
      a' = .stored (r.map (written (drafted backend objectId createdAt request)))) :
    Matches D backend options M N q := by
  have hkey : (drafted backend objectId createdAt request).storageKey =
      buildStorageKey request.ns objectId (requestExtension request.fileName) := rfl
  have hvalid : ∀ key ∈ (q.below backend options).keys, Generated key := by
    intro key hmem
    rw [hbelow, StoreCall.keys, List.mem_singleton] at hmem
    exact ⟨_, _, request.fileName, hmem.trans hkey⟩
  refine ⟨hvalid, ?_⟩
  rw [serve_of_valid fun key hmem => (hvalid key hmem).valid, hserve, hbelow]
  cases hbody : request.body.body with
  | error e =>
    simp only [answerValid, Shelf.put, hbody]
    exact ⟨h, fun a' ha' => hgives _ a' ha'⟩
  | ok b =>
    simp only [answerValid, Shelf.put, hbody]
    exact ⟨h.add (written (drafted backend objectId createdAt request) (outcomeOf D b)) hkey hnew b,
      fun a' ha' => hgives _ a' ha'⟩

theorem Keeps.matches {D : Digest} {backend : StorageBackend}
    {options : StoredObject → BlobPutOptions} (h : Keeps M N) {q : ObjectCall} (ha : N.Admits q) :
    Matches D backend options M N q := by
  cases q with
  | putObject objectId createdAt request =>
    refine h.put_matches createdAt ha rfl rfl fun r a' hgives => ?_
    cases hgives
    rfl
  | putObjectStream objectId createdAt request =>
    refine h.put_matches createdAt ha rfl rfl fun r a' hgives => ?_
    cases hgives
    rfl
  | getObject object | objectExists object | objectBackendMetadata object =>
    have hgenerated := h.generated_key ha
    refine ⟨by simpa [ObjectCall.below, StoreCall.keys] using hgenerated, ?_⟩
    rw [serve_of_valid (by simpa [ObjectCall.below, StoreCall.keys] using hgenerated.valid)]
    have hstored := h.stored object ha
    cases hM : N.content object.objectId <;>
    · rw [hM] at hstored
      simp only [ObjectCall.below, answerValid, Shelf.serve, hstored, hM]
      refine ⟨h, fun a' hgives => ?_⟩
      cases hgives
      rfl
  | deleteObject object | replace object bytes =>
    have hgenerated := h.generated_key ha
    refine ⟨by simpa [ObjectCall.below, StoreCall.keys] using hgenerated, ?_⟩
    rw [serve_of_valid (by simpa [ObjectCall.below, StoreCall.keys] using hgenerated.valid)]
    simp only [ObjectCall.below, answerValid, Shelf.serve, StorageByteStream.body_fromBytes]
    refine ⟨h.update ha _, fun a' hgives => ?_⟩
    cases hgives
    rfl

end Keeping

/-! ### Over the providers -/

/-- The call is admitted, and what it writes is no larger than this. -/
def Within (backend : StorageBackend) (options : StoredObject → BlobPutOptions) (n : ℕ) (N : Shelf)
    (q : ObjectCall) : Prop :=
  N.Admits q ∧ (q.below backend options).size ≤ n

/-- A directory keeps what is on the shelf. -/
def OnDirectory (limits : Limits) (t : FileTree) (N : Shelf) : Prop :=
  ∃ M, Local.Represents limits Generated t M ∧ Keeps M N

/-- A bucket does. -/
def InBucket (config : S3.S3StorageConfig) (s : S3.Store) (N : Shelf) : Prop :=
  ∃ M, S3.Represents config s M ∧ Keeps M N

section Providers

variable {D : Digest} {limits : Limits} {config : S3.S3StorageConfig}

/-- Generated keys are all of the same depth. -/
theorem generated_coexisting (hn : limits.AnyName) : Local.Coexisting limits Generated := by
  have hlegal : ∀ key, Generated key → ∀ c ∈ key.splitOn '/', LegalName c := by
    rintro key ⟨ns, objectId, fileName, rfl⟩ c hc
    rw [splitOn_buildStorageKey] at hc
    exact legalName_storagePath ns objectId fileName c hc
  have hdepth : ∀ key, Generated key → (key.splitOn '/').length = 4 := by
    rintro key ⟨ns, objectId, fileName, rfl⟩
    rw [splitOn_buildStorageKey]
    rfl
  refine ⟨fun key h => h.valid, fun key key' h h' hpre => ?_, fun key h c hc => ?_,
    fun key h u => ?_⟩
  · refine splitOn_injective '/' (hpre.eq_of_length ?_)
    rw [hdepth key h, hdepth key' h']
  · exact hn c (hlegal key h c hc)
  · refine hn _ (legalName_tempName (hlegal key h _ ?_))
    have hne := List.splitOn_ne_nil '/' key
    rw [List.getLast?_eq_some_getLast hne, Option.getD_some]
    exact List.getLast_mem hne

theorem localDoes_refines (hn : limits.AnyName) :
    Program.Refines (LocalDoes D) (OnDirectory limits)
      (Within .local localOptions limits.maxFileSize) (Shelf.serve D .local) Eq := by
  refine (Local.does_refines D (generated_coexisting hn)).adapt
    (fun t q a t' h => localDoes_below h) fun M N q hkeeps hwithin => ?_
  obtain ⟨hgenerated, hkeeps', hgives⟩ := hkeeps.matches (D := D) hwithin.1
  refine ⟨⟨hwithin.2, fun key hkey _ => hgenerated key hkey⟩, hkeeps', ?_⟩
  rintro a a' rfl h
  exact hgives a' h

theorem s3Does_refines (husable : S3.PrefixUsable config) :
    Program.Refines (S3Does D config) (InBucket config) (Within .s3 s3Options S3.maxBody)
      (Shelf.serve D .s3) Eq := by
  refine (S3.does_refines D husable).adapt
    (fun s q a s' h => s3Does_below h) fun M N q hkeeps hwithin => ?_
  obtain ⟨hgenerated, hkeeps', hgives⟩ := hkeeps.matches (D := D) hwithin.1
  refine ⟨⟨hwithin.2, fun src dst hq => ?_⟩, hkeeps', ?_⟩
  · cases q <;> cases hq
  · rintro a a' rfl h
    exact hgives a' h

end Providers

/-- What the sample stores. -/
def sampleRequest : StoragePutStreamRequest :=
  ⟨.originals, some "a/../x.TXT".toList, none, ⟨[.ok [1], .ok [2]], none⟩⟩

def sampleObject (backend : StorageBackend) : StoredObject :=
  written (drafted backend (Local.sampleUuid 1) 5 sampleRequest) (outcomeOf Digest.sha256 [1, 2])

/-- An object is stored, loaded, written again, described and deleted. -/
def sampleObjectCalls (backend : StorageBackend) : List ObjectCall :=
  [.putObjectStream (Local.sampleUuid 1) 5 sampleRequest, .getObject (sampleObject backend),
    .replace (sampleObject backend) [7], .objectBackendMetadata (sampleObject backend),
    .deleteObject (sampleObject backend), .objectExists (sampleObject backend)]

instance (N : Shelf) : DecidablePred N.Admits
  | .putObject _ _ _ | .putObjectStream _ _ _ => List.decidableBAll ..
  | .getObject _ | .deleteObject _ | .objectExists _ | .objectBackendMetadata _ | .replace _ _ =>
    inferInstanceAs (Decidable (_ ∈ _))

instance (backend : StorageBackend) (options : StoredObject → BlobPutOptions) (n : ℕ) (N : Shelf)
    (q : ObjectCall) : Decidable (Within backend options n N q) :=
  inferInstanceAs (Decidable (_ ∧ _))

def emptyShelf : Shelf := ⟨[], fun _ => none⟩

theorem sample_within :
    AllWithin (Shelf.serve Digest.sha256 .local)
        (Within .local localOptions Limits.widest.maxFileSize) emptyShelf
        (sampleObjectCalls .local) ∧
      AllWithin (Shelf.serve Digest.sha256 .s3) (Within .s3 s3Options S3.maxBody) emptyShelf
        (sampleObjectCalls .s3) := by
  constructor <;> decide +kernel

theorem empty_onDirectory (limits : Limits) :
    OnDirectory limits (FileTree.empty limits) emptyShelf := by
  refine ⟨fun _ => none, ⟨rfl, fun key _ => FileTree.files_empty .., fun key _ => ?_,
    fun key _ q _ => FileTree.files_empty ..⟩, Keeps.empty _⟩
  have hne : key.splitOn '/' ≠ [] := List.splitOn_ne_nil '/' key
  rw [FileTree.isDir, FileTree.lookup_empty limits hne]
  rfl

theorem empty_inBucket (config : S3.S3StorageConfig) : InBucket config S3.emptyStore emptyShelf :=
  ⟨fun _ => none, ⟨fun _ _ _ => rfl, Set.finite_empty.subset fun _ hu => hu rfl⟩, Keeps.empty _⟩

/-- The calls on a directory, each with the same temporary file name. -/
def directoryRun (t : FileTree) (q : ObjectCall) : ObjectAnswer × FileTree :=
  FsM.run 0 (q.exec (localObjectStorage Digest.sha256 (Local.sampleUuid 2)) localOptions) t

theorem exists_onDirectory : ∃ answered t, Session (LocalDoes Digest.sha256)
    (FileTree.empty Limits.widest) (sampleObjectCalls .local) answered t := by
  refine ⟨_, _, session_of_run directoryRun
    (fun t _ => Local.FreshUuid t (Local.sampleUuid 2)) (fun t q hfresh => ⟨_, 0, hfresh, rfl⟩) ?_⟩
  decide +kernel

theorem exists_inBucket {config : S3.S3StorageConfig} (husable : S3.PrefixUsable config) :
    ∃ answered s, Session (S3Does Digest.sha256 config) S3.emptyStore (sampleObjectCalls .s3)
      answered s := by
  refine (s3Does_refines husable).exists_session (fun s _ q _ _ => ?_) (empty_inBucket config)
    sample_within.2
  obtain ⟨log, s', a, hrun⟩ := Prog.exists_run S3.prompt_total
    (q.exec (s3ObjectStorage Digest.sha256 config) s3Options) s
  exact ⟨a, s', log, hrun⟩

end GraphqlOrmStorage.Service
