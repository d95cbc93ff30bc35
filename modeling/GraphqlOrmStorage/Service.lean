import GraphqlOrmStorage.LocalBlob

/-!
# The storage service over the local backend

The service draws an identifier, derives the storage key from it and from the
client's file name, and delegates the bytes to a backend. Generated keys have
four components and no two of them share one, so no object is ever another
object's parent directory; every object the service returned stays loadable
until it is deleted, whatever happens to the others.
-/
namespace GraphqlOrmStorage

open Text Program FileTree

/-- `StoragePutRequest`. -/
structure StoragePutRequest where
  ns : StorageNamespace
  fileName : Option Str
  mimeType : Option Str
  bytes : Bytes

/-- `StoragePutStreamRequest`. -/
structure StoragePutStreamRequest where
  ns : StorageNamespace
  fileName : Option Str
  mimeType : Option Str
  body : StorageByteStream

/-- The stream request `put_object` makes of its bytes. -/
def StoragePutRequest.toStream (request : StoragePutRequest) : StoragePutStreamRequest :=
  ⟨request.ns, request.fileName, request.mimeType, StorageByteStream.fromBytes request.bytes⟩

/-- `StoredObject`. -/
structure StoredObject where
  objectId : Uuid
  ns : StorageNamespace
  backend : StorageBackend
  storageKey : Str
  originalFileName : Option Str
  mimeType : Option Str
  sizeBytes : ℕ
  sha256Hex : Str
  createdAt : ℤ
  deriving DecidableEq

/-- `StorageObjectBody`. -/
structure StorageObjectBody where
  object : StoredObject
  bytes : Bytes
  deriving DecidableEq

/-- `StorageObjectStream`. -/
structure StorageObjectStream where
  object : StoredObject
  body : StorageByteStream

/-- `ObjectStorage`, as far as the service below calls it. -/
structure ObjectStorage (m : Type → Type) where
  backend : StorageBackend
  putBlob : Str → StorageByteStream → BlobPutOptions → m (Except StorageError BlobWriteOutcome)
  getBlob : Str → m (Except StorageError BlobBody)
  blobExists : Str → m (Except StorageError Bool)
  headBlob : Str → m (Except StorageError (Option BlobMetadata))
  deleteObject : StoredObject → m (Except StorageError Unit)

/-- `build_stream_stored_object`; the identifier and the time are drawn by the caller. -/
def buildStreamStoredObject (backend : StorageBackend) (objectId : Uuid) (createdAt : ℤ)
    (request : StoragePutStreamRequest) : StoredObject :=
  let extension := request.fileName.bind fileExtension
  let storageKey := buildStorageKey request.ns objectId extension
  ⟨objectId, request.ns, backend, storageKey, request.fileName, request.mimeType, 0, [], createdAt⟩

namespace StorageService

variable {m : Type → Type} [Monad m]

/-- `put_object_stream`. -/
def putObjectStream (S : ObjectStorage m) (objectId : Uuid) (createdAt : ℤ)
    (request : StoragePutStreamRequest) : m (Except StorageError StoredObject) := do
  let object := buildStreamStoredObject S.backend objectId createdAt request
  let options : BlobPutOptions := ⟨request.mimeType⟩
  match ← S.putBlob object.storageKey request.body options with
  | .error e => return .error e
  | .ok outcome =>
    return .ok { object with sizeBytes := outcome.sizeBytes, sha256Hex := outcome.sha256Hex }

/-- `put_object`. -/
def putObject (S : ObjectStorage m) (objectId : Uuid) (createdAt : ℤ)
    (request : StoragePutRequest) : m (Except StorageError StoredObject) :=
  putObjectStream S objectId createdAt request.toStream

/-- `get_object_stream`. -/
def getObjectStream (S : ObjectStorage m) (object : StoredObject) :
    m (Except StorageError StorageObjectStream) := do
  match ← S.getBlob object.storageKey with
  | .error e => return .error e
  | .ok body => return .ok ⟨object, body.body⟩

/-- `get_object`. -/
def getObject (S : ObjectStorage m) (object : StoredObject) : m (Except Stop StorageObjectBody) := do
  match ← getObjectStream S object with
  | .error e => return .error (.error e)
  | .ok objectStream =>
    match collectStorageStream objectStream.body with
    | .error stop => return .error stop
    | .ok bytes => return .ok ⟨objectStream.object, bytes⟩

/-- `delete_object`. -/
def deleteObject (S : ObjectStorage m) (object : StoredObject) : m (Except StorageError Unit) :=
  S.deleteObject object

/-- `object_exists`. -/
def objectExists (S : ObjectStorage m) (object : StoredObject) : m (Except StorageError Bool) :=
  S.blobExists object.storageKey

/-- `object_backend_metadata`. -/
def objectBackendMetadata (S : ObjectStorage m) (object : StoredObject) :
    m (Except StorageError (Option BlobMetadata)) :=
  S.headBlob object.storageKey

end StorageService

/-- `LocalStorageBackend` as an `ObjectStorage`; `tempId` is what a write draws for its
temporary file. -/
def localObjectStorage (D : Digest) (tempId : Uuid) : ObjectStorage FsM where
  backend := .local
  putBlob := Local.putBlob D tempId
  getBlob := Local.getBlob
  blobExists := Local.blobExists
  headBlob := Local.headBlob
  deleteObject object := Local.deleteBlob object.storageKey

namespace Service

/-! ### Runs -/

/-- The calls of a client that keeps what the service returned. -/
inductive ServiceOp where
  | putObject (request : StoragePutRequest)
  | putObjectStream (request : StoragePutStreamRequest)
  | deleteObject (object : StoredObject)

inductive ServiceReply where
  | put (result : Except StorageError StoredObject)
  | delete (result : Except StorageError Unit)

/-- One call with the identifiers it draws and the time. -/
structure ServiceEvent where
  op : ServiceOp
  objectId : Uuid
  tempId : Uuid
  now : ℤ

def ServiceEvent.exec (D : Digest) (e : ServiceEvent) (t : FileTree) : ServiceReply × FileTree :=
  let S := localObjectStorage D e.tempId
  match e.op with
  | .putObject request =>
    (FsM.run e.now (StorageService.putObject S e.objectId e.now request) t).map .put id
  | .putObjectStream request =>
    (FsM.run e.now (StorageService.putObjectStream S e.objectId e.now request) t).map .put id
  | .deleteObject object =>
    (FsM.run e.now (StorageService.deleteObject S object) t).map .delete id

/-- The request of a put, in its streaming form. -/
def ServiceOp.request : ServiceOp → Option StoragePutStreamRequest
  | .putObject request => some request.toStream
  | .putObjectStream request => some request
  | .deleteObject _ => none

/-- The tree, and what a client knows: the identifiers drawn so far, the objects returned,
those not yet deleted with the bytes of their bodies, and every call with its reply. -/
structure ServiceState where
  tree : FileTree
  used : List Uuid
  returned : List StoredObject
  live : List (StoredObject × Bytes)
  log : List (ServiceEvent × ServiceReply)

def ServiceState.start (limits : Limits) : ServiceState := ⟨FileTree.empty limits, [], [], [], []⟩

/-- A put adds the object it returned, with the concatenated body. -/
def ServiceState.recordPut (s : ServiceState) (e : ServiceEvent) (body : StorageByteStream) :
    ServiceReply → ServiceState
  | .put (.ok object) =>
    { s with
      used := e.objectId :: e.tempId :: s.used
      returned := object :: s.returned
      live := (object, Local.concatBody body) :: s.live }
  | _ => { s with used := e.objectId :: e.tempId :: s.used }

/-- A delete that succeeded takes the object out of the live ones. -/
def ServiceState.recordDelete (s : ServiceState) (object : StoredObject) :
    ServiceReply → ServiceState
  | .delete (.ok ()) => { s with live := s.live.filter fun x => x.1 ≠ object }
  | _ => s

def ServiceState.step (D : Digest) (s : ServiceState) (e : ServiceEvent) : ServiceState :=
  let (reply, tree) := e.exec D s.tree
  let s := { s with tree, log := s.log ++ [(e, reply)] }
  match e.op with
  | .putObject request => s.recordPut e request.toStream.body reply
  | .putObjectStream request => s.recordPut e request.body reply
  | .deleteObject object => s.recordDelete object reply

/-- A put draws two identifiers never drawn before; only returned objects are deleted. -/
def ServiceEvent.Admissible (s : ServiceState) (e : ServiceEvent) : Prop :=
  match e.op with
  | .deleteObject object => object ∈ s.returned
  | _ => e.objectId ∉ s.used ∧ e.tempId ∉ s.used ∧ e.objectId ≠ e.tempId

instance (s : ServiceState) : (e : ServiceEvent) → Decidable (e.Admissible s)
  | ⟨.deleteObject object, _, _, _⟩ => inferInstanceAs (Decidable (object ∈ s.returned))
  | ⟨.putObject _, _, _, _⟩ | ⟨.putObjectStream _, _, _, _⟩ =>
    inferInstanceAs (Decidable (_ ∧ _ ∧ _))

/-- The states of all runs from an empty root. -/
inductive ServiceRun (D : Digest) (limits : Limits) : ServiceState → Prop
  | start : ServiceRun D limits (ServiceState.start limits)
  | step {s : ServiceState} (e : ServiceEvent) :
      ServiceRun D limits s → e.Admissible s → ServiceRun D limits (s.step D e)

/-! ### One call -/

/-- The path of an object's blob. -/
def objectPath (o : StoredObject) : Path := o.storageKey.splitOn '/'

/-- The object a put describes before its body is written. -/
def draft (e : ServiceEvent) (request : StoragePutStreamRequest) : StoredObject :=
  buildStreamStoredObject .local e.objectId e.now request

/-- The object a put returns for the body `b`. -/
def finished (D : Digest) (e : ServiceEvent) (request : StoragePutStreamRequest) (b : Bytes) :
    StoredObject :=
  { draft e request with sizeBytes := b.length, sha256Hex := sha256Hex D b }

@[simp] theorem storageKey_finished (D : Digest) (e : ServiceEvent)
    (request : StoragePutStreamRequest) (b : Bytes) :
    (finished D e request b).storageKey = (draft e request).storageKey := rfl

/-- The key of every generated object is made of four names. -/
theorem objectPath_draft (e : ServiceEvent) (request : StoragePutStreamRequest) :
    objectPath (draft e request) =
      storagePath request.ns e.objectId (requestExtension request.fileName) :=
  splitOn_buildStorageKey request.ns e.objectId request.fileName

theorem validKey_draft (e : ServiceEvent) (request : StoragePutStreamRequest) :
    ValidKey (draft e request).storageKey :=
  validKey_buildStorageKey request.ns e.objectId request.fileName

/-- The put of a request as one event of a run. -/
def ServiceEvent.putResult (D : Digest) (e : ServiceEvent) (request : StoragePutStreamRequest)
    (t : FileTree) : Except StorageError StoredObject × FileTree :=
  FsM.run e.now (StorageService.putObjectStream (localObjectStorage D e.tempId) e.objectId e.now
    request) t

/-- The temporary file a put of the request uses. -/
def draftTemp (e : ServiceEvent) (request : StoragePutStreamRequest) : Path :=
  Local.tempPath (objectPath (draft e request)) e.tempId

theorem putResult_eq (D : Digest) (e : ServiceEvent) (request : StoragePutStreamRequest)
    (t : FileTree) : e.putResult D request t =
      ((FsM.run e.now (Local.putBlob D e.tempId (draft e request).storageKey request.body
        ⟨request.mimeType⟩) t).map (Except.map fun out =>
          { draft e request with sizeBytes := out.sizeBytes, sha256Hex := out.sha256Hex }) id) := by
  simp only [ServiceEvent.putResult, StorageService.putObjectStream, Prog.bind_eq_bind,
    FsM.run_bind, localObjectStorage, draft]
  generalize FsM.run e.now (Local.putBlob _ _ _ _ _) t = r
  obtain ⟨r | r, t'⟩ := r <;> rfl

/-- A put either fails and leaves all files alone, or it returns the described object and
its body is the one file that changed. -/
theorem putResult_spec (D : Digest) (e : ServiceEvent) (request : StoragePutStreamRequest)
    (t : FileTree) (h₀ : t.files (draftTemp e request) = none) :
    (∃ err, (e.putResult D request t).1 = .error err ∧
      Local.Untouched (objectPath (draft e request)) t (e.putResult D request t).2) ∨
    ∃ b, request.body.body = .ok b ∧
      (e.putResult D request t).1 = .ok (finished D e request b) ∧
      Local.Wrote (objectPath (draft e request)) b t (e.putResult D request t).2 := by
  rw [putResult_eq]
  rcases Local.putBlob_spec D e.tempId (draft e request).storageKey request.body
    ⟨request.mimeType⟩ e.now t h₀ with ⟨err, he, hu⟩ | ⟨b, _, hb, hr, hw⟩
  · exact Or.inl ⟨err, by simp [he, Except.map], hu⟩
  · exact Or.inr ⟨b, hb, by simp [hr, Except.map, finished], hw⟩

/-! ### The invariant of a run -/

/-- What holds between the tree and the client's knowledge after every call. -/
structure Inv (D : Digest) (limits : Limits) (s : ServiceState) : Prop where
  limits_eq : s.tree.limits = limits
  stored : ∀ x ∈ s.live, s.tree.files (objectPath x.1) = some x.2
  described : ∀ x ∈ s.live, x.1.sizeBytes = x.2.length ∧ x.1.sha256Hex = sha256Hex D x.2
  live_returned : ∀ x ∈ s.live, x.1 ∈ s.returned
  generated : ∀ o ∈ s.returned, o.objectId ∈ s.used ∧ ValidKey o.storageKey ∧
    ∃ ext, objectPath o = storagePath o.ns o.objectId ext
  unique : ∀ o ∈ s.returned, ∀ o' ∈ s.returned, o.objectId = o'.objectId → o = o'
  owned : ∀ p, s.tree.files p ≠ none → ∃ o ∈ s.returned, objectPath o = p
  shallow : ∀ p, s.tree.isDir p = true → p.length ≤ 3

section Invariant

variable {D : Digest} {limits : Limits} {s : ServiceState}

theorem Inv.start : Inv D limits (ServiceState.start limits) := by
  constructor <;> simp only [ServiceState.start, List.not_mem_nil, false_implies, implies_true]
  · rfl
  · intro p hp
    exact absurd (files_empty limits p) hp
  · intro p hp
    by_cases hn : p = []
    · simp [hn]
    · simp [isDir, hn] at hp

/-- Files lie at depth four. -/
theorem Inv.files_depth (h : Inv D limits s) {p : Path} (hp : p.length ≠ 4) :
    s.tree.files p = none := by
  by_contra hne
  obtain ⟨o, ho, rfl⟩ := h.owned p hne
  obtain ⟨_, _, ext, he⟩ := h.generated o ho
  rw [he] at hp
  exact hp rfl

theorem Inv.unused_ne (h : Inv D limits s) {u : Uuid} (hu : u ∉ s.used) {o : StoredObject}
    (ho : o ∈ s.returned) : o.objectId ≠ u :=
  fun he => hu (he ▸ (h.generated o ho).1)

/-- A path whose file name starts with an identifier never drawn before names no file. -/
theorem Inv.files_unused (h : Inv D limits s) {u : Uuid} (hu : u ∉ s.used) {p : Path} {name : Str}
    (hp : p.getLast? = some name) (hname : name.take 36 = u.toStr) : s.tree.files p = none := by
  by_contra hne
  obtain ⟨o, ho, rfl⟩ := h.owned p hne
  obtain ⟨_, _, ext, he⟩ := h.generated o ho
  apply h.unused_ne hu ho
  apply Uuid.toStr_injective
  obtain rfl : storageFileName o.objectId.toStr ext = name := by simpa [he, storagePath] using hp
  rw [← hname, take_storageFileName]

theorem take_tempName (u v : Uuid) (ext : Option Str) :
    (Local.tempName (storageFileName u.toStr ext) v).take 36 = u.toStr := by
  have hlen : 36 ≤ (storageFileName u.toStr ext).length := by
    have := congrArg List.length (take_storageFileName u ext)
    simp only [List.length_take, Uuid.length_toStr] at this
    omega
  rw [Local.tempName, List.take_append_of_le_length hlen, take_storageFileName]

theorem draftTemp_eq (e : ServiceEvent) (request : StoragePutStreamRequest) :
    draftTemp e request =
      (storagePath request.ns e.objectId (requestExtension request.fileName)).dropLast ++
        [Local.tempName (storageFileName e.objectId.toStr (requestExtension request.fileName))
          e.tempId] := by
  rw [draftTemp, objectPath_draft]
  rfl

theorem legalName_tempName {name : Str} (h : LegalName name) {u : Uuid} :
    LegalName (Local.tempName name u) := by
  have hlen := u.length_toStr
  have hmem (c : Char) (hc : isUuidChar c = false) (hs : c ∉ Local.uploadingSuffix)
      (hdot : c ≠ '.') (hn : c ∉ name) : c ∉ Local.tempName name u := by
    have hu := u.not_mem_toStr hc
    simp [Local.tempName, hu, hs, hdot, hn]
  have hlong : 36 ≤ (Local.tempName name u).length := by
    simp only [Local.tempName, List.length_append, List.length_cons]
    omega
  refine ⟨?_, ?_, ?_, hmem _ (by decide) (by decide) (by decide) h.2.2.2.1,
    hmem _ (by decide) (by decide) (by decide) h.2.2.2.2⟩ <;>
  · intro he
    rw [he] at hlong
    simp at hlong

/-- Nothing is at the temporary path a put is going to use. -/
theorem Inv.lookup_draftTemp (h : Inv D limits s) {e : ServiceEvent} (hu : e.objectId ∉ s.used)
    (request : StoragePutStreamRequest) : s.tree.lookup (draftTemp e request) = none := by
  rw [draftTemp_eq]
  refine lookup_eq_none_iff.mpr ⟨?_, ?_⟩
  · exact h.files_unused hu List.getLast?_concat (take_tempName _ _ _)
  · by_contra hdir
    have hlen := h.shallow _ (by simpa using hdir)
    simp [storagePath] at hlen

/-- After a put, directories are still at most three deep. -/
theorem Inv.shallow_of_grows (h : Inv D limits s) {e : ServiceEvent}
    {request : StoragePutStreamRequest} {t' : FileTree}
    (hg : Local.GrowsDirs (objectPath (draft e request)).dropLast s.tree t') :
    ∀ p, t'.isDir p = true → p.length ≤ 3 := by
  intro p hp
  rcases hg.added p hp with hold | hnew
  · exact h.shallow p hold
  · have := hnew.length_le
    simpa [objectPath_draft, storagePath] using this

/-- The path of a new object is no returned object's path. -/
theorem Inv.objectPath_ne (h : Inv D limits s) {e : ServiceEvent} (hu : e.objectId ∉ s.used)
    (request : StoragePutStreamRequest) {o : StoredObject} (ho : o ∈ s.returned) :
    objectPath o ≠ objectPath (draft e request) := by
  intro he
  obtain ⟨_, _, ext, hext⟩ := h.generated o ho
  rw [hext, objectPath_draft] at he
  exact h.unused_ne hu ho (storagePath_inj he)

/-- A put keeps the invariant, whether it fails or succeeds. -/
theorem Inv.put (h : Inv D limits s) {e : ServiceEvent} (hu : e.objectId ∉ s.used)
    (request : StoragePutStreamRequest) (log : List (ServiceEvent × ServiceReply)) :
    Inv D limits (({ s with tree := (e.putResult D request s.tree).2, log := log } :
      ServiceState).recordPut e request.body (.put (e.putResult D request s.tree).1)) := by
  have h₀ := (lookup_eq_none_iff.mp (h.lookup_draftTemp hu request)).1
  have hused : ∀ o ∈ s.returned, o.objectId ∈ e.objectId :: e.tempId :: s.used :=
    fun o ho => List.mem_cons_of_mem _ (List.mem_cons_of_mem _ (h.generated o ho).1)
  rcases putResult_spec D e request s.tree h₀ with ⟨err, he, hf, hg⟩ | ⟨b, hb, hr, hf, hg⟩
  · simp only [he, ServiceState.recordPut]
    exact {
      limits_eq := hg.limits.trans h.limits_eq
      stored := fun x hx => by rw [hf]; exact h.stored x hx
      described := h.described
      live_returned := h.live_returned
      generated := fun o ho => ⟨hused o ho, (h.generated o ho).2⟩
      unique := h.unique
      owned := fun p hp => h.owned p (by rwa [hf] at hp)
      shallow := h.shallow_of_grows hg }
  · simp only [hr, ServiceState.recordPut, Local.concatBody_eq hb]
    have hpath : objectPath (finished D e request b) = objectPath (draft e request) := rfl
    refine ⟨hg.limits.trans h.limits_eq, ?_, ?_, ?_, ?_, ?_, ?_, h.shallow_of_grows hg⟩
    · intro x hx
      rcases List.mem_cons.mp hx with rfl | hx
      · simp only [hf, hpath, Function.update_self]
      · have hne := h.objectPath_ne hu request (h.live_returned x hx)
        simp only [hf, Function.update_of_ne hne, h.stored x hx]
    · intro x hx
      rcases List.mem_cons.mp hx with rfl | hx
      · exact ⟨rfl, rfl⟩
      · exact h.described x hx
    · intro x hx
      rcases List.mem_cons.mp hx with rfl | hx
      · exact List.mem_cons_self
      · exact List.mem_cons_of_mem _ (h.live_returned x hx)
    · intro o ho
      rcases List.mem_cons.mp ho with rfl | ho
      · exact ⟨List.mem_cons_self, validKey_draft e request, _, objectPath_draft e request⟩
      · exact ⟨hused o ho, (h.generated o ho).2⟩
    · -- The new object is the only one with its identifier.
      intro o ho o' ho' heq
      rcases List.mem_cons.mp ho with rfl | ho <;> rcases List.mem_cons.mp ho' with rfl | ho'
      · rfl
      · exact absurd heq.symm (h.unused_ne hu ho')
      · exact absurd heq (h.unused_ne hu ho)
      · exact h.unique o ho o' ho' heq
    · intro p hp
      by_cases hpe : p = objectPath (draft e request)
      · exact ⟨_, List.mem_cons_self, hpe.symm⟩
      · simp only [hf, Function.update_of_ne hpe] at hp
        obtain ⟨o, ho, hop⟩ := h.owned p hp
        exact ⟨o, List.mem_cons_of_mem _ ho, hop⟩

/-- Deleting a returned object keeps the invariant. -/
theorem Inv.delete (h : Inv D limits s) {object : StoredObject} (hobj : object ∈ s.returned)
    (now : ℤ) (log : List (ServiceEvent × ServiceReply)) :
    Inv D limits (({ s with
        tree := (FsM.run now (Local.deleteBlob object.storageKey) s.tree).2, log := log } :
      ServiceState).recordDelete object
        (.delete (FsM.run now (Local.deleteBlob object.storageKey) s.tree).1)) := by
  obtain ⟨_, hk, ext, hext⟩ := h.generated object hobj
  rcases Local.deleteBlob_spec object.storageKey now s.tree with ⟨hv, _⟩ | ⟨_, hf, hd, herr⟩
  · exact absurd hk hv
  have howned : ∀ p, (FsM.run now (Local.deleteBlob object.storageKey) s.tree).2.files p ≠ none →
      ∃ o ∈ s.returned, objectPath o = p := by
    intro p hp
    refine h.owned p fun hn => hp ?_
    rw [hf, Function.update_apply, hn, ite_self]
  have hshallow : ∀ p,
      (FsM.run now (Local.deleteBlob object.storageKey) s.tree).2.isDir p = true → p.length ≤ 3 :=
    fun p hp => h.shallow p (by rwa [hd.1] at hp)
  cases hr : (FsM.run now (Local.deleteBlob object.storageKey) s.tree).1 with
  | error err =>
    -- The call fails only when there was no file; then nothing changed.
    have hsame : (FsM.run now (Local.deleteBlob object.storageKey) s.tree).2.files = s.tree.files := by
      rw [hf, ← herr err hr, Function.update_eq_self]
    simp only [ServiceState.recordDelete]
    exact ⟨hd.2.trans h.limits_eq, fun x hx => by rw [hsame]; exact h.stored x hx, h.described,
      h.live_returned, h.generated, h.unique, howned, hshallow⟩
  | ok _ =>
    simp only [ServiceState.recordDelete]
    refine ⟨hd.2.trans h.limits_eq, ?_, ?_, ?_, h.generated, h.unique, howned, hshallow⟩
    · intro x hx
      obtain ⟨hx, hne⟩ := List.mem_filter.mp hx
      have hne : x.1 ≠ object := by simpa using hne
      have hpath : objectPath x.1 ≠ object.storageKey.splitOn '/' := by
        intro he
        obtain ⟨_, _, ext', hext'⟩ := h.generated x.1 (h.live_returned x hx)
        have hid := storagePath_inj (hext'.symm.trans (he.trans hext))
        exact hne (h.unique _ (h.live_returned x hx) _ hobj hid)
      simp only [hf, Function.update_of_ne hpath, h.stored x hx]
    · exact fun x hx => h.described x (List.mem_filter.mp hx).1
    · exact fun x hx => h.live_returned x (List.mem_filter.mp hx).1

theorem Inv.step (h : Inv D limits s) {e : ServiceEvent} (ha : e.Admissible s) :
    Inv D limits (s.step D e) := by
  obtain ⟨op, objectId, tempId, now⟩ := e
  cases op with
  | putObject request => exact h.put (e := ⟨_, objectId, tempId, now⟩) ha.1 request.toStream _
  | putObjectStream request => exact h.put (e := ⟨_, objectId, tempId, now⟩) ha.1 request _
  | deleteObject object => exact h.delete ha now _

/-- A put whose body ends without error, and fits, returns its object. -/
theorem Inv.put_succeeds (h : Inv D limits s) (hn : limits.AnyName) {e : ServiceEvent}
    (hu : e.objectId ∉ s.used) {request : StoragePutStreamRequest} {b : Bytes}
    (hb : request.body.body = .ok b) (hfit : b.length ≤ limits.maxFileSize) :
    (e.putResult D request s.tree).1 = .ok (finished D e request b) := by
  have hnames := legalName_storagePath request.ns e.objectId request.fileName
  have hpath := objectPath_draft e request
  have hacc : ∀ c ∈ (draft e request).storageKey.splitOn '/', s.tree.limits.acceptsName c := by
    intro c hc
    rw [h.limits_eq]
    exact hn c (hnames c (hpath ▸ hc))
  have hlast : ((draft e request).storageKey.splitOn '/').getLast?.getD [] =
      storageFileName e.objectId.toStr (requestExtension request.fileName) := by
    rw [show (draft e request).storageKey.splitOn '/' = _ from hpath]
    rfl
  have htemp : s.tree.limits.acceptsName
      (Local.tempName (((draft e request).storageKey.splitOn '/').getLast?.getD []) e.tempId) := by
    rw [h.limits_eq, hlast]
    exact hn _ (legalName_tempName (legalName_storageFileName e.objectId request.fileName))
  have hno : ∀ q, q <+: ((draft e request).storageKey.splitOn '/').dropLast →
      s.tree.files q = none := by
    intro q hq
    apply h.files_depth
    have := hq.length_le
    rw [show (draft e request).storageKey.splitOn '/' = _ from hpath] at this
    simp only [storagePath, List.length_dropLast, List.length_cons, List.length_nil] at this
    omega
  have hdir : s.tree.isDir ((draft e request).storageKey.splitOn '/') = false := by
    by_contra hd
    have := h.shallow _ (by simpa using hd)
    rw [show (draft e request).storageKey.splitOn '/' = _ from hpath] at this
    simp [storagePath] at this
  have hr := Local.putBlob_succeeds D e.tempId ⟨request.mimeType⟩ e.now (validKey_draft e request)
    hb hacc htemp hno (h.lookup_draftTemp hu request) (by rw [h.limits_eq]; exact hfit) hdir
  rw [putResult_eq, Prod.map_fst, hr]
  rfl

/-! ### Whole runs -/

theorem ServiceRun.inv (h : ServiceRun D limits s) : Inv D limits s := by
  induction h with
  | start => exact Inv.start
  | step e _ ha ih => exact ih.step ha

/-- `get_object` of a stored object returns it with the bytes in its file. -/
theorem Inv.getObject (h : Inv D limits s) {x : StoredObject × Bytes} (hx : x ∈ s.live) (now : ℤ)
    (u : Uuid) : (FsM.run now (StorageService.getObject (localObjectStorage D u) x.1) s.tree).1 =
      .ok ⟨x.1, x.2⟩ := by
  obtain ⟨_, hk, _⟩ := h.generated x.1 (h.live_returned x hx)
  have hcollect : Local.collectBlob now x.1.storageKey s.tree = .ok x.2 :=
    (Local.collectBlob_eq_ok hk).mpr (h.stored x hx)
  simp only [Local.collectBlob] at hcollect
  simp only [StorageService.getObject, StorageService.getObjectStream, Prog.bind_eq_bind,
    FsM.run_bind, localObjectStorage]
  generalize FsM.run now (Local.getBlob x.1.storageKey) s.tree = r at hcollect ⊢
  obtain ⟨r | r, t'⟩ := r
  · simp at hcollect
  · simp only at hcollect
    simp [hcollect]

theorem step_log (D : Digest) (s : ServiceState) (e : ServiceEvent) :
    (s.step D e).log = s.log ++ [(e, (e.exec D s.tree).1)] := by
  obtain ⟨op, objectId, tempId, now⟩ := e
  cases op <;> simp only [ServiceState.step, ServiceState.recordPut, ServiceState.recordDelete] <;>
    split <;> rfl

theorem step_tree (D : Digest) (s : ServiceState) (e : ServiceEvent) :
    (s.step D e).tree = (e.exec D s.tree).2 := by
  obtain ⟨op, objectId, tempId, now⟩ := e
  cases op <;> simp only [ServiceState.step, ServiceState.recordPut, ServiceState.recordDelete] <;>
    split <;> rfl

theorem exec_put (D : Digest) {e : ServiceEvent} {request : StoragePutStreamRequest}
    (h : e.op.request = some request) (t : FileTree) :
    e.exec D t = ((e.putResult D request t).map .put id) := by
  obtain ⟨op, objectId, tempId, now⟩ := e
  cases op with
  | putObject r => obtain rfl := Option.some.inj h; rfl
  | putObjectStream r => obtain rfl := Option.some.inj h; rfl
  | deleteObject o => cases h

theorem unused_of_admissible {e : ServiceEvent} {request : StoragePutStreamRequest}
    (ha : e.Admissible s) (h : e.op.request = some request) : e.objectId ∉ s.used := by
  obtain ⟨op, objectId, tempId, now⟩ := e
  cases op with
  | putObject r => exact ha.1
  | putObjectStream r => exact ha.1
  | deleteObject o => cases h

/-- Every put of a run whose body ended without error, and fitted, returned its object. -/
theorem ServiceRun.puts_succeed (hn : limits.AnyName) (h : ServiceRun D limits s) :
    ∀ x ∈ s.log, ∀ request, x.1.op.request = some request → ∀ b, request.body.body = .ok b →
      b.length ≤ limits.maxFileSize → x.2 = .put (.ok (finished D x.1 request b)) := by
  induction h with
  | start => simp [ServiceState.start]
  | step e hrun ha ih =>
    intro x hx request hreq b hb hfit
    rw [step_log] at hx
    rcases List.mem_append.mp hx with hx | hx
    · exact ih x hx request hreq b hb hfit
    · obtain rfl := List.mem_singleton.mp hx
      have hok := hrun.inv.put_succeeds hn (unused_of_admissible ha hreq) hb hfit
      rw [exec_put D hreq, Prod.map_fst, hok]

/-- An object stays live until it is deleted itself. -/
theorem live_step {x : StoredObject × Bytes} (hx : x ∈ s.live) {e : ServiceEvent}
    (hne : e.op ≠ .deleteObject x.1) : x ∈ (s.step D e).live := by
  obtain ⟨op, objectId, tempId, now⟩ := e
  have hput (t : FileTree) (log : List (ServiceEvent × ServiceReply)) (e : ServiceEvent)
      (body : StorageByteStream) (reply : ServiceReply) :
      x ∈ (({ s with tree := t, log := log } : ServiceState).recordPut e body reply).live := by
    unfold ServiceState.recordPut
    split
    · exact List.mem_cons_of_mem _ hx
    · exact hx
  cases op with
  | putObject r => exact hput ..
  | putObjectStream r => exact hput ..
  | deleteObject o =>
    have hxo : x.1 ≠ o := fun he => hne (by rw [he])
    simp only [ServiceState.step, ServiceState.recordDelete]
    split
    · exact List.mem_filter.mpr ⟨hx, by simpa using hxo⟩
    · exact hx

/-- Bytes and any chunking of them give the same object and the same files. -/
theorem Inv.put_chunking (h : Inv D limits s) (hn : limits.AnyName) {e : ServiceEvent}
    (hu : e.objectId ∉ s.used) {request : StoragePutStreamRequest} {b : Bytes}
    (hb : request.body.body = .ok b) (hfit : b.length ≤ limits.maxFileSize) :
    (e.putResult D request s.tree).1 = .ok (finished D e request b) ∧
      (e.putResult D request s.tree).2.files =
        Function.update s.tree.files (objectPath (draft e request)) (some b) := by
  have hok := h.put_succeeds hn hu hb hfit
  refine ⟨hok, ?_⟩
  have h₀ := (lookup_eq_none_iff.mp (h.lookup_draftTemp hu request)).1
  rcases putResult_spec D e request s.tree h₀ with ⟨err, he, _⟩ | ⟨b', hb', _, hf, _⟩
  · rw [hok] at he
    cases he
  · obtain rfl : b = b' := by simpa [hb] using hb'
    exact hf

end Invariant

/-- The life of objects in every run of the service on a filesystem that takes any name:
each returned object that was not deleted is loaded with the bytes of its body, which it
describes; no further call but its own deletion changes that; every put whose body ended
without error returned its object; and a put of bytes equals a put of any chunking. -/
theorem service_objects_retrievable (D : Digest) (limits : Limits) (hn : limits.AnyName)
    (s : ServiceState) (h : ServiceRun D limits s) :
    (∀ x ∈ s.live, x.1.sizeBytes = x.2.length ∧ x.1.sha256Hex = sha256Hex D x.2 ∧
      (∀ now u, (FsM.run now (StorageService.getObject (localObjectStorage D u) x.1) s.tree).1 =
        .ok ⟨x.1, x.2⟩) ∧
      ∀ e : ServiceEvent, e.Admissible s → e.op ≠ .deleteObject x.1 → ∀ now u,
        (FsM.run now (StorageService.getObject (localObjectStorage D u) x.1)
          (e.exec D s.tree).2).1 = .ok ⟨x.1, x.2⟩) ∧
    (∀ x ∈ s.log, ∀ request, x.1.op.request = some request → ∀ b, request.body.body = .ok b →
      b.length ≤ limits.maxFileSize → ∃ object, x.2 = .put (.ok object)) ∧
    ∀ e : ServiceEvent, e.objectId ∉ s.used → ∀ (request : StoragePutRequest)
      (body : StorageByteStream), body.body = .ok request.bytes →
      request.bytes.length ≤ limits.maxFileSize →
      let direct : ServiceEvent := { e with op := .putObject request }
      let streamed : ServiceEvent :=
        { e with op := .putObjectStream ⟨request.ns, request.fileName, request.mimeType, body⟩ }
      (direct.exec D s.tree).1 = (streamed.exec D s.tree).1 ∧
        (direct.exec D s.tree).2.files = (streamed.exec D s.tree).2.files ∧
        ∃ object, (direct.exec D s.tree).1 = .put (.ok object) := by
  have hinv := h.inv
  refine ⟨fun x hx => ⟨(hinv.described x hx).1, (hinv.described x hx).2, hinv.getObject hx, ?_⟩, ?_, ?_⟩
  · intro e ha hne now u
    have htree : (s.step D e).tree = (e.exec D s.tree).2 := step_tree D s e
    rw [← htree]
    exact (hinv.step ha).getObject (live_step hx hne) now u
  · intro x hx request hreq b hb hfit
    exact ⟨_, h.puts_succeed hn x hx request hreq b hb hfit⟩
  · intro e hu request body hb hfit direct streamed
    let stream : StoragePutStreamRequest := ⟨request.ns, request.fileName, request.mimeType, body⟩
    have hbytes : request.toStream.body.body = .ok request.bytes :=
      StorageByteStream.body_fromBytes request.bytes
    obtain ⟨hr₁, hf₁⟩ := hinv.put_chunking hn (e := direct) hu hbytes hfit
    obtain ⟨hr₂, hf₂⟩ := hinv.put_chunking hn (e := streamed) hu
      (show stream.body.body = _ from hb) hfit
    have hx₁ := exec_put D (e := direct) rfl s.tree
    have hx₂ := exec_put D (e := streamed) rfl s.tree
    refine ⟨?_, ?_, finished D direct request.toStream request.bytes, ?_⟩
    · rw [hx₁, hx₂, Prod.map_fst, Prod.map_fst, hr₁, hr₂]
      rfl
    · rw [hx₁, hx₂, Prod.map_snd, Prod.map_snd, id_eq, id_eq, hf₁, hf₂]
      rfl
    · rw [hx₁, Prod.map_fst, hr₁]

theorem anyName_widest : Limits.widest.AnyName := fun _ h => decide_eq_true h

/-- Two objects, one with a path-like file name, of which the first is deleted again. -/
theorem service_objects_retrievable_two_puts : ∃ s x,
    ServiceRun Digest.sha256 Limits.widest s ∧ s.live = [x] ∧ x.2 = [3, 4] ∧
      x.1.sizeBytes = 2 ∧
      (FsM.run 9 (StorageService.getObject (localObjectStorage Digest.sha256 (Local.sampleUuid 0)) x.1)
        s.tree).1 = .ok ⟨x.1, [3, 4]⟩ := by
  let put : ServiceEvent :=
    ⟨.putObject ⟨.originals, some "a/../x.TXT".toList, none, [1, 2]⟩, Local.sampleUuid 1,
      Local.sampleUuid 2, 5⟩
  let stream : ServiceEvent :=
    ⟨.putObjectStream ⟨.temp, none, none, ⟨[.ok [3], .ok [], .ok [4]], none⟩⟩, Local.sampleUuid 3,
      Local.sampleUuid 4, 6⟩
  let first : StoredObject := finished Digest.sha256 put
    ⟨.originals, some "a/../x.TXT".toList, none, StorageByteStream.fromBytes [1, 2]⟩ [1, 2]
  let delete : ServiceEvent :=
    ⟨.deleteObject first, Local.sampleUuid 5, Local.sampleUuid 6, 7⟩
  have h₀ : ServiceRun Digest.sha256 Limits.widest (ServiceState.start Limits.widest) := .start
  have h₁ := h₀.step put (by decide +kernel)
  have h₂ := h₁.step stream (by decide +kernel)
  have h₃ := h₂.step delete (by decide +kernel)
  let second : StoredObject := finished Digest.sha256 stream
    ⟨.temp, none, none, ⟨[.ok [3], .ok [], .ok [4]], none⟩⟩ [3, 4]
  have hlive : (((ServiceState.start Limits.widest).step Digest.sha256 put).step Digest.sha256
      stream |>.step Digest.sha256 delete).live = [(second, [3, 4])] := by decide +kernel
  have hmem : (second, ([3, 4] : Bytes)) ∈ (((ServiceState.start Limits.widest).step Digest.sha256
      put).step Digest.sha256 stream |>.step Digest.sha256 delete).live := by
    rw [hlive]
    exact List.mem_singleton.mpr rfl
  have hobj := (service_objects_retrievable _ _ anyName_widest _ h₃).1 _ hmem
  exact ⟨_, (second, [3, 4]), h₃, hlive, rfl, hobj.1, hobj.2.2.1 9 _⟩

end Service

end GraphqlOrmStorage
