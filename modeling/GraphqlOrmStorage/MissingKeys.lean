import GraphqlOrmStorage.LocalBlob
import GraphqlOrmStorage.S3Blob
import GraphqlOrmStorage.SmbRange

/-!
# Keys that hold nothing

What each provider reports about a key at which its namespace holds nothing.
The local backend reads the kind of a filesystem error, S3 the text of an error
and SMB a status code; the six operations map them at a place of their own, and
each place is compared with the one report that callers rely on.
-/
namespace GraphqlOrmStorage.MissingKeys

open Text Program Prog

/-- The operations that name a key to read, or one to delete. -/
inductive Operation where
  | blobExists | headBlob | deleteBlob | getBlob
  | getBlobRange (start stop : ℕ)
  | copyBlob (dst : Str)

/-- What an operation returns; of a body that is read only that there is one. -/
inductive Report where
  | found (result : Except StorageError Bool)
  | described (result : Except StorageError (Option BlobMetadata))
  | done (result : Except StorageError Unit)

/-- A body is there. -/
def opened {α : Type} (result : Except StorageError α) : Report := .done (result.map fun _ => ())

/-- The report of absence. -/
def missing (key : Str) : Operation → Report
  | .blobExists => .found (.ok false)
  | .headBlob => .described (.ok none)
  | .deleteBlob => .done (.ok ())
  | .getBlob | .getBlobRange _ _ | .copyBlob _ => .done (.error (.missingBlob key))

/-- The operation on the local backend. -/
def onLocal (uuid : Uuid) (key : Str) : Operation → FsM Report
  | .blobExists => do return .found (← Local.blobExists key)
  | .headBlob => do return .described (← Local.headBlob key)
  | .deleteBlob => do return .done (← Local.deleteBlob key)
  | .getBlob => do return opened (← Local.getBlob key)
  | .getBlobRange start stop => do return opened (← Local.getBlobRange key start stop)
  | .copyBlob dst => do return .done (← Local.copyBlob uuid key dst)

/-- The operation on S3. -/
def onS3 (config : S3.S3StorageConfig) (key : Str) : Operation → S3.S3M Report
  | .blobExists => do return .found (← S3.blobExists config key)
  | .headBlob => do return .described (← S3.headBlob config key)
  | .deleteBlob => do return .done (← S3.deleteBlob config key)
  | .getBlob => do return opened (← S3.getBlob config key)
  | .getBlobRange start stop => do return opened (← S3.getBlobRange config key start stop)
  | .copyBlob dst => do return .done (← S3.copyBlob config key dst)

/-- The operation on SMB. -/
def onSmb (D : Digest) (config : Smb.SmbStorageConfig) (uuid : Uuid) (key : Str) :
    Operation → Smb.SmbM Report
  | .blobExists => do return .found (← Smb.blobExists config key)
  | .headBlob => do return .described (← Smb.headBlob config key)
  | .deleteBlob => do return .done (← Smb.deleteBlob config key)
  | .getBlob => do return opened (← Smb.getBlob config key)
  | .getBlobRange start stop => do return opened (← Smb.getBlobRange config key start stop)
  | .copyBlob dst => do return .done (← Smb.copyBlob D config uuid key dst)

/-! ### The local backend -/

section Local

open FileTree

/-- Once the directories of `made` are there too, the first name on the path that is missing is
one the filesystem takes. -/
def MissingName (t : FileTree) (made path : Path) : Prop :=
  ∃ front c back, path = front ++ c :: back ∧ (t.isDir front = true ∨ front <+: made) ∧
    t.lookup (front ++ [c]) = none ∧ ¬ front ++ [c] <+: made ∧ t.limits.acceptsName c

theorem missingName_nil {t : FileTree} {path : Path} :
    MissingName t [] path ↔ t.lookup path = none ∧ t.resolveError path = .notFound := by
  rw [resolveError_eq_notFound_iff]
  constructor
  · intro h
    obtain ⟨front, c, back, heq, hfront, hl, _, hacc⟩ := h
    refine ⟨front, c, back, heq, hfront.elim id fun hpre => ?_, hl, hacc⟩
    rw [List.prefix_nil.mp hpre]
    exact isDir_iff.mpr t.lookup_nil
  · intro h
    obtain ⟨front, c, back, heq, hfront, hl, hacc⟩ := h
    exact ⟨front, c, back, heq, Or.inl hfront, hl, by simp, hacc⟩

/-- After the preparation of a target's parent, its ancestors are directories as well. -/
theorem missingName_prepared {now : ℤ} {t : FileTree} {target path : Path}
    (h : (FsM.run now (Local.createParentDir target) t).1 = .ok ()) :
    MissingName t target.dropLast path ↔
      (FsM.run now (Local.createParentDir target) t).2.lookup path = none ∧
      (FsM.run now (Local.createParentDir target) t).2.resolveError path = .notFound := by
  obtain ⟨hfiles, hgrows⟩ := Local.createParentDir_spec now t target
  have hparent := (Local.createParentDir_ok h).2
  rw [resolveError_eq_notFound_iff]
  generalize (FsM.run now (Local.createParentDir target) t).2 = t' at hfiles hgrows hparent ⊢
  have hdir : ∀ q, t'.isDir q = true ↔ t.isDir q = true ∨ q <+: target.dropLast := by
    intro q
    constructor
    · exact hgrows.added q
    · intro hq
      rcases hq with hq | ⟨rest, hq⟩
      · exact hgrows.mono q hq
      · rw [← hq] at hparent
        exact isDir_of_isDir_append hparent
  have hnone : ∀ q, t'.lookup q = none ↔ t.lookup q = none ∧ ¬ q <+: target.dropLast := by
    intro q
    rw [lookup_eq_none_iff, lookup_eq_none_iff, hfiles, ← Bool.not_eq_true, ← Bool.not_eq_true,
      hdir, not_or, and_assoc]
  simp only [MissingName, hdir, hnone, hgrows.limits, and_assoc]

/-- Where the local backend reports absence as such. -/
def localReports (t : FileTree) (key : Str) : Operation → Prop
  | .copyBlob dst => MissingName t (dst.splitOn '/').dropLast (key.splitOn '/')
  | _ => MissingName t [] (key.splitOn '/')

/-- The error a missing path is met with, where it is the only one expected. -/
theorem metadata_of_none {t : FileTree} {path : Path} (h : t.lookup path = none) :
    t.metadata path = .error (t.resolveError path) := by
  simp only [FileTree.metadata, h]

theorem removeFile_of_none {t : FileTree} {path : Path} (h : t.lookup path = none) :
    t.removeFile path = (.error (t.resolveError path), t) := by
  simp only [FileTree.removeFile, h]

/-- `put_blob` can write at the key. -/
def LocalWritable (t : FileTree) (dst : Str) : Prop :=
  ∃ D uuid body options now outcome,
    (FsM.run now (Local.putBlob D uuid dst body options) t).1 = .ok outcome

theorem LocalWritable.prepares {t : FileTree} {dst : Str} (h : LocalWritable t dst) (now : ℤ) :
    ValidKey dst ∧
      (FsM.run now (Local.createParentDir (dst.splitOn '/')) t).1 = .ok () := by
  obtain ⟨D, uuid, body, options, now', outcome, hput⟩ := h
  by_cases hd : ValidKey dst
  · refine ⟨hd, ?_⟩
    have hp := Local.splitOn_ne_nil dst
    simp only [Local.putBlob, Local.uploadThen, Local.pathFor_of_valid hd, bind_eq_bind,
      FsM.run_bind] at hput
    cases hr : (t.createDirAll (dst.splitOn '/').dropLast).1 with
    | ok _ => simp [Local.createParentDir, hp, hr]
    | error e => simp [Local.createParentDir, hp, hr] at hput
  · simp [Local.putBlob, Local.uploadThen, Local.pathFor_of_not_valid hd] at hput

/-- What an operation asks of its arguments besides the key. -/
def Operation.LocalArguments (t : FileTree) : Operation → Prop
  | .getBlobRange start stop => start ≤ stop
  | .copyBlob dst => LocalWritable t dst
  | _ => True

theorem copyBlob_missing_iff {now : ℤ} {t : FileTree} {uuid : Uuid} {key dst : Str}
    (hk : ValidKey key) (hnone : t.lookup (key.splitOn '/') = none) (hw : LocalWritable t dst) :
    (FsM.run now (Local.copyBlob uuid key dst) t).1 = .error (.missingBlob key) ↔
      MissingName t (dst.splitOn '/').dropLast (key.splitOn '/') := by
  obtain ⟨hd, hr⟩ := hw.prepares now
  rw [missingName_prepared hr]
  have hfiles := (Local.createParentDir_spec now t (dst.splitOn '/')).1
  simp only [Local.copyBlob, Local.pathFor_of_valid hk, Local.pathFor_of_valid hd, bind_eq_bind,
    FsM.run_bind, hr, Local.tempPathFor_eq (Local.splitOn_ne_nil dst), Fs.run_copyFile]
  generalize (FsM.run now (Local.createParentDir (dst.splitOn '/')) t).2 = t' at hfiles ⊢
  have hsrc : t'.files (key.splitOn '/') = none := by
    rw [hfiles]
    exact files_of_lookup_none hnone
  cases hl : t'.lookup (key.splitOn '/') with
  | some n =>
    cases n with
    | dir => simp [FileTree.copyFile, hl, Local.discardTemp]
    | file b m =>
      rw [files_eq_some.mpr ⟨m, hl⟩] at hsrc
      cases hsrc
  | none =>
    simp only [FileTree.copyFile, hl, true_and]
    cases he : t'.resolveError (key.splitOn '/') <;> simp [Local.discardTemp]

/-- For a path that names nothing, the local backend reports absence exactly when the first
missing name is one the filesystem takes. -/
theorem onLocal_missing_iff {now : ℤ} {t : FileTree} {uuid : Uuid} {key : Str} {op : Operation}
    (hk : ValidKey key) (hnone : t.lookup (key.splitOn '/') = none) (hop : op.LocalArguments t) :
    (FsM.run now (onLocal uuid key op) t).1 = missing key op ↔ localReports t key op := by
  have hpath := Local.pathFor_of_valid hk
  have hmeta := metadata_of_none hnone
  have hremove := removeFile_of_none hnone
  cases op with
  | copyBlob dst =>
    simpa [onLocal, missing, localReports] using copyBlob_missing_iff hk hnone hop
  | getBlobRange start stop =>
    have hle : ¬ stop < start := Nat.not_lt.mpr hop
    simp only [localReports, missingName_nil, hnone, true_and]
    cases he : t.resolveError (key.splitOn '/') <;>
      simp [onLocal, missing, opened, Local.getBlobRange, hle, hpath, hmeta, he, Except.map]
  | blobExists | headBlob | deleteBlob | getBlob =>
    simp only [localReports, missingName_nil, hnone, true_and]
    cases he : t.resolveError (key.splitOn '/') <;>
      simp [onLocal, missing, opened, Local.blobExists, Local.headBlob, Local.deleteBlob,
        Local.removeIfPresent, Local.getBlob, hpath, hmeta, hremove, he, Except.map]

end Local

/-! ### S3 -/

/-- An error that says that the key is missing. -/
def MissingError {α : Type} (reply : Except Str α) : Prop :=
  ∃ error, reply = .error error ∧
    (S3.contains error "NoSuchKey" = true ∨ S3.contains error "NotFound" = true)

/-- The replies of a bucket with the objects `holds`. A copy source arrives as a header, from
which the server reads the name of the object with `sourceObject`. -/
def Honest (holds : Str → Prop) (sourceObject : Str → Str) : Sigma S3.Requests.Reply → Prop
  | ⟨.headObject _ object, reply⟩ => ¬ holds object → MissingError reply
  | ⟨.getObject _ object _, reply⟩ => ¬ holds object → MissingError reply
  | ⟨.copyObject _ _ copySource, reply⟩ =>
    (¬ holds (sourceObject copySource) → MissingError reply) ∧
      (holds (sourceObject copySource) → ∀ e, reply = .error e → S3.isMissingError e = false)
  | ⟨.deleteObject _ _, reply⟩ => reply = .ok ()
  | _ => True

/-- Where S3 reports absence as such. -/
def s3Reports (config : S3.S3StorageConfig) (holds : Str → Prop) (sourceObject : Str → Str)
    (object : Str) : Operation → Prop
  | .getBlobRange start stop => start ≠ stop
  | .copyBlob _ => ¬ holds (sourceObject (config.bucket ++ '/' :: object))
  | _ => True

theorem MissingError.cases {α : Type} {reply : Except Str α} (h : MissingError reply) :
    ∃ error, reply = .error error ∧ S3.isMissingError error = true := by
  obtain ⟨error, hreply, hcontains⟩ := h
  refine ⟨error, hreply, ?_⟩
  rcases hcontains with hc | hc <;> simp [S3.isMissingError, hc]

section S3

variable {config : S3.S3StorageConfig} {holds : Str → Prop} {sourceObject : Str → Str}
  {key object : Str} {log : List (Sigma S3.Requests.Reply)}

theorem s3_headBlob_missing (hobject : S3.providerKey config key = .ok object)
    (hnone : ¬ holds object) {result : Except StorageError (Option BlobMetadata)}
    (h : RunsTo (S3.headBlob config key) log result)
    (ht : ∀ e ∈ log, Honest holds sourceObject e) : result = .ok none := by
  simp only [S3.headBlob, hobject] at h
  obtain ⟨reply, rest, hlog, hrun⟩ := S3.runsTo_request.mp h
  subst hlog
  obtain ⟨error, hreply, hmissing⟩ := (ht _ (List.mem_cons_self ..) hnone).cases
  subst hreply
  simp only [if_pos hmissing] at hrun
  exact (runsTo_ret.mp hrun).2

theorem s3_getBlob_missing (hobject : S3.providerKey config key = .ok object)
    (hnone : ¬ holds object) {result : Except StorageError BlobBody}
    (h : RunsTo (S3.getBlob config key) log result)
    (ht : ∀ e ∈ log, Honest holds sourceObject e) : result = .error (.missingBlob key) := by
  simp only [S3.getBlob, hobject] at h
  obtain ⟨reply, rest, hlog, hrun⟩ := S3.runsTo_request.mp h
  subst hlog
  obtain ⟨error, hreply, hmissing⟩ := (ht _ (List.mem_cons_self ..) hnone).cases
  subst hreply
  simp only [if_pos hmissing] at hrun
  exact (runsTo_ret.mp hrun).2

/-- An empty range is never asked for. -/
theorem s3_getBlobRange_missing (hobject : S3.providerKey config key = .ok object)
    (hnone : ¬ holds object) {start stop : ℕ} (hle : start ≤ stop)
    {result : Except StorageError BlobBody}
    (h : RunsTo (S3.getBlobRange config key start stop) log result)
    (ht : ∀ e ∈ log, Honest holds sourceObject e) :
    result = if start = stop then .ok ⟨key, none, .fromBytes []⟩ else .error (.missingBlob key) := by
  unfold S3.getBlobRange at h
  rw [if_neg (Nat.not_lt.mpr hle)] at h
  by_cases heq : start = stop
  · rw [if_pos heq] at h ⊢
    obtain ⟨first, metadata, second, hlog, hhead, hrun⟩ := runsTo_bind.mp h
    rw [s3_headBlob_missing hobject hnone hhead fun e he => ht e (by simp [hlog, he])] at hrun
    exact (runsTo_ret.mp hrun).2
  · rw [if_neg heq] at h ⊢
    simp only [hobject] at h
    obtain ⟨reply, rest, hlog, hrun⟩ := S3.runsTo_request.mp h
    subst hlog
    obtain ⟨error, hreply, hmissing⟩ := (ht _ (List.mem_cons_self ..) hnone).cases
    subst hreply
    simp only [if_pos hmissing] at hrun
    exact (runsTo_ret.mp hrun).2

/-- A configuration that names one key names every valid one. -/
theorem providerKey_of_valid (hobject : S3.providerKey config key = .ok object) {dst : Str}
    (hdst : ValidKey dst) : ∃ dstObject, S3.providerKey config dst = .ok dstObject := by
  have hk := validateBlobKey_eq_ok.mpr hdst
  unfold S3.providerKey at hobject
  cases hp : config.keyPrefix with
  | none => exact ⟨dst, by simp [S3.providerKey, hk, hp]⟩
  | some raw =>
    by_cases hroot : trimMatches '/' raw = []
    · exact ⟨dst, by simp [S3.providerKey, hk, hp, hroot]⟩
    · cases hpre : validateBlobKey (trimMatches '/' raw) with
      | ok _ => exact ⟨_, by simp [S3.providerKey, hk, hp, hroot, hpre]; rfl⟩
      | error e =>
        simp only [hp, if_neg hroot, hpre] at hobject
        split at hobject <;> cases hobject

theorem s3_copyBlob_missing_iff (hobject : S3.providerKey config key = .ok object) {dst : Str}
    (hdst : ValidKey dst) {result : Except StorageError Unit}
    (h : RunsTo (S3.copyBlob config key dst) log result)
    (ht : ∀ e ∈ log, Honest holds sourceObject e) :
    result = .error (.missingBlob key) ↔
      ¬ holds (sourceObject (config.bucket ++ '/' :: object)) := by
  obtain ⟨dstObject, hdstObject⟩ := providerKey_of_valid hobject hdst
  simp only [S3.copyBlob, hobject, hdstObject] at h
  obtain ⟨reply, rest, hlog, hrun⟩ := S3.runsTo_request.mp h
  subst hlog
  obtain ⟨habsent, hpresent⟩ := ht _ (List.mem_cons_self ..)
  constructor
  · intro hresult hholds
    subst hresult
    cases reply with
    | ok _ => cases (runsTo_ret.mp hrun).2
    | error e =>
      simp only [hpresent hholds e rfl, Bool.false_eq_true, if_false] at hrun
      cases (runsTo_ret.mp hrun).2
  · intro hnone
    obtain ⟨error, hreply, hmissing⟩ := (habsent hnone).cases
    subst hreply
    simp only [if_pos hmissing] at hrun
    exact (runsTo_ret.mp hrun).2

/-- What an operation asks of its arguments besides the key. -/
def Operation.Arguments : Operation → Prop
  | .getBlobRange start stop => start ≤ stop
  | .copyBlob dst => validateBlobKey dst = .ok ()
  | _ => True

/-- For an object that is not there, S3 reports absence exactly outside of empty ranges and of
copies whose source is read as the name of another object. -/
theorem onS3_missing_iff (hobject : S3.providerKey config key = .ok object)
    (hnone : ¬ holds object) {op : Operation} (hop : op.Arguments) {report : Report}
    (h : RunsTo (onS3 config key op) log report)
    (ht : ∀ e ∈ log, Honest holds sourceObject e) :
    report = missing key op ↔ s3Reports config holds sourceObject object op := by
  cases op with
  | blobExists =>
    obtain ⟨result, hrun, hreport⟩ := runsTo_map.mp h
    obtain ⟨first, metadata, second, hlog, hhead, hrun⟩ := runsTo_bind.mp hrun
    rw [s3_headBlob_missing hobject hnone hhead fun e he => ht e (by simp [hlog, he])] at hrun
    rw [hreport, (runsTo_ret.mp hrun).2]
    simp [missing, s3Reports]
  | headBlob =>
    obtain ⟨result, hrun, hreport⟩ := runsTo_map.mp h
    rw [hreport, s3_headBlob_missing hobject hnone hrun ht]
    simp [missing, s3Reports]
  | deleteBlob =>
    obtain ⟨result, hrun, hreport⟩ := runsTo_map.mp h
    simp only [S3.deleteBlob, hobject] at hrun
    obtain ⟨reply, rest, hlog, hend⟩ := S3.runsTo_request.mp hrun
    subst hlog
    have hreply : reply = .ok () := ht _ (List.mem_cons_self ..)
    subst hreply
    rw [hreport, (runsTo_ret.mp hend).2]
    simp [missing, s3Reports]
  | getBlob =>
    obtain ⟨result, hrun, hreport⟩ := runsTo_map.mp h
    rw [hreport, s3_getBlob_missing hobject hnone hrun ht]
    simp [missing, s3Reports, opened, Except.map]
  | getBlobRange start stop =>
    obtain ⟨result, hrun, hreport⟩ := runsTo_map.mp h
    rw [hreport, s3_getBlobRange_missing hobject hnone hop hrun ht]
    by_cases heq : start = stop <;> simp [missing, s3Reports, opened, Except.map, heq]
  | copyBlob dst =>
    obtain ⟨result, hrun, hreport⟩ := runsTo_map.mp h
    rw [s3Reports, ← s3_copyBlob_missing_iff hobject (validateBlobKey_eq_ok.mp hop) hrun ht,
      hreport]
    simp [missing]

end S3

/-! ### SMB -/

/-- The replies of a share on which nothing is at `path`. -/
def NothingAt (path : Str) : Sigma Smb.Requests.Reply → Prop
  | ⟨.acquirePermit, reply⟩ => reply = true
  | ⟨.openExisting p _, reply⟩ => p = path → ∃ status text,
      (status = .objectNameNotFound ∨ status = .objectPathNotFound) ∧
        reply = .error (.failed ⟨.status status, text⟩)
  | _ => True

/-- Where SMB reports absence as such. -/
def smbReports : Operation → Prop
  | .blobExists | .headBlob | .deleteBlob => True
  | .getBlob | .getBlobRange _ _ | .copyBlob _ => False

section Smb

variable {config : Smb.SmbStorageConfig} {key : Str} {log : List (Sigma Smb.Requests.Reply)}

/-- The status of a missing path. -/
theorem openFile_missing (hk : ValidKey key) {access : Smb.Access}
    {result : Except StorageError Smb.Handle}
    (h : RunsTo (Smb.openFile config key access) log result)
    (ht : ∀ e ∈ log, NothingAt (Smb.keyPath config key) e) :
    ∃ text, result = .error (Smb.remoteError .remotePathNotFound "open".toList text false) := by
  simp only [Smb.openFile, Smb.remotePath_of_valid config hk] at h
  obtain ⟨reply, rest, hlog, hrun⟩ := Smb.runsTo_request.mp h
  subst hlog
  obtain ⟨status, text, hstatus, hreply⟩ := ht _ (List.mem_cons_self ..) rfl
  subst hreply
  refine ⟨text, ?_⟩
  rcases hstatus with hs | hs
  · subst hs
    exact (runsTo_ret.mp hrun).2
  · subst hs
    exact (runsTo_ret.mp hrun).2

theorem smb_getBlob_missing (hk : ValidKey key) {result : Except StorageError Smb.SmbBody}
    (h : RunsTo (Smb.getBlob config key) log result)
    (ht : ∀ e ∈ log, NothingAt (Smb.keyPath config key) e) :
    ∃ text, result = .error (Smb.remoteError .remotePathNotFound "open".toList text false) := by
  simp only [Smb.getBlob, validateBlobKey_eq_ok.mpr hk, bind_eq_bind] at h
  obtain ⟨first, permit, second, hlog, hpermit, hrun⟩ := runsTo_bind.mp h
  subst hlog
  obtain ⟨reply, rest, hfirst, hpermit⟩ := Smb.runsTo_request.mp hpermit
  have hreply : reply = true := ht ⟨.acquirePermit, reply⟩ (by simp [hfirst])
  subst hreply
  rw [(runsTo_ret.mp hpermit).2] at hrun
  obtain ⟨opening, file, last, hlog, hopen, hrun⟩ := runsTo_bind.mp hrun
  subst hlog
  obtain ⟨text, hfile⟩ := openFile_missing hk hopen fun e he => ht e (by simp [he])
  subst hfile
  obtain ⟨_, _, _, hend⟩ := Smb.runsTo_request.mp hrun
  exact ⟨text, (runsTo_ret.mp hend).2⟩

theorem smb_blobExists_missing (hk : ValidKey key) {result : Except StorageError Bool}
    (h : RunsTo (Smb.blobExists config key) log result)
    (ht : ∀ e ∈ log, NothingAt (Smb.keyPath config key) e) : result = .ok false := by
  simp only [Smb.blobExists, validateBlobKey_eq_ok.mpr hk] at h
  obtain ⟨first, file, second, hlog, hopen, hrun⟩ := runsTo_bind.mp h
  subst hlog
  obtain ⟨text, hfile⟩ := openFile_missing hk hopen fun e he => ht e (by simp [he])
  subst hfile
  exact (runsTo_ret.mp hrun).2

theorem smb_headBlob_missing (hk : ValidKey key)
    {result : Except StorageError (Option BlobMetadata)}
    (h : RunsTo (Smb.headBlob config key) log result)
    (ht : ∀ e ∈ log, NothingAt (Smb.keyPath config key) e) : result = .ok none := by
  simp only [Smb.headBlob, validateBlobKey_eq_ok.mpr hk] at h
  obtain ⟨first, file, second, hlog, hopen, hrun⟩ := runsTo_bind.mp h
  subst hlog
  obtain ⟨text, hfile⟩ := openFile_missing hk hopen fun e he => ht e (by simp [he])
  subst hfile
  exact (runsTo_ret.mp hrun).2

theorem smb_deleteBlob_missing (hk : ValidKey key) {result : Except StorageError Unit}
    (h : RunsTo (Smb.deleteBlob config key) log result)
    (ht : ∀ e ∈ log, NothingAt (Smb.keyPath config key) e) : result = .ok () := by
  simp only [Smb.deleteBlob, validateBlobKey_eq_ok.mpr hk] at h
  obtain ⟨first, file, second, hlog, hopen, hrun⟩ := runsTo_bind.mp h
  subst hlog
  obtain ⟨text, hfile⟩ := openFile_missing hk hopen fun e he => ht e (by simp [he])
  subst hfile
  exact (runsTo_ret.mp hrun).2

/-- The default range read hands the error of `get_blob` on. -/
theorem smb_getBlobRange_missing (hk : ValidKey key) {start stop : ℕ} (hle : start ≤ stop)
    {result : Except StorageError Smb.SmbRangeBody}
    (h : RunsTo (Smb.getBlobRange config key start stop) log result)
    (ht : ∀ e ∈ log, NothingAt (Smb.keyPath config key) e) :
    ∃ text, result = .error (Smb.remoteError .remotePathNotFound "open".toList text false) := by
  simp only [Smb.getBlobRange, if_neg (Nat.not_lt.mpr hle)] at h
  obtain ⟨first, blob, second, hlog, hget, hrun⟩ := runsTo_bind.mp h
  subst hlog
  obtain ⟨text, hblob⟩ := smb_getBlob_missing hk hget fun e he => ht e (by simp [he])
  subst hblob
  exact ⟨text, (runsTo_ret.mp hrun).2⟩

/-- So does the default copy. -/
theorem smb_copyBlob_missing {D : Digest} {uuid : Uuid} (hk : ValidKey key) {dst : Str}
    {result : Except StorageError Unit} (h : RunsTo (Smb.copyBlob D config uuid key dst) log result)
    (ht : ∀ e ∈ log, NothingAt (Smb.keyPath config key) e) :
    ∃ text, result = .error (Smb.remoteError .remotePathNotFound "open".toList text false) := by
  obtain ⟨first, blob, second, hlog, hget, hrun⟩ := runsTo_bind.mp h
  subst hlog
  obtain ⟨text, hblob⟩ := smb_getBlob_missing hk hget fun e he => ht e (by simp [he])
  subst hblob
  exact ⟨text, (runsTo_ret.mp hrun).2⟩

/-- For a path that is not there, SMB reports absence exactly where no read is asked for. -/
theorem onSmb_missing_iff {D : Digest} {uuid : Uuid} (hk : ValidKey key) {op : Operation}
    (hop : op.Arguments) {report : Report} (h : RunsTo (onSmb D config uuid key op) log report)
    (ht : ∀ e ∈ log, NothingAt (Smb.keyPath config key) e) :
    report = missing key op ↔ smbReports op := by
  cases op with
  | blobExists =>
    obtain ⟨result, hrun, hreport⟩ := runsTo_map.mp h
    simp [hreport, smb_blobExists_missing hk hrun ht, missing, smbReports]
  | headBlob =>
    obtain ⟨result, hrun, hreport⟩ := runsTo_map.mp h
    simp [hreport, smb_headBlob_missing hk hrun ht, missing, smbReports]
  | deleteBlob =>
    obtain ⟨result, hrun, hreport⟩ := runsTo_map.mp h
    simp [hreport, smb_deleteBlob_missing hk hrun ht, missing, smbReports]
  | getBlob =>
    obtain ⟨result, hrun, hreport⟩ := runsTo_map.mp h
    obtain ⟨text, hresult⟩ := smb_getBlob_missing hk hrun ht
    simp [hreport, hresult, missing, smbReports, opened, Except.map, Smb.remoteError]
  | getBlobRange start stop =>
    obtain ⟨result, hrun, hreport⟩ := runsTo_map.mp h
    obtain ⟨text, hresult⟩ := smb_getBlobRange_missing hk hop hrun ht
    simp [hreport, hresult, missing, smbReports, opened, Except.map, Smb.remoteError]
  | copyBlob dst =>
    obtain ⟨result, hrun, hreport⟩ := runsTo_map.mp h
    obtain ⟨text, hresult⟩ := smb_copyBlob_missing hk hrun ht
    simp [hreport, hresult, missing, smbReports, Smb.remoteError]

end Smb

/-! ### Agreement -/

/-- The replies to a copy and to an opening of a missing key `k`. -/
def sampleS3Log : List (Sigma S3.Requests.Reply) :=
  [⟨.copyObject "b".toList "d/c".toList "b/k".toList, .error "NoSuchKey".toList⟩]

def sampleSmbLog : List (Sigma Smb.Requests.Reply) :=
  [⟨.acquirePermit, true⟩,
    ⟨.openExisting "k".toList .read, .error (.failed ⟨.status .objectNameNotFound, []⟩)⟩,
    ⟨.releasePermit, ()⟩]

theorem nothingAt_sampleSmbLog : ∀ e ∈ sampleSmbLog, NothingAt "k".toList e := by
  intro e he
  simp only [sampleSmbLog, List.mem_cons, List.not_mem_nil, or_false] at he
  rcases he with rfl | rfl | rfl
  · rfl
  · exact fun _ => ⟨_, _, Or.inl rfl, rfl⟩
  · trivial

theorem runsTo_sampleSmbLog : RunsTo (Smb.getBlob ⟨none, 1⟩ "k".toList) sampleSmbLog
    (.error (Smb.remoteError .remotePathNotFound "open".toList [] false)) :=
  .bind (.call _ _ _ (.ret _)) (.bind (.call _ _ _ (.ret _)) (.call _ _ _ (.ret _)))

end GraphqlOrmStorage.MissingKeys
