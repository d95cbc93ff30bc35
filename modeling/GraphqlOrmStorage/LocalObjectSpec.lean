import GraphqlOrmStorage.LocalObject

/-!
# What the streaming object operations do to the files

The paths of an object's data and of its sidecar are injective in the bucket and
the key, and differ from every temporary path. Each operation touches at most the
four paths of its own object: its data, its sidecar and its two temporary files.
-/
namespace GraphqlOrmStorage.Local

open Text Program FileTree

/-! ### Paths -/

/-- What `validate_object_bucket` amounts to. -/
def ValidBucket (bucket : Str) : Prop := ValidKey bucket ∧ '/' ∉ bucket

instance (bucket : Str) : Decidable (ValidBucket bucket) := inferInstanceAs (Decidable (_ ∧ _))

/-- A bucket and a key that the validators accept. -/
def ValidName (bucket key : Str) : Prop := ValidBucket bucket ∧ ValidKey key

instance (bucket key : Str) : Decidable (ValidName bucket key) :=
  inferInstanceAs (Decidable (_ ∧ _))

/-- Where the bytes of an object are. -/
def dataPath (bucket key : Str) : Path := bucket :: key.splitOn '/'

/-- Where the metadata of an object is. -/
def sidecarPath (bucket key : Str) : Path :=
  internalStorageDir :: objectMetadataDir :: bucket ::
    ((key.splitOn '/').dropLast ++ [(key.splitOn '/').getLast?.getD [] ++ metadataSuffix])

theorem validateObjectBucket_eq_ok {bucket : Str} :
    validateObjectBucket bucket = .ok () ↔ ValidBucket bucket := by
  unfold validateObjectBucket ValidBucket
  by_cases hv : ValidKey bucket
  · rw [validateBlobKey_eq_ok.mpr hv]
    by_cases hs : '/' ∈ bucket <;> simp [hs, hv]
  · rw [validateBlobKey_error hv]
    simp [hv]

theorem ValidBucket.relativePath_eq {bucket : Str} (h : ValidBucket bucket) :
    relativePath bucket = [bucket] := by
  rw [h.1.relativePath_eq, List.splitOn_eq_singleton h.2]

section Paths

variable {bucket key bucket' key' : Str}

theorem objectPathFor_of_valid (h : ValidName bucket key) :
    objectPathFor bucket key = .ok (dataPath bucket key) := by
  simp only [objectPathFor, validateObjectBucket_eq_ok.mpr h.1, validateBlobKey_eq_ok.mpr h.2,
    h.1.relativePath_eq, h.2.relativePath_eq]
  rfl

theorem objectPathFor_of_not_valid (h : ¬ ValidName bucket key) :
    ∃ e, objectPathFor bucket key = .error e := by
  unfold objectPathFor
  cases hb : validateObjectBucket bucket with
  | error e => exact ⟨e, rfl⟩
  | ok _ =>
    have hk : ¬ ValidKey key := fun hk => h ⟨validateObjectBucket_eq_ok.mp hb, hk⟩
    exact ⟨_, by rw [validateBlobKey_error hk]⟩

theorem objectMetadataPathFor_of_valid (h : ValidName bucket key) :
    objectMetadataPathFor bucket key = .ok (sidecarPath bucket key) := by
  have hne := splitOn_ne_nil key
  have hlast : (internalStorageDir :: objectMetadataDir :: ([bucket] ++ key.splitOn '/')).getLast? =
      some ((key.splitOn '/').getLast hne) := by
    rw [show internalStorageDir :: objectMetadataDir :: ([bucket] ++ key.splitOn '/') =
      [internalStorageDir, objectMetadataDir, bucket] ++ key.splitOn '/' from rfl,
      List.getLast?_append_of_ne_nil _ hne, List.getLast?_eq_some_getLast hne]
  have hdrop : (internalStorageDir :: objectMetadataDir :: ([bucket] ++ key.splitOn '/')).dropLast =
      internalStorageDir :: objectMetadataDir :: bucket :: (key.splitOn '/').dropLast := by
    rw [show internalStorageDir :: objectMetadataDir :: ([bucket] ++ key.splitOn '/') =
      [internalStorageDir, objectMetadataDir, bucket] ++ key.splitOn '/' from rfl,
      List.dropLast_append_of_ne_nil hne]
    rfl
  simp only [objectMetadataPathFor, validateObjectBucket_eq_ok.mpr h.1,
    validateBlobKey_eq_ok.mpr h.2, h.1.relativePath_eq, h.2.relativePath_eq, hlast, hdrop,
    sidecarPath, List.getLast?_eq_some_getLast hne, Option.getD_some]
  rfl

theorem objectMetadataPathFor_of_not_valid (h : ¬ ValidName bucket key) :
    ∃ e, objectMetadataPathFor bucket key = .error e := by
  unfold objectMetadataPathFor
  cases hb : validateObjectBucket bucket with
  | error e => exact ⟨e, rfl⟩
  | ok _ =>
    have hk : ¬ ValidKey key := fun hk => h ⟨validateObjectBucket_eq_ok.mp hb, hk⟩
    exact ⟨_, by rw [validateBlobKey_error hk]⟩

theorem dataPath_inj (h : dataPath bucket key = dataPath bucket' key') :
    bucket = bucket' ∧ key = key' := by
  obtain ⟨hb, hk⟩ := List.cons.inj h
  exact ⟨hb, splitOn_injective '/' hk⟩

theorem sidecarPath_inj (h : sidecarPath bucket key = sidecarPath bucket' key') :
    bucket = bucket' ∧ key = key' := by
  simp only [sidecarPath, List.cons.injEq, true_and] at h
  obtain ⟨hb, hk⟩ := h
  have hne := splitOn_ne_nil key
  have hne' := splitOn_ne_nil key'
  rw [List.getLast?_eq_some_getLast hne, List.getLast?_eq_some_getLast hne'] at hk
  obtain ⟨hinit, hlast⟩ := List.append_inj' hk rfl
  have hlast : (key.splitOn '/').getLast hne = (key'.splitOn '/').getLast hne' :=
    List.append_cancel_right (List.cons.inj hlast).1
  refine ⟨hb, splitOn_injective '/' ?_⟩
  rw [← List.dropLast_append_getLast hne, ← List.dropLast_append_getLast hne', hinit, hlast]

theorem length_dataPath : (dataPath bucket key).length = (key.splitOn '/').length + 1 := rfl

theorem length_sidecarPath : (sidecarPath bucket key).length = (key.splitOn '/').length + 3 := by
  have := List.length_pos_iff.mpr (splitOn_ne_nil key)
  simp only [sidecarPath, List.length_cons, List.length_append, List.length_dropLast,
    List.length_nil]
  omega

theorem length_tempPath {p : Path} (hp : p ≠ []) (u : Uuid) : (tempPath p u).length = p.length := by
  have := List.length_pos_iff.mpr hp
  simp only [tempPath, List.length_append, List.length_dropLast, List.length_singleton]
  omega

theorem sidecarPath_ne_dataPath : sidecarPath bucket key ≠ dataPath bucket key := by
  intro he
  have := congrArg List.length he
  rw [length_sidecarPath, length_dataPath] at this
  omega

/-- The suffixes tell sidecars and temporary files apart. -/
theorem sidecarPath_ne_tempPath (p : Path) (u : Uuid) : sidecarPath bucket key ≠ tempPath p u := by
  intro h
  have hlast := congrArg (fun l => (l.getLast?.bind List.getLast?)) h
  have hsuffix : metadataSuffix ≠ [] := by decide
  have hup : uploadingSuffix ≠ [] := by decide
  rw [sidecarPath, tempPath] at hlast
  rw [show ∀ l : Path, internalStorageDir :: objectMetadataDir :: bucket :: l =
    [internalStorageDir, objectMetadataDir, bucket] ++ l from fun _ => rfl, ← List.append_assoc,
    List.getLast?_concat, List.getLast?_concat] at hlast
  simp only [Option.bind_some, tempName] at hlast
  rw [List.getLast?_append_of_ne_nil _ hsuffix, ← List.cons_append, ← List.append_assoc,
    List.getLast?_append_of_ne_nil _ hup] at hlast
  exact absurd hlast (by decide)

/-- The identifier can be read back from a temporary path. -/
theorem tempPath_inj {p p' : Path} {u u' : Uuid} (h : tempPath p u = tempPath p' u') : u = u' := by
  have hname := (List.append_inj' h rfl).2
  have hname : tempName (p.getLast?.getD []) u = tempName (p'.getLast?.getD []) u' :=
    (List.cons.inj hname).1
  simp only [tempName] at hname
  have htail := (List.append_inj' hname (by simp)).2
  have hu := (List.append_inj' (List.cons.inj htail).2 rfl).1
  exact Uuid.toStr_injective hu

/-- The identifier occurs in no part of the bucket and the key. -/
def Unmentioned (u : Uuid) (bucket key : Str) : Prop :=
  ∀ c ∈ dataPath bucket key, ¬ u.toStr <:+: c

instance (u : Uuid) (bucket key : Str) : Decidable (Unmentioned u bucket key) :=
  inferInstanceAs (Decidable (∀ c ∈ dataPath bucket key, ¬ u.toStr <:+: c))

theorem Unmentioned.dataPath_ne {u : Uuid} (h : Unmentioned u bucket key) (p : Path) :
    dataPath bucket key ≠ tempPath p u := by
  intro he
  have hmem : tempName (p.getLast?.getD []) u ∈ dataPath bucket key := by
    rw [he]
    exact List.mem_append_right _ (List.mem_singleton.mpr rfl)
  exact h _ hmem (infix_tempName _ u)

/-- The data of this object lies where the sidecar of another object belongs. -/
def Reserved (bucket key : Str) : Prop :=
  ∃ b k, ValidName b k ∧ dataPath bucket key = sidecarPath b k

end Paths

/-! ### Operations -/

/-- The files are the same off the given paths. -/
def AgreeOff (paths : List Path) (t t' : FileTree) : Prop :=
  ∀ q, q ∉ paths → t'.files q = t.files q

theorem AgreeOff.refl (paths : List Path) (t : FileTree) : AgreeOff paths t t := fun _ _ => rfl

theorem AgreeOff.trans {paths : List Path} {t₁ t₂ t₃ : FileTree} (h₁ : AgreeOff paths t₁ t₂)
    (h₂ : AgreeOff paths t₂ t₃) : AgreeOff paths t₁ t₃ :=
  fun q hq => (h₂ q hq).trans (h₁ q hq)

theorem AgreeOff.mono {paths paths' : List Path} {t t' : FileTree} (h : AgreeOff paths t t')
    (hs : paths ⊆ paths') : AgreeOff paths' t t' :=
  fun q hq => h q fun hm => hq (hs hm)

theorem agreeOff_of_update {t t' : FileTree} {p : Path} {c : Option Bytes}
    (h : t'.files = Function.update t.files p c) : AgreeOff [p] t t' := by
  intro q hq
  rw [h, Function.update_of_ne (by simpa using hq)]

/-- A write goes to a new file, or it fails and changes nothing. -/
theorem writeFile_cases (t : FileTree) (p : Path) (b : Bytes) (now : ℤ) :
    (t.CanPlace p ∧ t.writeFile p b now = (t.createFile p now).2.append p b now) ∨
      t.writeFile p b now = (.error (t.placeError p), t) := by
  by_cases hc : t.CanPlace p
  · obtain ⟨hr, _⟩ := createFile_of_canPlace hc now
    refine Or.inl ⟨hc, ?_⟩
    rw [FileTree.writeFile, show t.createFile p now = (.ok (), (t.createFile p now).2) from
      Prod.ext hr rfl]
  · right
    rw [FileTree.writeFile, createFile_of_not_canPlace hc]

/-- A write touches only its path, and stores everything when it succeeds. -/
theorem writeFile_spec (t : FileTree) (p : Path) (b : Bytes) (now : ℤ) :
    AgreeOff [p] t (t.writeFile p b now).2 ∧
      ((t.writeFile p b now).1 = .ok () → (t.writeFile p b now).2.files p = some b) := by
  rcases writeFile_cases t p b now with ⟨hc, hw⟩ | hw
  · obtain ⟨_, hf, _⟩ := createFile_of_canPlace hc now
    have hempty : (t.createFile p now).2.files p = some [] := by rw [hf, Function.update_self]
    obtain ⟨ha, _⟩ := append_files hempty b now
    rw [hw]
    refine ⟨fun q hq => ?_, fun hok => ?_⟩
    · have hne : q ≠ p := by simpa using hq
      rw [ha, Function.update_of_ne hne, hf, Function.update_of_ne hne]
    · rw [append_result hempty] at hok
      split_ifs at hok with hfit
      rw [ha, Function.update_self, List.nil_append, List.take_of_length_le (by simpa using hfit)]
  · rw [hw]
    exact ⟨AgreeOff.refl _ _, by simp⟩

theorem writeFile_sameDirs (t : FileTree) (p : Path) (b : Bytes) (now : ℤ) :
    SameDirs t (t.writeFile p b now).2 := by
  rcases writeFile_cases t p b now with ⟨hc, hw⟩ | hw
  · obtain ⟨_, hf, hd⟩ := createFile_of_canPlace hc now
    have hempty : (t.createFile p now).2.files p = some [] := by rw [hf, Function.update_self]
    rw [hw]
    exact hd.trans (append_files hempty b now).2
  · rw [hw]
    exact SameDirs.refl t

/-- A successful rename moves the content and touches no other path. -/
theorem rename_spec {t : FileTree} {src dst : Path} (hne : src ≠ dst)
    (h : (t.rename src dst).1 = .ok ()) :
    AgreeOff [src, dst] t (t.rename src dst).2 ∧
      (t.rename src dst).2.files dst = t.files src ∧ (t.rename src dst).2.files src = none := by
  obtain ⟨b, hb, hc⟩ := rename_ok h
  obtain ⟨_, hf, _⟩ := rename_of_canPlace hb hc hne
  refine ⟨fun q hq => ?_, ?_, ?_⟩
  · simp only [List.mem_cons, List.not_mem_nil, or_false, not_or] at hq
    rw [hf, Function.update_of_ne hq.1, Function.update_of_ne hq.2]
  · rw [hf, Function.update_of_ne (Ne.symm hne), Function.update_self, hb]
  · rw [hf, Function.update_self]

/-- The paths of a writer are those of its object. -/
structure Opened {D : Digest} (w : LocalMultipartWriter D) (dataId metaId : Uuid) : Prop where
  valid : ValidName w.bucket w.key
  objectPath_eq : w.objectPath = dataPath w.bucket w.key
  metadataPath_eq : w.metadataPath = sidecarPath w.bucket w.key
  tempPath_eq : w.tempPath = tempPath (dataPath w.bucket w.key) dataId
  metadataTempPath_eq : w.metadataTempPath = tempPath (sidecarPath w.bucket w.key) metaId

/-- An open writer: its paths are those of its object, its temporary file holds what was
written so far, and its hasher and counter agree with that. -/
structure Writing {D : Digest} (t : FileTree) (w : LocalMultipartWriter D) (dataId metaId : Uuid)
    (written : Bytes) : Prop where
  valid : ValidName w.bucket w.key
  objectPath_eq : w.objectPath = dataPath w.bucket w.key
  metadataPath_eq : w.metadataPath = sidecarPath w.bucket w.key
  tempPath_eq : w.tempPath = tempPath (dataPath w.bucket w.key) dataId
  metadataTempPath_eq : w.metadataTempPath = tempPath (sidecarPath w.bucket w.key) metaId
  stored : t.files w.tempPath = some written
  hashed : ∃ chunks : List Bytes, w.hasher = chunks.foldl D.update D.new ∧ chunks.flatten = written
  sized : w.sizeBytes = written.length
  bounded : written.length ≤ isizeMax

section Operations

variable {D : Digest} {t : FileTree} {w : LocalMultipartWriter D} {dataId metaId : Uuid}
  {written : Bytes}

/-- The four paths of a writer are distinct; most of them differ in depth. -/
theorem Opened.paths_ne (h : Opened w dataId metaId) :
    w.tempPath ≠ w.objectPath ∧ w.tempPath ≠ w.metadataPath ∧ w.tempPath ≠ w.metadataTempPath ∧
      w.metadataTempPath ≠ w.objectPath ∧ w.metadataTempPath ≠ w.metadataPath ∧
      w.objectPath ≠ w.metadataPath := by
  have hd : dataPath w.bucket w.key ≠ [] := by simp [dataPath]
  have hs : sidecarPath w.bucket w.key ≠ [] := by simp [sidecarPath]
  have h1 := length_tempPath hd dataId
  have h2 := length_tempPath hs metaId
  have h3 : (dataPath w.bucket w.key).length = _ := length_dataPath
  have h4 : (sidecarPath w.bucket w.key).length = _ := length_sidecarPath
  rw [h.objectPath_eq, h.metadataPath_eq, h.tempPath_eq, h.metadataTempPath_eq]
  refine ⟨tempPath_ne hd dataId, ?_, ?_, ?_, tempPath_ne hs metaId, ?_⟩ <;>
  · intro he
    have := congrArg List.length he
    omega

theorem Writing.opened (h : Writing t w dataId metaId written) : Opened w dataId metaId :=
  ⟨h.valid, h.objectPath_eq, h.metadataPath_eq, h.tempPath_eq, h.metadataTempPath_eq⟩

theorem Writing.paths_ne (h : Writing t w dataId metaId written) :
    w.tempPath ≠ w.objectPath ∧ w.tempPath ≠ w.metadataPath ∧ w.tempPath ≠ w.metadataTempPath ∧
      w.metadataTempPath ≠ w.objectPath ∧ w.metadataTempPath ≠ w.metadataPath ∧
      w.objectPath ≠ w.metadataPath :=
  h.opened.paths_ne

theorem Writing.info_eq (h : Writing t w dataId metaId written) (now : ℤ) :
    (w.info now).sizeBytes = written.length ∧ (w.info now).sha256Hex = sha256Hex D written := by
  obtain ⟨chunks, hc, rfl⟩ := h.hashed
  refine ⟨h.sized, ?_⟩
  simp only [LocalMultipartWriter.info, hc, D.finalize_foldl, sha256Hex]

/-- Opening a writer fails without touching a file, or creates the empty temporary file. -/
theorem createMultipartObject_spec (D : Digest) (dataId metaId : Uuid) (bucket key : Str)
    (contentType : Option Str) (metadata : ObjectMetadata) (now : ℤ) (t : FileTree) :
    let r := FsM.run now (createMultipartObject D dataId metaId bucket key contentType metadata) t
    r.2.limits = t.limits ∧
    ((∃ e, r.1 = .error e ∧ r.2.files = t.files) ∨
    ∃ w, r.1 = .ok w ∧ w.bucket = bucket ∧ w.key = key ∧ Writing r.2 w dataId metaId [] ∧
      r.2.files = Function.update t.files w.tempPath (some [])) := by
  intro r
  by_cases hv : ValidName bucket key
  swap
  · obtain ⟨e, he⟩ := objectPathFor_of_not_valid hv
    have hr : r = (.error e, t) := by simp [r, createMultipartObject, he]
    rw [hr]
    exact ⟨rfl, Or.inl ⟨e, rfl, rfl⟩⟩
  have hd : dataPath bucket key ≠ [] := by simp [dataPath]
  have hs : sidecarPath bucket key ≠ [] := by simp [sidecarPath]
  simp only [r, createMultipartObject, objectPathFor_of_valid hv, objectMetadataPathFor_of_valid hv,
    Prog.bind_eq_bind, FsM.run_bind]
  obtain ⟨hf₁, hg₁⟩ := createParentDir_spec now t (dataPath bucket key)
  generalize FsM.run now (createParentDir (dataPath bucket key)) t = r₁ at hf₁ hg₁ ⊢
  obtain ⟨r₁ | r₁, t₁⟩ := r₁
  · exact ⟨hg₁.limits, Or.inl ⟨r₁, rfl, hf₁⟩⟩
  simp only [FsM.run_bind] at hf₁ hg₁ ⊢
  obtain ⟨hf₂, hg₂⟩ := createParentDir_spec now t₁ (sidecarPath bucket key)
  generalize FsM.run now (createParentDir (sidecarPath bucket key)) t₁ = r₂ at hf₂ hg₂ ⊢
  obtain ⟨r₂ | r₂, t₂⟩ := r₂
  · exact ⟨hg₂.limits.trans hg₁.limits, Or.inl ⟨r₂, rfl, hf₂.trans hf₁⟩⟩
  simp only [tempPathFor_eq hd, tempPathFor_eq hs, FsM.run_bind, Fs.run_createFile] at hf₂ hg₂ ⊢
  by_cases hc : t₂.CanPlace (tempPath (dataPath bucket key) dataId)
  · obtain ⟨hr, hf, hsame⟩ := createFile_of_canPlace hc now
    simp only [hr]
    refine ⟨hsame.2.trans (hg₂.limits.trans hg₁.limits), Or.inr ⟨_, rfl, rfl, rfl, ?_, ?_⟩⟩
    · exact ⟨hv, rfl, rfl, rfl, rfl, by simp [hf], ⟨[], rfl, rfl⟩, rfl, Nat.zero_le _⟩
    · simpa [hf₂, hf₁] using hf
  · rw [createFile_of_not_canPlace hc]
    exact ⟨hg₂.limits.trans hg₁.limits, Or.inl ⟨_, rfl, hf₂.trans hf₁⟩⟩

/-- A chunk that fits is appended, counted and hashed. -/
theorem writeChunk_spec (h : Writing t w dataId metaId written) (bytes : Bytes) (now : ℤ)
    (hfit : written.length + bytes.length ≤ t.limits.maxFileSize) :
    let r := FsM.run now (w.writeChunk bytes) t
    r.1 = (.ok (), w.feed bytes) ∧ r.2.limits = t.limits ∧
      Writing r.2 (w.feed bytes) dataId metaId (written ++ bytes) ∧
      r.2.files = Function.update t.files w.tempPath (some (written ++ bytes)) := by
  intro r
  obtain ⟨hr, hf, hd⟩ := append_fits h.stored hfit now
  have hr₁ : r = ((.ok (), w.feed bytes), (t.append w.tempPath bytes now).2) := by
    simp only [r, LocalMultipartWriter.writeChunk, Prog.bind_eq_bind, FsM.run_bind,
      Fs.run_append, hr]
    rfl
  have hbound := t.limits.offset_bound
  obtain ⟨chunks, hc, hflat⟩ := h.hashed
  rw [hr₁]
  refine ⟨rfl, hd.2, ?_, hf⟩
  exact {
    valid := h.valid
    objectPath_eq := h.objectPath_eq
    metadataPath_eq := h.metadataPath_eq
    tempPath_eq := h.tempPath_eq
    metadataTempPath_eq := h.metadataTempPath_eq
    stored := by simp [hf, LocalMultipartWriter.feed]
    hashed := ⟨chunks ++ [bytes], by simp [LocalMultipartWriter.feed, hc], by simp [hflat]⟩
    sized := by
      show saturatingAdd w.sizeBytes bytes.length = _
      rw [h.sized, saturatingAdd_eq hfit hbound, List.length_append]
    bounded := by
      simp only [List.length_append, isizeMax]
      omega }

/-- The ways in which finishing an object can end. It fails before the data is published, and
at most its temporary files have changed; it fails after that, which happens only where no
sidecar was; or it succeeds, and data and sidecar are those of this object. -/
def Finished (codec : Codec) (w : LocalMultipartWriter D) (written : Bytes) (info : ObjectInfo)
    (t : FileTree) (r : Except StorageError ObjectInfo × FileTree) : Prop :=
  (∃ e, r.1 = .error e ∧ AgreeOff [w.tempPath, w.metadataTempPath] t r.2) ∨
  (∃ e, r.1 = .error e ∧ t.files w.metadataPath = none ∧
    AgreeOff [w.tempPath, w.metadataTempPath, w.objectPath] t r.2) ∨
  ∃ bytes, r.1 = .ok info ∧ codec.toVec info = .ok bytes ∧ r.2.files w.objectPath = some written ∧
    r.2.files w.metadataPath = some bytes ∧
    AgreeOff [w.tempPath, w.metadataTempPath, w.objectPath, w.metadataPath] t r.2

theorem discardTemp_agreeOff {α : Type} (now : ℤ) (temp : Path) (result : α) (t : FileTree) :
    (FsM.run now (discardTemp temp result) t).1 = result ∧
      AgreeOff [temp] t (FsM.run now (discardTemp temp result) t).2 :=
  ⟨rfl, agreeOff_of_update (removeFile_files t temp).1⟩

/-- The sidecar is written under its temporary name, or nothing else was touched. -/
theorem writeObjectMetadata_spec (codec : Codec) (path : Path) (object : ObjectInfo) (now : ℤ)
    (t : FileTree) :
    let r := FsM.run now (writeObjectMetadata codec path object) t
    AgreeOff [path] t r.2 ∧ (r.1 = .ok () →
      ∃ bytes, codec.toVec object = .ok bytes ∧ r.2.files path = some bytes) := by
  intro r
  simp only [r, writeObjectMetadata]
  cases hv : codec.toVec object with
  | error source => exact ⟨AgreeOff.refl _ _, by simp⟩
  | ok bytes =>
    simp only [Prog.bind_eq_bind, FsM.run_bind, Fs.run_writeFile]
    obtain ⟨ha, hok⟩ := writeFile_spec t path bytes now
    cases hr : (t.writeFile path bytes now).1 with
    | error source => exact ⟨ha, by simp⟩
    | ok _ => exact ⟨ha, fun _ => ⟨bytes, rfl, hok hr⟩⟩

/-- How finishing can end: nothing but temporary files changed, the data is in place where no
sidecar was, or both are in place. -/
theorem complete_ends (h : Writing t w dataId metaId written) (codec : Codec) (now : ℤ) :
    let r := FsM.run now (w.complete codec now) t
    (∃ e, r.1 = .error e ∧ AgreeOff [w.tempPath, w.metadataTempPath] t r.2) ∨
    (∃ e, r.1 = .error e ∧ t.files w.metadataPath = none ∧
      r.2.files w.objectPath = some written ∧
      AgreeOff [w.tempPath, w.metadataTempPath, w.objectPath] t r.2) ∨
    (∃ bytes, r.1 = .ok (w.info now) ∧ codec.toVec (w.info now) = .ok bytes ∧
      r.2.files w.objectPath = some written ∧ r.2.files w.metadataPath = some bytes ∧
      AgreeOff [w.tempPath, w.metadataTempPath, w.objectPath, w.metadataPath] t r.2) := by
  intro r
  obtain ⟨ne_to, ne_tm, ne_tt, ne_mo, ne_mm, ne_om⟩ := h.paths_ne
  simp only [r, LocalMultipartWriter.complete, Prog.bind_eq_bind, FsM.run_bind, Fs.run_flush]
  obtain ⟨ha₁, hok₁⟩ := writeObjectMetadata_spec codec w.metadataTempPath (w.info now) now t
  generalize FsM.run now (writeObjectMetadata codec w.metadataTempPath (w.info now)) t = r₁
    at ha₁ hok₁ ⊢
  obtain ⟨r₁ | r₁, t₁⟩ := r₁
  · exact Or.inl ⟨r₁, rfl, ha₁.mono (by simp)⟩
  obtain ⟨bytes, hv, hmeta⟩ := hok₁ rfl
  simp only [FsM.run_bind, Fs.run_rename] at ha₁ hmeta ⊢
  have htemp₁ : t₁.files w.tempPath = some written := by
    rw [ha₁ _ (by simpa using ne_tt), h.stored]
  cases hr₂ : (t₁.rename w.tempPath w.objectPath).1 with
  | error source =>
    rw [rename_error hr₂]
    simp only [FsM.run_bind, Fs.run_removeFile]
    obtain ⟨hres, ha₃⟩ := discardTemp_agreeOff now w.metadataTempPath
      (.error (.io w.objectPath source) : Except StorageError ObjectInfo)
      (t₁.removeFile w.tempPath).2
    have ha₂ : AgreeOff [w.tempPath] t₁ (t₁.removeFile w.tempPath).2 :=
      agreeOff_of_update (removeFile_files t₁ w.tempPath).1
    refine Or.inl ⟨_, hres, ?_⟩
    exact ((ha₁.mono (by simp)).trans (ha₂.mono (by simp))).trans (ha₃.mono (by simp))
  | ok _ =>
    obtain ⟨ha₂, hobj, _⟩ := rename_spec ne_to hr₂
    rw [htemp₁] at hobj
    simp only [FsM.run_bind, Fs.run_rename]
    generalize (t₁.rename w.tempPath w.objectPath).2 = t₂ at ha₂ hobj ⊢
    have hmeta₂ : t₂.files w.metadataTempPath = some bytes := by
      rw [ha₂ _ (by simp [ne_mo, Ne.symm ne_tt]), hmeta]
    have ha : AgreeOff [w.tempPath, w.metadataTempPath, w.objectPath] t t₂ :=
      (ha₁.mono (by simp)).trans (ha₂.mono (by simp))
    cases hr₃ : (t₂.rename w.metadataTempPath w.metadataPath).1 with
    | error source =>
      rw [rename_error hr₃]
      obtain ⟨hres, ha₃⟩ := discardTemp_agreeOff now w.metadataTempPath
        (.error (.io w.metadataPath source) : Except StorageError ObjectInfo) t₂
      -- Renaming over an existing file would have succeeded.
      have hnone : t.files w.metadataPath = none := by
        rw [← ha _ (by simp [Ne.symm ne_tm, Ne.symm ne_mm, Ne.symm ne_om])]
        by_contra hsome
        obtain ⟨b, hb⟩ := Option.ne_none_iff_exists'.mp hsome
        rw [(rename_of_canPlace hmeta₂ (canPlace_of_files hb) ne_mm).1] at hr₃
        cases hr₃
      refine Or.inr (Or.inl ⟨_, hres, hnone, ?_, ha.trans (ha₃.mono (by simp))⟩)
      rw [ha₃ _ (by simpa using Ne.symm ne_mo), hobj]
    | ok _ =>
      obtain ⟨ha₃, hside, _⟩ := rename_spec ne_mm hr₃
      refine Or.inr (Or.inr ⟨bytes, rfl, hv, ?_, ?_, ?_⟩)
      · show (t₂.rename w.metadataTempPath w.metadataPath).2.files w.objectPath = _
        rw [ha₃ _ (by simp [Ne.symm ne_mo, ne_om]), hobj]
      · show (t₂.rename w.metadataTempPath w.metadataPath).2.files w.metadataPath = _
        rw [hside, hmeta₂]
      · exact (ha.mono (by simp)).trans (ha₃.mono (by simp))

theorem complete_spec (h : Writing t w dataId metaId written) (codec : Codec) (now : ℤ) :
    Finished codec w written (w.info now) t (FsM.run now (w.complete codec now) t) := by
  rcases complete_ends h codec now with hfail | ⟨e, hr, hnone, _, ha⟩ | hdone
  · exact Or.inl hfail
  · exact Or.inr (Or.inl ⟨e, hr, hnone, ha⟩)
  · exact Or.inr (Or.inr hdone)

theorem removeIfPresent_agreeOff (path : Path) (now : ℤ) (t : FileTree) :
    AgreeOff [path] t (FsM.run now (removeIfPresent path) t).2 :=
  agreeOff_of_update (removeIfPresent_spec path now t).1

/-- Aborting touches only the temporary files. -/
theorem abort_agreeOff (w : LocalMultipartWriter D) (now : ℤ) (t : FileTree) :
    AgreeOff [w.tempPath, w.metadataTempPath] t (FsM.run now w.abort t).2 := by
  simp only [LocalMultipartWriter.abort, Prog.bind_eq_bind, FsM.run_bind]
  have h₁ : AgreeOff [w.tempPath, w.metadataTempPath] t
      (FsM.run now (removeIfPresent w.tempPath) t).2 :=
    (removeIfPresent_agreeOff w.tempPath now t).mono (by simp)
  have h₂ := (removeIfPresent_agreeOff w.metadataTempPath now
    (FsM.run now (removeIfPresent w.tempPath) t).2).mono (List.subset_cons_self w.tempPath _)
  split <;> exact h₁.trans h₂

/-- Writing the temporary file before finishing makes no difference to how it can end. -/
theorem Finished.of_agreeOff {codec : Codec} {info : ObjectInfo} {t₁ : FileTree}
    {r : Except StorageError ObjectInfo × FileTree} (hne : w.metadataPath ≠ w.tempPath)
    (ha : AgreeOff [w.tempPath] t t₁) (h : Finished codec w written info t₁ r) :
    Finished codec w written info t r := by
  rcases h with ⟨e, hr, h⟩ | ⟨e, hr, hnone, h⟩ | ⟨bytes, hr, hv, hd, hs, h⟩
  · exact Or.inl ⟨e, hr, (ha.mono (by simp)).trans h⟩
  · rw [ha _ (by simpa using hne)] at hnone
    exact Or.inr (Or.inl ⟨e, hr, hnone, (ha.mono (by simp)).trans h⟩)
  · exact Or.inr (Or.inr ⟨bytes, hr, hv, hd, hs, (ha.mono (by simp)).trans h⟩)

/-- The chunk loop ends as finishing an object can end, with all chunks written. -/
theorem streamChunks_spec (codec : Codec) (now : ℤ) (l : List (Except StorageError Bytes))
    (h : Writing t w dataId metaId written)
    (hfit : (written ++ (okChunks l).flatten).length ≤ t.limits.maxFileSize) :
    ∃ info, info.sizeBytes = (written ++ (okChunks l).flatten).length ∧
      info.sha256Hex = sha256Hex D (written ++ (okChunks l).flatten) ∧
      (written ++ (okChunks l).flatten).length ≤ isizeMax ∧
      Finished codec w (written ++ (okChunks l).flatten) info t
        (FsM.run now (streamChunks codec now l w) t) := by
  induction l generalizing t w written with
  | nil =>
    simp only [okChunks, List.flatten_nil, List.append_nil]
    exact ⟨w.info now, (h.info_eq now).1, (h.info_eq now).2, h.bounded, complete_spec h codec now⟩
  | cons x l ih =>
    cases x with
    | error e =>
      simp only [okChunks, List.flatten_nil, List.append_nil]
      refine ⟨w.info now, (h.info_eq now).1, (h.info_eq now).2, h.bounded, ?_⟩
      simp only [streamChunks, Prog.bind_eq_bind, FsM.run_bind]
      exact Or.inl ⟨e, rfl, abort_agreeOff w now t⟩
    | ok bytes =>
      have hfit₁ : written.length + bytes.length ≤ t.limits.maxFileSize := by
        simp only [okChunks, List.flatten_cons, List.length_append] at hfit
        omega
      obtain ⟨hr, hl, hw, hf⟩ := writeChunk_spec h bytes now hfit₁
      have hcat : written ++ (okChunks (.ok bytes :: l)).flatten =
          written ++ bytes ++ (okChunks l).flatten := by
        simp [okChunks]
      rw [hcat] at hfit ⊢
      obtain ⟨info, hs, hsha, hb, hfin⟩ := ih hw (by rw [hl]; exact hfit)
      refine ⟨info, hs, hsha, hb, ?_⟩
      simp only [streamChunks, Prog.bind_eq_bind, FsM.run_bind, hr]
      -- The paths of the writer do not change while it is fed.
      exact Finished.of_agreeOff (Ne.symm h.paths_ne.2.1) (agreeOff_of_update hf) hfin

/-- `put_object_stream` fails without opening a writer and touches nothing, or it ends as
finishing the opened writer can end. -/
theorem putObjectStream_spec (D : Digest) (codec : Codec) (now : ℤ) (dataId metaId : Uuid)
    (bucket key : Str) (contentType : Option Str) (metadata : ObjectMetadata)
    (stream : StorageByteStream) (t : FileTree)
    (hfit : (concatBody stream).length ≤ t.limits.maxFileSize) :
    let r := FsM.run now
      (putObjectStream D codec now dataId metaId bucket key contentType metadata stream) t
    (∃ e, r.1 = .error e ∧ r.2.files = t.files) ∨
    ∃ (w : LocalMultipartWriter D) (t₁ : FileTree) (info : ObjectInfo),
      w.bucket = bucket ∧ w.key = key ∧ Writing t₁ w dataId metaId [] ∧
      info.sizeBytes = (concatBody stream).length ∧ (concatBody stream).length ≤ isizeMax ∧
      Finished codec w (concatBody stream) info t r := by
  intro r
  simp only [r, putObjectStream, Prog.bind_eq_bind, FsM.run_bind]
  obtain ⟨hlimits, hcreate⟩ :=
    createMultipartObject_spec D dataId metaId bucket key contentType metadata now t
  rcases hcreate with ⟨e, he, hf⟩ | ⟨w, hw, hb, hk, hwriting, hf⟩
  · exact Or.inl ⟨e, by rw [he]; rfl, by rw [he]; exact hf⟩
  · right
    rw [hw]
    obtain ⟨info, hs, _, hbound, hfin⟩ := streamChunks_spec codec now stream.inner hwriting
      (by rw [hlimits, List.nil_append]; exact hfit)
    refine ⟨w, _, info, hb, hk, hwriting, hs, hbound, ?_⟩
    exact Finished.of_agreeOff (Ne.symm hwriting.paths_ne.2.1) (agreeOff_of_update hf) hfin

/-- `delete_object` touches only data and sidecar. On success no sidecar is left; it fails
only where data or sidecar was no file, and then the sidecar is as it was. -/
theorem deleteObject_spec {bucket key : Str} (hv : ValidName bucket key) (now : ℤ) (t : FileTree) :
    let r := FsM.run now (deleteObject bucket key) t
    AgreeOff [dataPath bucket key, sidecarPath bucket key] t r.2 ∧
      (r.1 = .ok () → r.2.files (sidecarPath bucket key) = none) ∧
      ∀ e, r.1 = .error e →
        (t.files (dataPath bucket key) = none ∨ t.files (sidecarPath bucket key) = none) ∧
          r.2.files (sidecarPath bucket key) = t.files (sidecarPath bucket key) := by
  intro r
  have hne : sidecarPath bucket key ≠ dataPath bucket key := sidecarPath_ne_dataPath
  simp only [r, deleteObject, objectPathFor_of_valid hv, objectMetadataPathFor_of_valid hv,
    Prog.bind_eq_bind, FsM.run_bind]
  obtain ⟨hf₁, _, herr₁⟩ := removeIfPresent_spec (dataPath bucket key) now t
  generalize FsM.run now (removeIfPresent (dataPath bucket key)) t = r₁ at hf₁ herr₁ ⊢
  obtain ⟨e | _, t₁⟩ := r₁
  · have ha : AgreeOff [dataPath bucket key, sidecarPath bucket key] t t₁ :=
      (agreeOff_of_update hf₁).mono (by simp)
    refine ⟨ha, by simp, fun e' he' => ⟨Or.inl (herr₁ e rfl), ?_⟩⟩
    exact agreeOff_of_update hf₁ _ (by simpa using hne)
  · obtain ⟨hf₂, _, herr₂⟩ := removeIfPresent_spec (sidecarPath bucket key) now t₁
    have hside : t₁.files (sidecarPath bucket key) = t.files (sidecarPath bucket key) :=
      agreeOff_of_update hf₁ _ (by simpa using hne)
    refine ⟨?_, fun _ => ?_, fun e he => ?_⟩
    · have ha₁ : AgreeOff [dataPath bucket key, sidecarPath bucket key] t t₁ :=
        (agreeOff_of_update hf₁).mono (by simp)
      exact ha₁.trans ((agreeOff_of_update hf₂).mono (by simp))
    · show (FsM.run now (removeIfPresent (sidecarPath bucket key)) t₁).2.files _ = none
      rw [hf₂, Function.update_self]
    · have hnone : t.files (sidecarPath bucket key) = none := by rw [← hside]; exact herr₂ e he
      refine ⟨Or.inr hnone, ?_⟩
      show (FsM.run now (removeIfPresent (sidecarPath bucket key)) t₁).2.files _ = _
      rw [hf₂, Function.update_self, hnone]

theorem deleteObject_of_not_valid {bucket key : Str} (hv : ¬ ValidName bucket key) (now : ℤ)
    (t : FileTree) : ∃ e, FsM.run now (deleteObject bucket key) t = (.error e, t) := by
  obtain ⟨e, he⟩ := objectPathFor_of_not_valid hv
  exact ⟨e, by simp [deleteObject, he]⟩

end Operations

/-! ### Reading -/

/-- The metadata is what the sidecar decodes to. -/
theorem getObjectMetadata_eq_ok {codec : Codec} {bucket key : Str} {now : ℤ} {t : FileTree}
    {object : ObjectInfo} : (FsM.run now (getObjectMetadata codec bucket key) t).1 = .ok object ↔
      ValidName bucket key ∧ ∃ bytes, t.files (sidecarPath bucket key) = some bytes ∧
        codec.fromSlice bytes = .ok object := by
  by_cases hv : ValidName bucket key
  swap
  · obtain ⟨e, he⟩ := objectMetadataPathFor_of_not_valid hv
    simp [getObjectMetadata, he, hv]
  simp only [getObjectMetadata, objectMetadataPathFor_of_valid hv, Prog.bind_eq_bind, FsM.run_bind,
    Fs.run_readFile, hv, true_and]
  cases hr : t.readFile (sidecarPath bucket key) with
  | error source =>
    have hnone : ∀ b, t.files (sidecarPath bucket key) ≠ some b := by
      intro b hb
      rw [readFile_eq_ok.mpr hb] at hr
      cases hr
    simp only [hnone, false_and, exists_false, iff_false]
    split <;> simp_all
  | ok bytes =>
    rw [readFile_eq_ok.mp hr]
    cases hd : codec.fromSlice bytes <;> simp [hd]

/-- Reading the metadata changes nothing. -/
theorem getObjectMetadata_tree (codec : Codec) (bucket key : Str) (now : ℤ) (t : FileTree) :
    (FsM.run now (getObjectMetadata codec bucket key) t).2 = t := by
  unfold getObjectMetadata
  split
  · rfl
  · simp only [Prog.bind_eq_bind, FsM.run_bind, Fs.run_readFile]
    split
    · rfl
    · rfl
    · split <;> rfl

/-- The metadata call looks only at the sidecar. -/
theorem getObjectMetadata_congr {t t' : FileTree} {bucket key : Str} (codec : Codec) (now now' : ℤ)
    (hs : Alike t t' (sidecarPath bucket key)) :
    (FsM.run now' (getObjectMetadata codec bucket key) t').1 =
      (FsM.run now (getObjectMetadata codec bucket key) t).1 := by
  by_cases hv : ValidName bucket key
  · simp only [getObjectMetadata, objectMetadataPathFor_of_valid hv, Prog.bind_eq_bind,
      FsM.run_bind, Fs.run_readFile, hs.readFile]
    split
    · rfl
    · rfl
    · split <;> rfl
  · obtain ⟨e, he⟩ := objectMetadataPathFor_of_not_valid hv
    simp [getObjectMetadata, he]

theorem getObjectRange_error {codec : Codec} {t : FileTree} {bucket key : Str} {now : ℤ}
    {e : StorageError} (start stop : ℕ)
    (h : (FsM.run now (getObjectMetadata codec bucket key) t).1 = .error e) :
    ∃ e', (FsM.run now (getObjectRange codec bucket key start stop) t).1 = .error e' := by
  unfold getObjectRange
  split_ifs
  · exact ⟨_, rfl⟩
  · simp only [Prog.bind_eq_bind, FsM.run_bind, h]
    exact ⟨_, rfl⟩

theorem getObjectRange_missing {codec : Codec} {t : FileTree} {bucket key : Str} {now : ℤ}
    {info : ObjectInfo} (start stop : ℕ)
    (hm : (FsM.run now (getObjectMetadata codec bucket key) t).1 = .ok info)
    (hl : t.lookup (dataPath bucket key) = none) :
    ∃ e, (FsM.run now (getObjectRange codec bucket key start stop) t).1 = .error e := by
  obtain ⟨hv, _⟩ := getObjectMetadata_eq_ok.mp hm
  unfold getObjectRange
  split_ifs
  · exact ⟨_, rfl⟩
  simp only [Prog.bind_eq_bind, FsM.run_bind, getObjectMetadata_tree, hm, objectPathFor_of_valid hv]
  split_ifs
  · exact ⟨_, rfl⟩
  simp only [FsM.run_bind, Fs.run_openFile, FileTree.metadata, hl]
  cases t.resolveError (dataPath bucket key) <;> exact ⟨_, rfl⟩

/-- Two reads of what is at the data path agree if the records do and what is streamed. -/
theorem getObjectRange_of_node {codec : Codec} {t t' : FileTree} {bucket key : Str} {n n' : Node}
    {info : ObjectInfo} (now now' : ℤ) (start stop : ℕ)
    (hm : (FsM.run now (getObjectMetadata codec bucket key) t).1 = .ok info)
    (hm' : (FsM.run now' (getObjectMetadata codec bucket key) t').1 = .ok info)
    (hl : t.lookup (dataPath bucket key) = some n) (hl' : t'.lookup (dataPath bucket key) = some n')
    (hstream : rangeStream (dataPath bucket key) start (min stop info.sizeBytes - start) n' =
      rangeStream (dataPath bucket key) start (min stop info.sizeBytes - start) n) :
    (FsM.run now' (getObjectRange codec bucket key start stop) t').1 =
      (FsM.run now (getObjectRange codec bucket key start stop) t).1 := by
  obtain ⟨hv, _⟩ := getObjectMetadata_eq_ok.mp hm
  unfold getObjectRange
  split_ifs
  · rfl
  simp only [Prog.bind_eq_bind, FsM.run_bind, getObjectMetadata_tree, hm, hm',
    objectPathFor_of_valid hv]
  split_ifs
  · rfl
  simp only [FsM.run_bind, Fs.run_openFile, metadata_eq_ok.mpr hl, metadata_eq_ok.mpr hl', hstream]
  cases seekStart start <;> rfl

/-- The range read looks at the sidecar and at the data. -/
theorem getObjectRange_congr {t t' : FileTree} {bucket key : Str} (codec : Codec) (now now' : ℤ)
    (start stop : ℕ) (hs : Alike t t' (sidecarPath bucket key))
    (hd : Alike t t' (dataPath bucket key)) :
    (FsM.run now' (getObjectRange codec bucket key start stop) t').1 =
      (FsM.run now (getObjectRange codec bucket key start stop) t).1 := by
  have hm' := getObjectMetadata_congr codec now now' hs
  cases hm : (FsM.run now (getObjectMetadata codec bucket key) t).1 with
  | error e =>
    rw [hm] at hm'
    unfold getObjectRange
    split_ifs
    · rfl
    · simp only [Prog.bind_eq_bind, FsM.run_bind, hm, hm']
      rfl
  | ok object =>
    rw [hm] at hm'
    cases hl : t.lookup (dataPath bucket key) with
    | none =>
      obtain ⟨hv, _⟩ := getObjectMetadata_eq_ok.mp hm
      unfold getObjectRange
      split_ifs
      · rfl
      simp only [Prog.bind_eq_bind, FsM.run_bind, getObjectMetadata_tree, hm, hm',
        objectPathFor_of_valid hv]
      split_ifs
      · rfl
      simp only [FsM.run_bind, Fs.run_openFile, FileTree.metadata, hl, hd.lookup_none.mpr hl,
        hd.resolveError]
      cases t.resolveError (dataPath bucket key) <;> rfl
    | some n =>
      cases n with
      | dir =>
        have hl' := isDir_iff.mp (hd.isDir.trans (isDir_iff.mpr hl))
        exact getObjectRange_of_node now now' start stop hm hm' hl hl' rfl
      | file b m =>
        obtain ⟨m', hl'⟩ := files_eq_some.mp (hd.files.trans (files_eq_some.mpr ⟨m, hl⟩))
        exact getObjectRange_of_node now now' start stop hm hm' hl hl' rfl

/-- A range read where both files of an object are: it fails where the start is too large, and
else delivers the bytes of the data file up to the recorded size. -/
theorem getObjectRange_of_files {codec : Codec} {bucket key : Str} {now : ℤ} {t : FileTree}
    {object : ObjectInfo} {b : Bytes}
    (hm : (FsM.run now (getObjectMetadata codec bucket key) t).1 = .ok object)
    (hd : t.files (dataPath bucket key) = some b) {start stop : ℕ} (hle : start ≤ stop) :
    ((object.sizeBytes < start ∨ 2 ^ 63 ≤ start) ∧
      ∃ e, (FsM.run now (getObjectRange codec bucket key start stop) t).1 = .error e) ∨
    (start ≤ object.sizeBytes ∧ start < 2 ^ 63 ∧
      (FsM.run now (getObjectRange codec bucket key start stop) t).1 =
        .ok ⟨object, ⟨start, min stop object.sizeBytes, object.sizeBytes⟩,
          min stop object.sizeBytes - start,
          ⟨(readChunks ((b.drop start).take (min stop object.sizeBytes - start))).map .ok,
            some (min stop object.sizeBytes - start)⟩⟩) := by
  obtain ⟨hv, _⟩ := getObjectMetadata_eq_ok.mp hm
  obtain ⟨modified, hl⟩ := files_eq_some.mp hd
  simp only [getObjectRange, if_neg (Nat.not_lt.mpr hle), Prog.bind_eq_bind, FsM.run_bind, hm,
    getObjectMetadata_tree]
  by_cases hsize : object.sizeBytes < start
  · rw [if_pos hsize]
    exact Or.inl ⟨Or.inl hsize, _, rfl⟩
  · rw [if_neg hsize]
    simp only [objectPathFor_of_valid hv, FsM.run_bind, Fs.run_openFile, metadata_eq_ok.mpr hl]
    by_cases hs : start < 2 ^ 63
    · rw [show seekStart start = .ok () from if_pos hs]
      exact Or.inr ⟨Nat.not_lt.mp hsize, hs, rfl⟩
    · rw [show seekStart start = .error .invalidInput from if_neg hs]
      exact Or.inl ⟨Or.inr (Nat.not_lt.mp hs), _, rfl⟩

/-- A range over the whole object collects to the bytes of the data file. -/
theorem getObjectRange_whole {codec : Codec} {bucket key : Str} {now : ℤ} {t : FileTree}
    {object : ObjectInfo} {b : Bytes}
    (hm : (FsM.run now (getObjectMetadata codec bucket key) t).1 = .ok object)
    (hd : t.files (dataPath bucket key) = some b) (hs : object.sizeBytes = b.length)
    (hb : b.length ≤ isizeMax) :
    ∃ body, (FsM.run now (getObjectRange codec bucket key 0 object.sizeBytes) t).1 = .ok body ∧
      collectStorageStream body.body = .ok b := by
  rcases getObjectRange_of_files hm hd (Nat.zero_le object.sizeBytes) with
    ⟨hbig, _⟩ | ⟨_, _, hrun⟩
  · omega
  · refine ⟨_, hrun, ?_⟩
    simp [collectStorageStream, hs, hb, collectChunks_map_ok, flatten_readChunks]

end GraphqlOrmStorage.Local
