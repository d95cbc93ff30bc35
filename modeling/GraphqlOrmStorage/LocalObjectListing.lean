import GraphqlOrmStorage.LocalListing
import GraphqlOrmStorage.LocalObjectCells

/-!
# Listing streaming objects

`list_objects` walks the tree from the path that bucket and prefix name, skips
temporary files, reads a key back from every other file and keeps the keys that
begin with the prefix and have a readable sidecar. The walk meets every file at
or below its start once. In a run without reserved names the files of a bucket
are the data of its keys and temporary files, so what is listed is found in the
cells; what is not listed are the keys with the prefix that do not lie below the
start of the walk, or that look like temporary files.
-/
namespace GraphqlOrmStorage.Local

open Text Program FileTree

/-! ### The code -/

/-- `key_for_bucket_path`. -/
def keyForBucketPath (bucket : Str) (path : Path) : Option Str :=
  ((relativePath bucket).isPrefixOf? path).map keyForPath

/-- The loop of `list_objects`. The stack is given top first. -/
def listLoop (codec : Codec) (bucket pre : Str) : ℕ → List Path → List ObjectInfo →
    FsM (Except Stop (List ObjectInfo))
  | _, [], objects => return .ok objects
  | 0, _ :: _, _ => return .error .outOfFuel
  | fuel + 1, path :: stack, objects => do
    match ← Fs.metadata path with
    | .error .notFound => listLoop codec bucket pre fuel stack objects
    | .error source => return .error (.error (.io path source))
    | .ok (.file _ _) =>
      if isUploadingTempFile path then listLoop codec bucket pre fuel stack objects
      else
        match keyForBucketPath bucket path with
        | none => listLoop codec bucket pre fuel stack objects
        | some key =>
          if pre <+: key then do
            match ← getObjectMetadata codec bucket key with
            | .ok info => listLoop codec bucket pre fuel stack (objects ++ [info])
            | .error _ => listLoop codec bucket pre fuel stack objects
          else listLoop codec bucket pre fuel stack objects
    | .ok .dir =>
      match ← sortedChildPaths path with
      | .error e => return .error (.error e)
      | .ok entries => listLoop codec bucket pre fuel (entries ++ stack) objects

/-- `list_objects`. The sort by key is stable. -/
def listObjects (codec : Codec) (fuel : ℕ) (bucket pre : Str) :
    FsM (Except Stop (List ObjectInfo)) :=
  match validateObjectBucket bucket with
  | .error e => return .error (.error e)
  | .ok () =>
    match validateBlobPrefix pre with
    | .error e => return .error (.error e)
    | .ok () => do
      let start := relativePath bucket ++ if pre = [] then [] else relativePath pre
      match ← listLoop codec bucket pre fuel [start] [] with
      | .error stop => return .error stop
      | .ok objects => return .ok (objects.insertionSort fun left right => left.key ≤ right.key)

/-! ### The walk -/

section Walk

variable (codec : Codec) (now : ℤ) (t : FileTree) (bucket pre : Str)

/-- What the walk adds for a file. -/
def listedInfo (path : Path) : Option ObjectInfo :=
  if isUploadingTempFile path then none
  else (keyForBucketPath bucket path).bind fun key =>
    if pre <+: key then (FsM.run now (getObjectMetadata codec bucket key) t).1.toOption else none

/-- What the walk adds for everything at or below a path. -/
def listedBelow (path : Path) : List ObjectInfo :=
  (filesBelow t path).filterMap (listedInfo codec now t bucket pre)

variable {t}

theorem listedBelow_dir {path : Path} (h : t.lookup path = some .dir) :
    listedBelow codec now t bucket pre path =
      (children t path).flatMap (listedBelow codec now t bucket pre) := by
  rw [listedBelow, filesBelow_dir h, List.filterMap_flatMap]
  rfl

theorem listedBelow_file {path : Path} (h : t.files path ≠ none) :
    listedBelow codec now t bucket pre path = (listedInfo codec now t bucket pre path).toList := by
  rw [listedBelow, filesBelow_file h]
  cases hi : listedInfo codec now t bucket pre path <;> simp [hi]

theorem listedBelow_none {path : Path} (h : t.lookup path = none) :
    listedBelow codec now t bucket pre path = [] := by
  rw [listedBelow, filesBelow_none h]
  rfl

/-- The step for a file: what it adds, and the rest of the stack. -/
theorem listLoop_file {path : Path} {b : Bytes} {m : ℤ} (h : t.lookup path = some (.file b m))
    (fuel : ℕ) (stack : List Path) (objects : List ObjectInfo) :
    FsM.run now (listLoop codec bucket pre (fuel + 1) (path :: stack) objects) t =
      FsM.run now (listLoop codec bucket pre fuel stack
        (objects ++ (listedInfo codec now t bucket pre path).toList)) t := by
  simp only [listLoop, Prog.bind_eq_bind, FsM.run_bind, Fs.run_metadata, metadata_eq_ok.mpr h,
    listedInfo]
  by_cases hup : isUploadingTempFile path = true
  · simp [hup]
  cases hk : keyForBucketPath bucket path with
  | none => simp [hup]
  | some key =>
    by_cases hpre : pre <+: key
    · have htree := getObjectMetadata_tree codec bucket key now t
      simp only [if_neg hup, Option.bind_some, if_pos hpre, FsM.run_bind]
      generalize FsM.run now (getObjectMetadata codec bucket key) t = r at htree ⊢
      obtain ⟨r, t'⟩ := r
      obtain rfl : t' = t := htree
      cases r with
      | ok info => rfl
      | error e => simp [Except.toOption]
    · simp [hup, hpre]

theorem listLoop_spec (fuel : ℕ) (stack : List Path) (objects : List ObjectInfo)
    (hstack : ∀ p ∈ stack, t.lookup p ≠ none) (hfuel : (stack.map (walkWork t)).sum ≤ fuel) :
    FsM.run now (listLoop codec bucket pre fuel stack objects) t =
      (.ok (objects ++ stack.flatMap (listedBelow codec now t bucket pre)), t) := by
  induction fuel generalizing stack objects with
  | zero =>
    cases stack with
    | nil => simp [listLoop]
    | cons p stack =>
      simp only [List.map_cons, List.sum_cons, walkWork] at hfuel
      omega
  | succ fuel ih =>
    cases stack with
    | nil => simp [listLoop]
    | cons p stack =>
      have hrest : ∀ q ∈ stack, t.lookup q ≠ none :=
        fun q hq => hstack q (List.mem_cons_of_mem _ hq)
      simp only [List.map_cons, List.sum_cons] at hfuel
      have hwork : 1 ≤ walkWork t p := by unfold walkWork; omega
      rcases hl : t.lookup p with _ | (_ | ⟨content, modified⟩)
      · exact absurd hl (hstack p List.mem_cons_self)
      · -- A directory is replaced by its children.
        simp only [listLoop, Prog.bind_eq_bind, FsM.run_bind, Fs.run_metadata,
          metadata_eq_ok.mpr hl, sortedChildPaths_dir now hl]
        rw [ih, List.flatMap_append, ← listedBelow_dir codec now bucket pre hl, List.flatMap_cons]
        · intro q hq
          rcases List.mem_append.mp hq with hq | hq
          · obtain ⟨_, _, hlq⟩ := mem_children.mp hq
            exact hlq
          · exact hrest q hq
        · rw [List.map_append, List.sum_append]
          rw [walkWork_eq] at hfuel
          omega
      · have hf : t.files p ≠ none := by rw [files_eq_some.mpr ⟨modified, hl⟩]; simp
        rw [listLoop_file codec now bucket pre hl, ih stack _ hrest (by omega), List.flatMap_cons,
          listedBelow_file codec now bucket pre hf, List.append_assoc]

/-- The path a listing of objects starts at. -/
def objectStart (bucket pre : Str) : Path := bucket :: startPath pre

/-- The start of the walk is there, or it is reported as missing. -/
def StartFound (t : FileTree) (bucket pre : Str) : Prop :=
  t.lookup (objectStart bucket pre) ≠ none ∨ t.resolveError (objectStart bucket pre) = .notFound

/-- The listing in the order of the keys, where the start is found; else an error. -/
theorem listObjects_spec {bucket pre : Str} (hb : validateObjectBucket bucket = .ok ())
    (hpre : validateBlobPrefix pre = .ok ()) {fuel : ℕ} (hfuel : t.entries.length < fuel) :
    (StartFound t bucket pre →
      FsM.run now (listObjects codec fuel bucket pre) t =
        (.ok ((listedBelow codec now t bucket pre (objectStart bucket pre)).insertionSort
          fun left right => left.key ≤ right.key), t)) ∧
    (¬ StartFound t bucket pre → ∃ e, (FsM.run now (listObjects codec fuel bucket pre) t).1 =
      .error (.error (.io (objectStart bucket pre) e))) := by
  have hstart : (relativePath bucket ++ if pre = [] then [] else relativePath pre) =
      objectStart bucket pre := by
    rw [(validateObjectBucket_eq_ok.mp hb).relativePath_eq]
    rfl
  simp only [listObjects, hb, hpre, hstart, Prog.bind_eq_bind, FsM.run_bind]
  by_cases hl : t.lookup (objectStart bucket pre) = none
  · obtain ⟨fuel, rfl⟩ : ∃ k, fuel = k + 1 := ⟨fuel - 1, by omega⟩
    simp only [listLoop, Prog.bind_eq_bind, FsM.run_bind, Fs.run_metadata, FileTree.metadata, hl,
      listedBelow_none codec now bucket pre hl, StartFound]
    constructor
    · intro h
      rw [h.resolve_left (fun h => h rfl)]
      simp
    · intro h
      have herr : t.resolveError (objectStart bucket pre) ≠ .notFound := fun he => h (Or.inr he)
      cases hr : t.resolveError (objectStart bucket pre) <;>
        first | exact absurd hr herr | exact ⟨_, rfl⟩
  · have hwork := (walkWork_le t (objectStart bucket pre)).trans hfuel
    rw [listLoop_spec codec now bucket pre fuel [objectStart bucket pre] [] (by simpa using hl)
      (by simpa using hwork)]
    constructor
    · intro _
      simp
    · intro h
      exact absurd (Or.inl hl) h

end Walk

/-! ### What lies where -/

/-- A temporary file, or the data or the sidecar of an accepted name. -/
def Placed (q : Path) : Prop :=
  isUploadingTempFile q = true ∨
    ∃ b k, ValidName b k ∧ (q = dataPath b k ∨ q = sidecarPath b k)

theorem isUploadingTempFile_tempPath (p : Path) (u : Uuid) :
    isUploadingTempFile (tempPath p u) = true := by
  have hsuffix : uploadingSuffix <:+ tempName (p.getLast?.getD []) u :=
    ⟨p.getLast?.getD [] ++ '.' :: u.toStr, by simp [tempName]⟩
  simpa [isUploadingTempFile, tempPath] using hsuffix

theorem Footprint.placed {bucket key : Str} {ids : List Uuid} {q : Path} (hv : ValidName bucket key)
    (h : Footprint bucket key ids q) : Placed q := by
  rcases h with h | h | ⟨p, u, _, h⟩
  · exact Or.inr ⟨bucket, key, hv, Or.inl h⟩
  · exact Or.inr ⟨bucket, key, hv, Or.inr h⟩
  · exact Or.inl (h ▸ isUploadingTempFile_tempPath p u)

section Placement

variable {D : Digest} {codec : Codec} {s : ObjectState D}

/-- Finishing an upload returns the record of its own object. -/
theorem complete_info {w : LocalMultipartWriter D} {t : FileTree} {dataId metaId : Uuid}
    {written : Bytes} (hw : Writing t w dataId metaId written) (now : ℤ) {info : ObjectInfo}
    (h : (FsM.run now (w.complete codec now) t).1 = .ok info) : info = w.info now := by
  rcases complete_spec hw codec now with ⟨e, he, _⟩ | ⟨e, he, _⟩ | ⟨bytes, hok, _⟩
  · rw [he] at h
    cases h
  · rw [he] at h
    cases h
  · rw [hok] at h
    exact (Except.ok.inj h).symm

theorem streamChunks_named {dataId metaId : Uuid} (now : ℤ) (l : List (Except StorageError Bytes))
    {t : FileTree} {w : LocalMultipartWriter D} {written : Bytes}
    (hw : Writing t w dataId metaId written)
    (hfit : (written ++ (okChunks l).flatten).length ≤ t.limits.maxFileSize) {info : ObjectInfo}
    (h : (FsM.run now (streamChunks codec now l w) t).1 = .ok info) :
    info.bucket = w.bucket ∧ info.key = w.key := by
  induction l generalizing t w written with
  | nil =>
    rw [complete_info hw now h]
    exact ⟨rfl, rfl⟩
  | cons x l ih =>
    cases x with
    | error e =>
      simp only [streamChunks, Prog.bind_eq_bind, FsM.run_bind] at h
      cases h
    | ok bytes =>
      have hcat : written ++ (okChunks (.ok bytes :: l)).flatten =
          written ++ bytes ++ (okChunks l).flatten := by
        simp [okChunks]
      rw [hcat] at hfit
      obtain ⟨hr, hl, hw', _⟩ := writeChunk_spec hw bytes now (by
        simp only [List.length_append] at hfit
        omega)
      simp only [streamChunks, Prog.bind_eq_bind, FsM.run_bind, hr] at h
      have hnamed := ih hw' (by rw [hl]; exact hfit) h
      exact hnamed

theorem putObjectStream_named (now : ℤ) {dataId metaId : Uuid} {bucket key : Str}
    {contentType : Option Str} {metadata : ObjectMetadata} {stream : StorageByteStream}
    {t : FileTree} (hfit : (concatBody stream).length ≤ t.limits.maxFileSize) {info : ObjectInfo}
    (h : (FsM.run now
      (putObjectStream D codec now dataId metaId bucket key contentType metadata stream) t).1 =
        .ok info) : info.bucket = bucket ∧ info.key = key := by
  simp only [putObjectStream, Prog.bind_eq_bind, FsM.run_bind] at h
  obtain ⟨hlimits, ⟨e, he, _⟩ | ⟨w, hok, hb, hk, hw, _⟩⟩ :=
    createMultipartObject_spec D dataId metaId bucket key contentType metadata now t
  · rw [he] at h
    cases h
  · rw [hok] at h
    obtain ⟨hbucket, hkey⟩ := streamChunks_named now stream.inner hw
      (by rw [hlimits, List.nil_append]; exact hfit) h
    exact ⟨hbucket.trans hb, hkey.trans hk⟩

/-- The file that an operation changes is a temporary file, or data or sidecar of some name. -/
theorem CellsInv.placed_of_changed (h : CellsInv codec s) (now : ℤ) {op : ObjectOp}
    (hf : Faultless s op) {q : Path}
    (hq : (s.step codec now op).tree.files q ≠ s.tree.files q) : Placed q := by
  by_contra hplaced
  apply hq
  cases op with
  | putObjectStream dataId metaId bucket key contentType metadata stream =>
    rcases putObjectStream_spec D codec now dataId metaId bucket key contentType metadata stream
      s.tree hf.2.2 with ⟨e, _, hsame⟩ | ⟨w, t₁, info, _, _, hw, _, _, hfin⟩
    · exact congrFun hsame q
    · exact hfin.footprint hw q fun hfoot => hplaced (hfoot.placed hw.valid)
  | createMultipartObject dataId metaId bucket key contentType metadata =>
    obtain ⟨_, ⟨e, he, hsame⟩ | ⟨w, hok, _, _, hw, hfiles⟩⟩ :=
      createMultipartObject_spec D dataId metaId bucket key contentType metadata now s.tree
    · simp only [ObjectState.step, he]
      exact congrFun hsame q
    · simp only [ObjectState.step, hok, hfiles]
      refine Function.update_of_ne (fun he => hplaced (Or.inl ?_)) _ _
      rw [he, hw.tempPath_eq, isUploadingTempFile_tempPath]
  | writeChunk i bytes =>
    cases hi : s.writers[i]? with
    | none => simp only [ObjectState.step, hi]
    | some o =>
      have hw := h.writing o (List.mem_of_getElem? hi)
      obtain ⟨_, _, _, hfiles⟩ := writeChunk_spec hw bytes now (hf o hi)
      simp only [ObjectState.step, hi, hfiles]
      refine Function.update_of_ne (fun he => hplaced (Or.inl ?_)) _ _
      rw [he, hw.tempPath_eq, isUploadingTempFile_tempPath]
  | complete i =>
    cases hi : s.writers[i]? with
    | none => simp only [ObjectState.step, hi]
    | some o =>
      have hw := h.writing o (List.mem_of_getElem? hi)
      simp only [ObjectState.step, hi]
      exact (complete_spec hw codec now).footprint hw q fun hfoot => hplaced (hfoot.placed hw.valid)
  | abort i =>
    cases hi : s.writers[i]? with
    | none => simp only [ObjectState.step, hi]
    | some o =>
      have hw := h.writing o (List.mem_of_getElem? hi)
      simp only [ObjectState.step, hi]
      refine abort_agreeOff o.writer now s.tree q fun hm => hplaced (Or.inl ?_)
      rw [hw.tempPath_eq, hw.metadataTempPath_eq] at hm
      simp only [List.mem_cons, List.not_mem_nil, or_false] at hm
      rcases hm with he | he
      · rw [he, isUploadingTempFile_tempPath]
      · rw [he, isUploadingTempFile_tempPath]
  | deleteObject bucket key =>
    by_cases hv : ValidName bucket key
    · refine (deleteObject_spec hv now s.tree).1 q fun hm => hplaced (Or.inr ⟨bucket, key, hv, ?_⟩)
      simpa using hm
    · obtain ⟨e, he⟩ := deleteObject_of_not_valid hv now s.tree
      simp only [ObjectState.step, he]

/-- Every file is where some object or its upload puts it, and the record of a cell names it. -/
structure ListingInv (s : ObjectState D) : Prop where
  placed : ∀ q, s.tree.files q ≠ none → Placed q
  named : ∀ b k c, s.cells (b, k) = some c → c.1.bucket = b ∧ c.1.key = k

theorem listingInv_start (limits : Limits) : ListingInv (ObjectState.start D limits) where
  placed := by simp [ObjectState.start, FileTree.files, FileTree.lookup, FileTree.empty]
  named := by simp [ObjectState.start]

/-- The record put into a cell by an upload that returned it. -/
theorem named_completed {cells : Str × Str → Option (ObjectInfo × Bytes)} {bucket key : Str}
    {written : Bytes} {r : Except StorageError ObjectInfo}
    (h : ∀ b k c, cells (b, k) = some c → c.1.bucket = b ∧ c.1.key = k)
    (hr : ∀ info, r = .ok info → info.bucket = bucket ∧ info.key = key) :
    ∀ b k c, completed cells (bucket, key) written r (b, k) = some c →
      c.1.bucket = b ∧ c.1.key = k := by
  intro b k c hc
  cases r with
  | error _ => exact h b k c hc
  | ok info =>
    by_cases he : (b, k) = (bucket, key)
    · obtain ⟨rfl, rfl⟩ := Prod.mk.inj he
      simp only [completed, Function.update_self] at hc
      obtain rfl := Option.some.inj hc
      exact hr info rfl
    · rw [completed, Function.update_of_ne he] at hc
      exact h b k c hc

theorem ListingInv.step (hl : ListingInv s) (h : CellsInv codec s) (now : ℤ) {op : ObjectOp}
    (hf : Faultless s op) : ListingInv (s.step codec now op) where
  placed := by
    intro q hq
    by_cases hsame : (s.step codec now op).tree.files q = s.tree.files q
    · rw [hsame] at hq
      exact hl.placed q hq
    · exact h.placed_of_changed now hf hsame
  named := by
    cases op with
    | putObjectStream dataId metaId bucket key contentType metadata stream =>
      exact named_completed hl.named fun info hr => putObjectStream_named now hf.2.2 hr
    | createMultipartObject dataId metaId bucket key contentType metadata =>
      simp only [ObjectState.step]
      split <;> exact hl.named
    | writeChunk i bytes =>
      simp only [ObjectState.step]
      split <;> exact hl.named
    | complete i =>
      cases hi : s.writers[i]? with
      | none =>
        simp only [ObjectState.step, hi]
        exact hl.named
      | some o =>
        simp only [ObjectState.step, hi]
        refine named_completed hl.named fun info hr => ?_
        rw [complete_info (h.writing o (List.mem_of_getElem? hi)) now hr]
        exact ⟨rfl, rfl⟩
    | abort i =>
      simp only [ObjectState.step]
      split <;> exact hl.named
    | deleteObject bucket key =>
      intro b k c hc
      simp only [ObjectState.step] at hc
      cases hr : (FsM.run now (Local.deleteObject bucket key) s.tree).1 with
      | error e =>
        rw [hr] at hc
        exact hl.named b k c hc
      | ok _ =>
        rw [hr] at hc
        by_cases he : (b, k) = (bucket, key)
        · simp only [he, Function.update_self] at hc
          cases hc
        · simp only [Function.update_of_ne he] at hc
          exact hl.named b k c hc

theorem ObjectRun.listingInv {limits : Limits} (h : ObjectRun codec limits ObjectOp.Unreserved s) :
    ListingInv s := by
  induction h with
  | start => exact listingInv_start limits
  | step now op hrun hf _ ih => exact ih.step hrun.inv now hf

end Placement

/-! ### Exactness -/

/-- The records are in ascending order of their keys, each once, and they are those of the
completed objects of the bucket whose key starts with the prefix. -/
def ListsExactly (cells : Str × Str → Option (ObjectInfo × Bytes)) (bucket pre : Str)
    (infos : List ObjectInfo) : Prop :=
  (infos.Pairwise fun left right => left.key < right.key) ∧
    ∀ info, info ∈ infos ↔
      ∃ key bytes, pre <+: key ∧ cells (bucket, key) = some (info, bytes)

/-- Every object whose key starts with the prefix lies at or below the start of the walk, and
its file does not look like a temporary one. -/
def PrefixReached (cells : Str × Str → Option (ObjectInfo × Bytes)) (bucket pre : Str) : Prop :=
  ∀ key, cells (bucket, key) ≠ none → pre <+: key →
    startPath pre <+: key.splitOn '/' ∧ isUploadingTempFile (dataPath bucket key) = false

section Exact

variable {D : Digest} {codec : Codec} {s : ObjectState D} {bucket pre key : Str} {now : ℤ}
  {info : ObjectInfo}

theorem keyForBucketPath_dataPath (hv : ValidName bucket key) :
    keyForBucketPath bucket (dataPath bucket key) = some key := by
  rw [keyForBucketPath, hv.1.relativePath_eq, dataPath]
  simp [List.isPrefixOf?, keyForPath_splitOn hv.2]

/-- The files of a bucket that are not temporary are the data of its keys. -/
theorem ListingInv.data_of_file (h : ListingInv s) (hne : bucket ≠ internalStorageDir) {rest : Path}
    (hf : s.tree.files (bucket :: rest) ≠ none)
    (hup : isUploadingTempFile (bucket :: rest) = false) :
    ∃ key, ValidName bucket key ∧ bucket :: rest = dataPath bucket key := by
  rcases h.placed _ hf with ht | ⟨b, k, hv, hd | hs⟩
  · rw [hup] at ht
    cases ht
  · obtain rfl : bucket = b := (List.cons.inj hd).1
    exact ⟨k, hv, hd⟩
  · exact absurd (List.cons.inj hs).1 hne

theorem CellsInv.listedInfo_dataPath (h : CellsInv codec s)
    (hcodec : ∀ info bytes, codec.toVec info = .ok bytes → codec.fromSlice bytes = .ok info)
    (hv : ValidName bucket key) :
    listedInfo codec now s.tree bucket pre (dataPath bucket key) = some info ↔
      isUploadingTempFile (dataPath bucket key) = false ∧ pre <+: key ∧
        ∃ bytes, s.cells (bucket, key) = some (info, bytes) := by
  have hinfo : (FsM.run now (getObjectMetadata codec bucket key) s.tree).1.toOption = some info ↔
      ∃ bytes, s.cells (bucket, key) = some (info, bytes) := by
    rw [← h.getObjectMetadata_iff hcodec now]
    cases (FsM.run now (getObjectMetadata codec bucket key) s.tree).1 <;> simp [Except.toOption]
  rw [listedInfo, keyForBucketPath_dataPath hv, Option.bind_some]
  by_cases hup : isUploadingTempFile (dataPath bucket key) = true
  · simp [hup]
  · by_cases hpre : pre <+: key
    · rw [if_neg hup, if_pos hpre, hinfo]
      simp [hup, hpre]
    · simp [hup, hpre]

/-- What is listed for a file below the bucket is the record of the key that the file belongs to. -/
theorem CellsInv.listedInfo_file (h : CellsInv codec s) (hl : ListingInv s)
    (hcodec : ∀ info bytes, codec.toVec info = .ok bytes → codec.fromSlice bytes = .ok info)
    (hne : bucket ≠ internalStorageDir) {q : Path} (hq : objectStart bucket pre <+: q)
    (hf : s.tree.files q ≠ none) (hi : listedInfo codec now s.tree bucket pre q = some info) :
    ∃ bytes, ValidName bucket info.key ∧ q = dataPath bucket info.key ∧
      isUploadingTempFile q = false ∧ pre <+: info.key ∧
        s.cells (bucket, info.key) = some (info, bytes) := by
  have hup : isUploadingTempFile q = false := by
    by_contra hup
    rw [Bool.not_eq_false] at hup
    simp [listedInfo, hup] at hi
  obtain ⟨rest, rfl⟩ := hq
  obtain ⟨key, hv, hpath⟩ := hl.data_of_file hne hf hup
  have hq : objectStart bucket pre ++ rest = dataPath bucket key := hpath
  rw [hq] at hi ⊢
  obtain ⟨hup', hpre, bytes, hc⟩ := (h.listedInfo_dataPath hcodec hv).mp hi
  obtain rfl : info.key = key := (hl.named _ _ _ hc).2
  exact ⟨bytes, hv, rfl, hup', hpre, hc⟩

theorem CellsInv.mem_listedBelow (h : CellsInv codec s) (hl : ListingInv s)
    (hcodec : ∀ info bytes, codec.toVec info = .ok bytes → codec.fromSlice bytes = .ok info)
    (hne : bucket ≠ internalStorageDir) :
    info ∈ listedBelow codec now s.tree bucket pre (objectStart bucket pre) ↔
      ∃ key bytes, startPath pre <+: key.splitOn '/' ∧
        isUploadingTempFile (dataPath bucket key) = false ∧ pre <+: key ∧
          s.cells (bucket, key) = some (info, bytes) := by
  rw [listedBelow, List.mem_filterMap]
  constructor
  · intro hm
    obtain ⟨q, hq, hi⟩ := hm
    obtain ⟨hbelow, hf⟩ := mem_filesBelow.mp hq
    obtain ⟨bytes, _, rfl, hup, hpre, hc⟩ := h.listedInfo_file hl hcodec hne hbelow hf hi
    exact ⟨info.key, bytes, (List.prefix_cons_inj bucket).mp hbelow, hup, hpre, hc⟩
  · intro hm
    obtain ⟨key, bytes, hbelow, hup, hpre, hc⟩ := hm
    obtain ⟨_, hv, hd, _⟩ := h.present _ _ _ hc
    refine ⟨dataPath bucket key, mem_filesBelow.mpr ⟨(List.prefix_cons_inj bucket).mpr hbelow, ?_⟩,
      (h.listedInfo_dataPath hcodec hv).mpr ⟨hup, hpre, bytes, hc⟩⟩
    rw [hd]
    simp

/-- No two of the listed records have the same key. -/
theorem CellsInv.nodup_listedBelow (h : CellsInv codec s) (hl : ListingInv s)
    (hcodec : ∀ info bytes, codec.toVec info = .ok bytes → codec.fromSlice bytes = .ok info)
    (hne : bucket ≠ internalStorageDir) :
    ((listedBelow codec now s.tree bucket pre (objectStart bucket pre)).map
      ObjectInfo.key).Nodup := by
  rw [listedBelow, List.map_filterMap]
  have hpaths : ∀ q ∈ filesBelow s.tree (objectStart bucket pre), ∀ key,
      (listedInfo codec now s.tree bucket pre q).map ObjectInfo.key = some key →
        q = dataPath bucket key := by
    intro q hq key hk
    obtain ⟨hbelow, hf⟩ := mem_filesBelow.mp hq
    obtain ⟨info, hi, rfl⟩ := Option.map_eq_some_iff.mp hk
    obtain ⟨_, _, hpath, _⟩ := h.listedInfo_file hl hcodec hne hbelow hf hi
    exact hpath
  refine List.pairwise_filterMap.mpr ((nodup_filesBelow s.tree _).imp_of_mem ?_)
  intro q q' hq hq' hqq key hk key' hk' he
  rw [hpaths q hq key hk, hpaths q' hq' key' hk', he] at hqq
  exact hqq rfl

/-- Sorting records with distinct keys gives ascending keys. -/
theorem pairwise_key_lt {infos : List ObjectInfo} (h : (infos.map ObjectInfo.key).Nodup) :
    (infos.insertionSort fun left right => left.key ≤ right.key).Pairwise
      fun left right => left.key < right.key := by
  have hsorted : ((infos.insertionSort fun left right => left.key ≤ right.key).Pairwise
      fun left right => left.key ≤ right.key) := by
    have htotal : Std.Total fun left right : ObjectInfo => left.key ≤ right.key :=
      ⟨fun left right => le_total left.key right.key⟩
    have htrans : IsTrans ObjectInfo fun left right => left.key ≤ right.key :=
      ⟨fun _ _ _ => le_trans⟩
    exact List.pairwise_insertionSort _ infos
  have hnodup : ((infos.insertionSort fun left right => left.key ≤ right.key).map
      ObjectInfo.key).Nodup :=
    ((List.perm_insertionSort _ infos).map ObjectInfo.key).nodup_iff.mpr h
  exact (hsorted.and (List.pairwise_map.mp hnodup)).imp fun hle => lt_of_le_of_ne hle.1 hle.2

theorem CellsInv.listsExactly_iff (h : CellsInv codec s) (hl : ListingInv s)
    (hcodec : ∀ info bytes, codec.toVec info = .ok bytes → codec.fromSlice bytes = .ok info)
    (hne : bucket ≠ internalStorageDir) :
    ListsExactly s.cells bucket pre
      ((listedBelow codec now s.tree bucket pre (objectStart bucket pre)).insertionSort
        fun left right => left.key ≤ right.key) ↔ PrefixReached s.cells bucket pre := by
  have hmem : ∀ info, info ∈ (listedBelow codec now s.tree bucket pre
      (objectStart bucket pre)).insertionSort (fun left right => left.key ≤ right.key) ↔ _ :=
    fun info => (List.mem_insertionSort _).trans (h.mem_listedBelow hl hcodec hne)
  constructor
  · intro hexact key hkey hpre
    obtain ⟨⟨info, bytes⟩, hc⟩ := Option.ne_none_iff_exists'.mp hkey
    obtain ⟨key', bytes', hbelow, hup, _, hc'⟩ :=
      (hmem info).mp ((hexact.2 info).mpr ⟨key, bytes, hpre, hc⟩)
    obtain rfl : key' = key := by
      rw [← (hl.named _ _ _ hc').2, ← (hl.named _ _ _ hc).2]
    exact ⟨hbelow, hup⟩
  · intro hreached
    refine ⟨pairwise_key_lt (h.nodup_listedBelow hl hcodec hne), fun info => (hmem info).trans ?_⟩
    constructor
    · intro hm
      obtain ⟨key, bytes, _, _, hpre, hc⟩ := hm
      exact ⟨key, bytes, hpre, hc⟩
    · intro hm
      obtain ⟨key, bytes, hpre, hc⟩ := hm
      obtain ⟨hbelow, hup⟩ := hreached key (by rw [hc]; simp) hpre
      exact ⟨key, bytes, hbelow, hup, hpre, hc⟩

end Exact

/-- After every run whose operations name no data at a sidecar's place, listing a bucket other than
the internal directory is exact if and only if the path it starts at is found or reported as
missing, and every object with the prefix lies at or below it under a name that is not that of
a temporary file. -/
theorem list_objects_exact_iff (D : Digest) (codec : Codec)
    (hcodec : ∀ info bytes, codec.toVec info = .ok bytes → codec.fromSlice bytes = .ok info)
    (limits : Limits) (s : ObjectState D) (h : ObjectRun codec limits ObjectOp.Unreserved s)
    (bucket pre : Str) (hb : validateObjectBucket bucket = .ok ())
    (hne : bucket ≠ internalStorageDir) (hpre : validateBlobPrefix pre = .ok ()) (now : ℤ) :
    (∃ infos, ListsExactly s.cells bucket pre infos ∧ ∃ bound, ∀ fuel, bound ≤ fuel →
      (FsM.run now (listObjects codec fuel bucket pre) s.tree).1 = .ok infos) ↔
    StartFound s.tree bucket pre ∧ PrefixReached s.cells bucket pre := by
  have hexact : ListsExactly s.cells bucket pre
      ((listedBelow codec now s.tree bucket pre (objectStart bucket pre)).insertionSort
        fun left right => left.key ≤ right.key) ↔ PrefixReached s.cells bucket pre :=
    h.inv.listsExactly_iff h.listingInv hcodec hne
  have hspec := fun fuel (hfuel : s.tree.entries.length < fuel) =>
    listObjects_spec codec now hb hpre hfuel
  constructor
  · intro hlists
    obtain ⟨infos, hinfos, bound, hrun⟩ := hlists
    have hok := hrun (max bound (s.tree.entries.length + 1)) (le_max_left _ _)
    obtain ⟨hfound, hmissing⟩ := hspec (max bound (s.tree.entries.length + 1)) (by omega)
    by_cases hstart : StartFound s.tree bucket pre
    · rw [hfound hstart] at hok
      rw [← Except.ok.inj hok] at hinfos
      exact ⟨hstart, hexact.mp hinfos⟩
    · obtain ⟨e, he⟩ := hmissing hstart
      rw [he] at hok
      cases hok
  · intro hc
    obtain ⟨hstart, hreached⟩ := hc
    refine ⟨_, hexact.mpr hreached, s.tree.entries.length + 1, fun fuel hfuel => ?_⟩
    rw [(hspec fuel (by omega)).1 hstart]

/-- A record of the two bytes 1, 2 under some key. -/
def infoAt (key : Str) : ObjectInfo := { sampleInfo with key := key }

/-- Its JSON text, for a key of letters. -/
def jsonAt (key : Str) : Bytes :=
  ("\x7b\"bucket\":\"b\",\"key\":\"" ++ String.ofList key ++ "\"," ++
    "\"content_type\":null,\"metadata\":\x7b\x7d,\"size_bytes\":2,\"sha256_hex\":" ++
    "\"a12871fee210fb8619291eaea194581cbd2531e4b23759d225f6806923f63222\",\"etag\":" ++
    "\"a12871fee210fb8619291eaea194581cbd2531e4b23759d225f6806923f63222\"," ++
    "\"last_modified\":[1970,1,0,0,0,0,0,0,0]\x7d").toUTF8.toList

/-- The codec on that record. -/
def codecAt (key : Str) : Codec where
  toVec info := if info = infoAt key then .ok (jsonAt key) else .error []
  fromSlice bytes := if bytes = jsonAt key then .ok (infoAt key) else .error []

theorem codecAt_roundtrip (key : Str) (info : ObjectInfo) (bytes : Bytes)
    (h : (codecAt key).toVec info = .ok bytes) : (codecAt key).fromSlice bytes = .ok info := by
  simp only [codecAt] at h ⊢
  split_ifs at h with hi
  obtain rfl := Except.ok.inj h
  simp [hi]

/-- The upload of that object. -/
def putAt (key : Str) : ObjectOp :=
  .putObjectStream (sampleUuid 1) (sampleUuid 2) "b".toList key none [] ⟨[.ok [1], .ok [2]], none⟩

def afterPutAt (key : Str) : ObjectState Digest.sha256 :=
  (ObjectState.start Digest.sha256 Limits.widest).step (codecAt key) 0 (putAt key)

theorem afterPutAt_cells (key : Str) (h : (FsM.run 0 (putObjectStream Digest.sha256 (codecAt key) 0
      (sampleUuid 1) (sampleUuid 2) "b".toList key none [] ⟨[.ok [1], .ok [2]], none⟩)
        (FileTree.empty Limits.widest)).1 = .ok (infoAt key)) (key' : Str) :
    (afterPutAt key).cells ("b".toList, key') ≠ none ↔ key' = key := by
  have hcells : (afterPutAt key).cells =
      Function.update (fun _ => none) ("b".toList, key) (some (infoAt key, [1, 2])) := by
    simp only [afterPutAt, putAt, ObjectState.step, ObjectState.start, h, completed]
    rfl
  rw [hcells]
  by_cases he : key' = key
  · simp [he]
  · simp [he]

/-- The prefix `a` names a directory, and the object below it is listed. -/
theorem list_objects_exact_below :
    ∃ infos, ListsExactly (afterPutAt "a/b".toList).cells "b".toList "a".toList infos ∧
      ∃ bound, ∀ fuel, bound ≤ fuel → (FsM.run 1 (listObjects (codecAt "a/b".toList) fuel "b".toList
        "a".toList) (afterPutAt "a/b".toList).tree).1 = .ok infos := by
  have hrun : ObjectRun (codecAt "a/b".toList) Limits.widest ObjectOp.Unreserved
      (afterPutAt "a/b".toList) :=
    ObjectRun.step 0 (putAt "a/b".toList) .start
      ⟨by decide +kernel, by decide +kernel, by decide +kernel⟩
      (not_reserved_of_bucket _ (by decide))
  refine (list_objects_exact_iff _ _ (codecAt_roundtrip _) _ _ hrun "b".toList "a".toList
    (by decide) (by decide) (by decide) 1).mpr ⟨Or.inl (by decide +kernel), ?_⟩
  intro key hkey _
  obtain rfl := (afterPutAt_cells _ (by decide +kernel) key).mp hkey
  exact ⟨by decide, by decide⟩

/-- The key `ab` starts with `a`, but no path `a` is there, and nothing is listed. -/
theorem list_objects_loses_key : ¬ ∀ (D : Digest) (codec : Codec) (limits : Limits)
    (s : ObjectState D) (bucket pre : Str) (now : ℤ),
    (∀ info bytes, codec.toVec info = .ok bytes → codec.fromSlice bytes = .ok info) →
    ObjectRun codec limits (fun _ => True) s → validateObjectBucket bucket = .ok () →
    bucket ≠ internalStorageDir → validateBlobPrefix pre = .ok () →
    ∃ infos, ListsExactly s.cells bucket pre infos ∧ ∃ bound, ∀ fuel, bound ≤ fuel →
      (FsM.run now (listObjects codec fuel bucket pre) s.tree).1 = .ok infos := by
  intro h
  have hrun : ObjectRun (codecAt "ab".toList) Limits.widest (fun _ => True)
      (afterPutAt "ab".toList) :=
    ObjectRun.step 0 (putAt "ab".toList) .start
      ⟨by decide +kernel, by decide +kernel, by decide +kernel⟩ trivial
  obtain ⟨infos, hexact, bound, hlist⟩ := h _ _ _ _ "b".toList "a".toList 1 (codecAt_roundtrip _)
    hrun (by decide) (by decide) (by decide)
  have hmem : infoAt "ab".toList ∈ infos :=
    (hexact.2 _).mpr ⟨"ab".toList, [1, 2], by decide, by decide +kernel⟩
  have hfound : StartFound (afterPutAt "ab".toList).tree "b".toList "a".toList :=
    Or.inr (by decide +kernel)
  have hspec := (listObjects_spec (codecAt "ab".toList) 1 (by decide) (by decide)
    (lt_of_lt_of_le (Nat.lt_add_one _) (le_max_right bound _))).1 hfound
  have hok := hlist _ (le_max_left bound ((afterPutAt "ab".toList).tree.entries.length + 1))
  rw [hspec, listedBelow_none _ _ _ _ (by decide +kernel)] at hok
  rw [← Except.ok.inj hok] at hmem
  cases hmem

end GraphqlOrmStorage.Local
