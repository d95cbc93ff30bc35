import GraphqlOrmStorage.LocalBlob

/-!
# Existence checks and conditional writes

Four operations look at the path of a key and each in its own way; a conditional
write leaves the question to the link call. Where a key holds a blob they agree.
Elsewhere they agree where nothing at all is on the way: a directory at the path,
a file above it or a name that is too long is told apart by some of them.
-/
namespace GraphqlOrmStorage.Local

open Text Program FileTree

/-- Walking down the path comes to a missing name, one that the filesystem takes. -/
def NothingAt (t : FileTree) (path : Path) : Prop :=
  ∃ front c back, path = front ++ c :: back ∧ t.isDir front = true ∧
    t.lookup (front ++ [c]) = none ∧ t.limits.acceptsName c

/-- The four operations report a stored blob as such, and the absence of one. -/
def ChecksAgree (now : ℤ) (t : FileTree) (key : Str) (stored : Prop) : Prop :=
  (stored → (FsM.run now (blobExists key) t).1 = .ok true ∧
    (∃ metadata, (FsM.run now (headBlob key) t).1 = .ok (some metadata)) ∧
    (∃ body, (FsM.run now (getBlob key) t).1 = .ok body) ∧
    (FsM.run now (deleteBlob key) t).1 = .ok ()) ∧
  (¬ stored → (FsM.run now (blobExists key) t).1 = .ok false ∧
    (FsM.run now (headBlob key) t).1 = .ok none ∧
    (FsM.run now (getBlob key) t).1 = .error (.missingBlob key) ∧
    (FsM.run now (deleteBlob key) t).1 = .ok ())

section Checks

variable {now : ℤ} {t : FileTree} {key : Str}

theorem checks_of_file (hk : ValidKey key) {b : Bytes} {modified : ℤ}
    (h : t.lookup (key.splitOn '/') = some (.file b modified)) :
    (FsM.run now (blobExists key) t).1 = .ok true ∧
      (∃ metadata, (FsM.run now (headBlob key) t).1 = .ok (some metadata)) ∧
      (∃ body, (FsM.run now (getBlob key) t).1 = .ok body) ∧
      (FsM.run now (deleteBlob key) t).1 = .ok () := by
  have hmeta : t.metadata (key.splitOn '/') = .ok (.file b modified) := metadata_eq_ok.mpr h
  have hremove := (removeFile_of_files (files_eq_some.mpr ⟨modified, h⟩)).1
  refine ⟨?_, ?_, ⟨_, congrArg Prod.fst (getBlob_of_some now hk h)⟩, ?_⟩
  · simp [blobExists, pathFor_of_valid hk, hmeta]
  · simp [headBlob, pathFor_of_valid hk, hmeta]
  · simp [deleteBlob, removeIfPresent, pathFor_of_valid hk, hremove]

/-- A directory is described as a blob. -/
theorem headBlob_of_dir (hk : ValidKey key) (h : t.lookup (key.splitOn '/') = some .dir) :
    ∃ metadata, (FsM.run now (headBlob key) t).1 = .ok (some metadata) := by
  have hmeta : t.metadata (key.splitOn '/') = .ok .dir := metadata_eq_ok.mpr h
  simp [headBlob, pathFor_of_valid hk, hmeta]

/-- Where the path names nothing, the operations pass on every error but that of a missing
file. -/
theorem checks_of_none_iff (hk : ValidKey key) (h : t.lookup (key.splitOn '/') = none) :
    ((FsM.run now (blobExists key) t).1 = .ok false ∧
      (FsM.run now (headBlob key) t).1 = .ok none ∧
      (FsM.run now (getBlob key) t).1 = .error (.missingBlob key) ∧
      (FsM.run now (deleteBlob key) t).1 = .ok ()) ↔
    t.resolveError (key.splitOn '/') = .notFound := by
  have hmeta : t.metadata (key.splitOn '/') = .error (t.resolveError (key.splitOn '/')) := by
    simp only [FileTree.metadata, h]
  have hremove : t.removeFile (key.splitOn '/') =
      (.error (t.resolveError (key.splitOn '/')), t) := by
    simp only [FileTree.removeFile, h]
  cases he : t.resolveError (key.splitOn '/') <;>
    simp [blobExists, headBlob, getBlob, deleteBlob, removeIfPresent, pathFor_of_valid hk, hmeta,
      hremove, he]

end Checks

/-- In every state that a run of the blob store reaches and for every valid key: the four
operations agree with the stored content exactly where a blob is stored or nothing is on the
way. -/
theorem existence_checks_agree_iff (D : Digest) (limits : Limits)
    (log : List (BlobEvent × BlobReply)) (t : FileTree) (M : BlobMap) (h : BlobRun D limits log t M)
    (now : ℤ) (key : Str) (hk : ValidKey key) :
    ChecksAgree now t key (M key ≠ none) ↔ M key ≠ none ∨ NothingAt t (key.splitOn '/') := by
  have hstored : t.files (key.splitOn '/') = M key := h.refines.1 key hk
  have hnothing : NothingAt t (key.splitOn '/') ↔ _ := resolveError_eq_notFound_iff.symm
  rw [hnothing]
  cases hl : t.lookup (key.splitOn '/') with
  | none =>
    have hM : M key = none := by rw [← hstored, files_of_lookup_none hl]
    simp only [ChecksAgree, hM, ne_eq, not_true_eq_false, false_implies, not_false_eq_true,
      true_implies, true_and, false_or]
    exact checks_of_none_iff hk hl
  | some n =>
    cases n with
    | file b modified =>
      have hM : M key ≠ none := by
        rw [← hstored, files_eq_some.mpr ⟨modified, hl⟩]
        exact Option.some_ne_none b
      exact ⟨fun _ => Or.inl hM, fun _ => ⟨fun _ => checks_of_file hk hl, fun hn => absurd hM hn⟩⟩
    | dir =>
      have hM : M key = none := by rw [← hstored, files_of_lookup_dir hl]
      constructor
      · intro hagree
        have hnone := (hagree.2 (not_not_intro hM)).2.1
        obtain ⟨metadata, hhead⟩ := headBlob_of_dir hk hl
        rw [hhead] at hnone
        cases hnone
      · intro hcond
        rcases hcond with hsome | ⟨hnone, _⟩
        · exact absurd hM hsome
        · cases hnone

/-- One blob, at a path of two names. -/
def nestedPut : BlobEvent := ⟨.put "a/b".toList ⟨[.ok [1]], none⟩ ⟨none⟩, sampleUuid 0, 0⟩

def nestedTree : FileTree := (nestedPut.exec Digest.sha256 (FileTree.empty Limits.widest)).2

theorem nestedTree_run : ∃ log M, BlobRun Digest.sha256 Limits.widest log nestedTree M ∧
    M "a/b".toList = some [1] ∧ M "a".toList = none := by
  have hstart : BlobRun Digest.sha256 Limits.widest [] (FileTree.empty Limits.widest) _ := .start
  have h := hstart.step nestedPut (by decide +kernel)
  exact ⟨_, _, h, by decide +kernel, by decide +kernel⟩

theorem existence_checks_agree_sibling : ∃ log M,
    BlobRun Digest.sha256 Limits.widest log nestedTree M ∧
      ChecksAgree 0 nestedTree "a/c".toList (M "a/c".toList ≠ none) := by
  obtain ⟨log, M, h, _⟩ := nestedTree_run
  refine ⟨log, M, h, ?_⟩
  refine (existence_checks_agree_iff _ _ _ _ _ h 0 "a/c".toList (by decide)).mpr (Or.inr ?_)
  exact ⟨["a".toList], "c".toList, [], rfl, by decide +kernel, by decide +kernel, by decide +kernel⟩

/-- A key that names only a directory is described by `head_blob`. -/
theorem existence_checks_disagree : ¬ ∀ (D : Digest) (limits : Limits)
    (log : List (BlobEvent × BlobReply)) (t : FileTree) (M : BlobMap),
    BlobRun D limits log t M → ∀ (now : ℤ) (key : Str), ValidKey key →
      ChecksAgree now t key (M key ≠ none) := by
  intro h
  obtain ⟨log, M, hrun, _, hM⟩ := nestedTree_run
  obtain ⟨_, hmissing⟩ := h _ _ _ _ _ hrun 0 "a".toList (by decide)
  have hdir : nestedTree.lookup ("a".toList.splitOn '/') = some .dir := by decide +kernel
  have hnone := (hmissing (not_not_intro hM)).2.1
  obtain ⟨metadata, hhead⟩ := headBlob_of_dir (by decide) hdir
  rw [hhead] at hnone
  cases hnone

/-! ### Conditional writes -/

/-- Nothing keeps the body from its temporary file: the filesystem takes the file's name, and the
body has no error and is not too long. -/
def UploadFits (t : FileTree) (u : Uuid) (key : Str) (body : StorageByteStream) : Prop :=
  t.limits.acceptsName (tempName ((key.splitOn '/').getLast?.getD []) u) ∧
    ∃ b, body.body = .ok b ∧ b.length ≤ t.limits.maxFileSize

/-- A loop that succeeds has written no more than a file holds. -/
theorem writeChunks_fits (D : Digest) (now : ℤ) (temp : Path) (l : List (Except StorageError Bytes))
    (hasher : D.Hasher) (n : ℕ) (t : FileTree) {old : Bytes} (ht : t.files temp = some old)
    (hold : old.length ≤ t.limits.maxFileSize) {out : D.Hasher × ℕ}
    (h : (FsM.run now (writeChunks D temp l hasher n) t).1 = .ok out) :
    (old ++ (okChunks l).flatten).length ≤ t.limits.maxFileSize := by
  induction l generalizing hasher n t old with
  | nil => simpa [okChunks] using hold
  | cons item l ih =>
    cases item with
    | error e => simpa [okChunks] using hold
    | ok chunk =>
      simp only [writeChunks, Prog.bind_eq_bind, FsM.run_bind, Fs.run_append] at h
      by_cases hfit : old.length + chunk.length ≤ t.limits.maxFileSize
      · obtain ⟨hr, hf, hs⟩ := append_fits ht hfit now
        rw [hr] at h
        have hnew : (t.append temp chunk now).2.files temp = some (old ++ chunk) := by
          rw [hf, Function.update_self]
        have hrest := ih _ _ _ hnew (by rw [hs.2, List.length_append]; exact hfit) h
        rwa [hs.2, List.append_assoc, ← List.flatten_cons] at hrest
      · rw [append_result ht, if_neg hfit] at h
        cases h

theorem writeStreamToTemp_fits {D : Digest} {now : ℤ} {temp : Path} {body : StorageByteStream}
    {t : FileTree} {out : BlobWriteOutcome}
    (h : (FsM.run now (writeStreamToTemp D temp body) t).1 = .ok out) :
    t.CanPlace temp ∧ ∃ b, body.body = .ok b ∧ b.length ≤ t.limits.maxFileSize := by
  obtain ⟨content, _, _, hok⟩ := writeStreamToTemp_spec D now temp body t
  obtain ⟨b, _, hb, _⟩ := hok out h
  by_cases hc : t.CanPlace temp
  · refine ⟨hc, b, hb, ?_⟩
    obtain ⟨hr, hf, hs⟩ := createFile_of_canPlace hc now
    simp only [writeStreamToTemp, Prog.bind_eq_bind, FsM.run_bind, Fs.run_createFile, hr] at h
    cases hw : (FsM.run now (writeChunks D temp body.inner D.new 0) (t.createFile temp now).2).1 with
    | error e => simp [hw] at h
    | ok r =>
      have htemp : (t.createFile temp now).2.files temp = some [] := by
        rw [hf, Function.update_self]
      have hfits := writeChunks_fits D now temp body.inner D.new 0 _ htemp (Nat.zero_le _) hw
      rwa [hs.2, List.nil_append, (StorageByteStream.body_eq_ok.mp hb).2] at hfits
  · simp only [writeStreamToTemp, Prog.bind_eq_bind, FsM.run_bind, Fs.run_createFile,
      createFile_of_not_canPlace hc] at h
    cases h

/-- An upload that does not fit fails. -/
theorem uploadThen_of_not_fits {α : Type} (D : Digest) {u : Uuid} {key : Str}
    {body : StorageByteStream}
    (publish : Path → Path → BlobWriteOutcome → FsM (Except StorageError α)) (now : ℤ) {t : FileTree}
    (hk : ValidKey key) (h : ¬ UploadFits t u key body) :
    ∃ e, (FsM.run now (uploadThen D u key body publish) t).1 = .error e := by
  simp only [uploadThen, pathFor_of_valid hk, Prog.bind_eq_bind, FsM.run_bind]
  have hp := splitOn_ne_nil key
  obtain ⟨_, hg⟩ := createParentDir_spec now t (key.splitOn '/')
  cases hr : (FsM.run now (createParentDir (key.splitOn '/')) t).1 with
  | error e => exact ⟨e, rfl⟩
  | ok _ =>
    generalize (FsM.run now (createParentDir (key.splitOn '/')) t).2 = t₁ at hg
    simp only [tempPathFor_eq hp, FsM.run_bind]
    cases hw : (FsM.run now (writeStreamToTemp D (tempPath (key.splitOn '/') u) body) t₁).1 with
    | error e => exact ⟨e, rfl⟩
    | ok out =>
      exfalso
      obtain ⟨hc, b, hb, hfit⟩ := writeStreamToTemp_fits hw
      rw [hg.limits] at hfit
      refine h ⟨?_, b, hb, hfit⟩
      rw [← hg.limits]
      exact (canPlace_iff.mp hc).2.1 _ (List.mem_append_right _ (List.mem_singleton.mpr rfl))

theorem resolveErrorFrom_ne_alreadyExists (t : FileTree) (base path : Path) :
    t.resolveErrorFrom base path ≠ .alreadyExists := by
  induction path generalizing base with
  | nil => simp [resolveErrorFrom]
  | cons c cs ih =>
    unfold resolveErrorFrom
    split
    · exact ih _
    · simp
    · split <;> simp

/-- A link reports an existing target only where there is one. -/
theorem hardLink_alreadyExists_iff {t : FileTree} {src dst : Path} {b : Bytes}
    (hs : t.files src = some b) :
    (t.hardLink src dst).1 = .error .alreadyExists ↔ t.lookup dst ≠ none := by
  obtain ⟨m, hm⟩ := files_eq_some.mp hs
  simp only [hardLink, hm]
  cases hd : t.lookup dst with
  | some n => simp
  | none =>
    have hplace : t.placeError dst ≠ .alreadyExists := by
      simp only [placeError, hd, reduceCtorEq, if_false]
      exact resolveErrorFrom_ne_alreadyExists t [] dst
    by_cases hc : t.CanPlace dst <;> simp [hc, hplace]

/-- Making the parent does not put a directory at the path itself. -/
theorem GrowsDirs.isDir_eq {t t' : FileTree} {path : Path} (h : GrowsDirs path.dropLast t t')
    (hp : path ≠ []) : t'.isDir path = t.isDir path := by
  rw [Bool.eq_iff_iff]
  constructor
  · intro hdir
    rcases h.added _ hdir with hdir | hpre
    · exact hdir
    · have hlen := hpre.length_le
      have hpos := List.length_pos_iff.mpr hp
      rw [List.length_dropLast] at hlen
      omega
  · exact h.mono path

/-- How `put_blob_if_not_exists` publishes its temporary file. -/
def linkNew (temp path : Path) (outcome : BlobWriteOutcome) :
    FsM (Except StorageError (Option BlobWriteOutcome)) := do
  match ← Fs.hardLink temp path with
  | .ok () => discardTemp temp (.ok (some outcome))
  | .error .alreadyExists => discardTemp temp (.ok none)
  | .error source => discardTemp temp (.error (.io path source))

theorem putBlobIfNotExists_eq (D : Digest) (u : Uuid) (key : Str) (body : StorageByteStream)
    (options : BlobPutOptions) :
    putBlobIfNotExists D u key body options = uploadThen D u key body linkNew := rfl

/-- Once the temporary file is there, the answer is whether the path named something before. -/
theorem linkNew_none_iff {u : Uuid} {key : Str} {now : ℤ} {t t₂ : FileTree} {b : Bytes}
    (hf : t₂.files = Function.update t.files (tempPath (key.splitOn '/') u) (some b))
    (hg : GrowsDirs (key.splitOn '/').dropLast t t₂) (outcome : BlobWriteOutcome) :
    (FsM.run now (linkNew (tempPath (key.splitOn '/') u) (key.splitOn '/') outcome) t₂).1 =
      .ok none ↔ t.lookup (key.splitOn '/') ≠ none := by
  have hp := splitOn_ne_nil key
  have htemp : t₂.files (tempPath (key.splitOn '/') u) = some b := by rw [hf, Function.update_self]
  have hlookup : t₂.lookup (key.splitOn '/') = none ↔ t.lookup (key.splitOn '/') = none := by
    rw [lookup_eq_none_iff, lookup_eq_none_iff, hg.isDir_eq hp, hf,
      Function.update_of_ne (tempPath_ne hp u).symm]
  rw [ne_eq, ← hlookup, ← ne_eq, ← hardLink_alreadyExists_iff htemp]
  simp only [linkNew, Prog.bind_eq_bind, FsM.run_bind, Fs.run_hardLink]
  cases hr : (t₂.hardLink (tempPath (key.splitOn '/') u) (key.splitOn '/')).1 with
  | ok _ => simp [discardTemp]
  | error e => cases e <;> simp [discardTemp]

/-- In every tree, and so in every state that a run reaches: for every valid key and every body,
a conditional write that reports an existing blob is right exactly when no directory is at the
path of the key, or the upload does not fit. -/
theorem already_exists_right_iff (D : Digest) (t : FileTree) (u : Uuid) (hu : FreshUuid t u)
    (key : Str) (hk : ValidKey key) (body : StorageByteStream) (options : BlobPutOptions) (now : ℤ) :
    ((FsM.run now (putBlobIfNotExists D u key body options) t).1 = .ok none →
      ∃ b, collectBlob now key
        (FsM.run now (putBlobIfNotExists D u key body options) t).2 = .ok b) ↔
    t.isDir (key.splitOn '/') = false ∨ ¬ UploadFits t u key body := by
  have hp := splitOn_ne_nil key
  -- The content of the key is not changed by a write that reports an existing blob.
  have hkept : (FsM.run now (putBlobIfNotExists D u key body options) t).1 = .ok none →
      ∀ b, collectBlob now key (FsM.run now (putBlobIfNotExists D u key body options) t).2 =
        .ok b ↔ t.files (key.splitOn '/') = some b := by
    intro hnone b
    rw [collectBlob_eq_ok hk]
    rcases putBlobIfNotExists_spec D u key body options now t (hu.tempPath _) with
      ⟨_, hfiles, _⟩ | ⟨_, _, _, _, hsome, _⟩
    · rw [hfiles]
    · rw [hsome] at hnone
      cases hnone
  constructor
  · intro h
    by_contra hnot
    obtain ⟨hdir, htemp, b, hb, hfit⟩ : t.isDir (key.splitOn '/') = true ∧ UploadFits t u key body :=
      ⟨by simpa using (not_or.mp hnot).1, not_not.mp (not_or.mp hnot).2⟩
    have hlookup := isDir_iff.mp hdir
    have hno : ∀ q, q <+: (key.splitOn '/').dropLast → t.files q = none := by
      intro q hq
      obtain ⟨rest, hrest⟩ := hq.trans (List.dropLast_prefix _)
      rw [← hrest] at hdir
      exact files_of_lookup_dir (isDir_iff.mp (isDir_of_isDir_append hdir))
    have h₀ : t.lookup (tempPath (key.splitOn '/') u) = none :=
      hu.files_none (List.mem_append_right _ (List.mem_singleton.mpr rfl)) (infix_tempName _ u)
    obtain ⟨t₂, hf, hg, _, hrun⟩ := uploadThen_succeeds D u linkNew now hk hb
      (accepted_of_lookup hlookup) htemp hno h₀ hfit
    have hnone : (FsM.run now (putBlobIfNotExists D u key body options) t).1 = .ok none := by
      rw [putBlobIfNotExists_eq, hrun, linkNew_none_iff hf hg, hlookup]
      exact Option.some_ne_none _
    obtain ⟨c, hc⟩ := h hnone
    rw [hkept hnone, files_of_lookup_dir hlookup] at hc
    cases hc
  · intro h hnone
    have hupload := hnone
    rw [putBlobIfNotExists_eq] at hupload
    rcases h with hdir | hfits
    · rcases uploadThen_spec D u key body linkNew now t (hu.tempPath _) with
        ⟨e, he, _⟩ | ⟨b, t₂, _, _, hf, hg, hrun⟩
      · rw [he] at hupload
        cases hupload
      · rw [hrun, linkNew_none_iff hf hg] at hupload
        cases hfile : t.files (key.splitOn '/') with
        | none => exact absurd (lookup_eq_none_iff.mpr ⟨hfile, hdir⟩) hupload
        | some c => exact ⟨c, (hkept hnone c).mpr hfile⟩
    · obtain ⟨e, he⟩ := uploadThen_of_not_fits D linkNew now hk hfits
      rw [he] at hupload
      cases hupload

/-- The key of a stored blob. -/
theorem already_exists_right_stored : ∃ log M,
    BlobRun Digest.sha256 Limits.widest log nestedTree M ∧
      ∃ b, collectBlob 0 "a/b".toList (FsM.run 0 (putBlobIfNotExists Digest.sha256 (sampleUuid 1)
        "a/b".toList ⟨[.ok [2]], none⟩ ⟨none⟩) nestedTree).2 = .ok b := by
  obtain ⟨log, M, hrun, _⟩ := nestedTree_run
  refine ⟨log, M, hrun, ?_⟩
  exact (already_exists_right_iff Digest.sha256 nestedTree (sampleUuid 1) (by decide +kernel)
    "a/b".toList (by decide) ⟨[.ok [2]], none⟩ ⟨none⟩ 0).mpr (Or.inl (by decide +kernel))
    (by decide +kernel)

/-- A key that names only a directory is reported to exist. -/
theorem already_exists_nothing_stored : ¬ ∀ (D : Digest) (limits : Limits)
    (log : List (BlobEvent × BlobReply)) (t : FileTree) (M : BlobMap),
    BlobRun D limits log t M → ∀ (u : Uuid), FreshUuid t u → ∀ (key : Str), ValidKey key →
      ∀ (body : StorageByteStream) (options : BlobPutOptions) (now : ℤ),
        (FsM.run now (putBlobIfNotExists D u key body options) t).1 = .ok none →
          ∃ b, collectBlob now key
            (FsM.run now (putBlobIfNotExists D u key body options) t).2 = .ok b := by
  intro h
  obtain ⟨log, M, hrun, _⟩ := nestedTree_run
  obtain ⟨b, hb⟩ := h _ _ _ _ _ hrun (sampleUuid 1) (by decide +kernel) "a".toList (by decide)
    ⟨[.ok [2]], none⟩ ⟨none⟩ 0 (by decide +kernel)
  rw [collectBlob_eq_ok (by decide)] at hb
  have hnone : (FsM.run 0 (putBlobIfNotExists Digest.sha256 (sampleUuid 1) "a".toList
      ⟨[.ok [2]], none⟩ ⟨none⟩) nestedTree).2.files ("a".toList.splitOn '/') = none := by
    decide +kernel
  rw [hnone] at hb
  cases hb

end GraphqlOrmStorage.Local
