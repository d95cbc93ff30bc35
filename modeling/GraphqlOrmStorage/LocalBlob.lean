import GraphqlOrmStorage.Local

/-!
# The local blob store refines a map from keys to bytes

Each mutating operation prepares its bytes in a temporary file next to the
target and publishes them with one call. The lemmas below say what a whole
operation does to the regular files of the tree: it writes one key, erases one
key, or changes nothing. The abstract store is a map from keys to bytes; every
run of operations from an empty root keeps the files under valid keys equal to
that map.
-/
namespace GraphqlOrmStorage.Local

open Text Program FileTree

/-- The drawn UUID occurs in no name below the root. -/
def FreshUuid (t : FileTree) (u : Uuid) : Prop :=
  ∀ e ∈ t.entries, ∀ c ∈ e.1, ¬ u.toStr <:+: c

instance (t : FileTree) (u : Uuid) : Decidable (FreshUuid t u) :=
  inferInstanceAs (Decidable (∀ e ∈ t.entries, ∀ c ∈ e.1, ¬ u.toStr <:+: c))

/-- The path of the temporary file an operation on `path` uses. -/
def tempPath (path : Path) (u : Uuid) : Path := path.dropLast ++ [tempName (path.getLast?.getD []) u]

theorem infix_tempName (name : Str) (u : Uuid) : u.toStr <:+: tempName name u :=
  ⟨name ++ ['.'], uploadingSuffix, by simp [tempName]⟩

theorem FreshUuid.files_none {t : FileTree} {u : Uuid} (h : FreshUuid t u) {p : Path} {c : Str}
    (hc : c ∈ p) (hu : u.toStr <:+: c) : t.lookup p = none := by
  cases hl : t.lookup p with
  | none => rfl
  | some n =>
    have hp : p ≠ [] := by rintro rfl; simp at hc
    exact absurd hu (h (p, n) ((t.mem_entries_iff p n).mpr ⟨hp, hl⟩) c hc)

theorem FreshUuid.tempPath {t : FileTree} {u : Uuid} (h : FreshUuid t u) (path : Path) :
    t.files (tempPath path u) = none :=
  files_of_lookup_none (h.files_none (List.mem_append_right _ (List.mem_singleton.mpr rfl))
    (infix_tempName _ u))

theorem tempPath_ne {path : Path} (hp : path ≠ []) (u : Uuid) : tempPath path u ≠ path := by
  intro h
  obtain ⟨init, last, rfl⟩ : ∃ init last, path = init ++ [last] :=
    ⟨path.dropLast, path.getLast hp, (List.dropLast_append_getLast hp).symm⟩
  simp only [tempPath, List.dropLast_concat, List.getLast?_concat, Option.getD_some] at h
  have hl := congrArg List.length (List.append_cancel_left h)
  have he : tempName last u = last := by simpa using List.append_cancel_left h
  have := congrArg List.length he
  simp only [tempName, List.length_append, List.length_cons] at this
  omega

theorem tempPathFor_eq {path : Path} (hp : path ≠ []) (key : Str) (u : Uuid) :
    tempPathFor path key u = .ok (tempPath path u) := by
  unfold tempPathFor tempPath
  rw [List.getLast?_eq_some_getLast hp]
  rfl

theorem pathFor_of_valid {key : Str} (h : ValidKey key) : pathFor key = .ok (key.splitOn '/') := by
  simp only [pathFor, validateBlobKey_eq_ok.mpr h, h.relativePath_eq]

theorem pathFor_of_not_valid {key : Str} (h : ¬ ValidKey key) :
    pathFor key = .error (.invalidStorageKey key) := by
  simp only [pathFor, validateBlobKey_error h]

/-! ### Preparing the parent directory -/

/-- The limits are the same, no directory was lost, and directories were added only on
the way to `p`. -/
structure GrowsDirs (p : Path) (t t' : FileTree) : Prop where
  limits : t'.limits = t.limits
  mono : ∀ q, t.isDir q = true → t'.isDir q = true
  added : ∀ q, t'.isDir q = true → t.isDir q = true ∨ q <+: p

theorem GrowsDirs.refl (p : Path) (t : FileTree) : GrowsDirs p t t :=
  ⟨rfl, fun _ h => h, fun _ h => Or.inl h⟩

theorem GrowsDirs.trans_same {p : Path} {t t₁ t₂ : FileTree} (h : GrowsDirs p t t₁)
    (hs : SameDirs t₁ t₂) : GrowsDirs p t t₂ :=
  ⟨hs.2.trans h.limits, fun q hq => by rw [hs.1]; exact h.mono q hq,
    fun q hq => h.added q (by rwa [hs.1] at hq)⟩

theorem createParentDir_spec (now : ℤ) (t : FileTree) (path : Path) :
    (FsM.run now (createParentDir path) t).2.files = t.files ∧
      GrowsDirs path.dropLast t (FsM.run now (createParentDir path) t).2 := by
  unfold createParentDir
  split_ifs with hp
  · exact ⟨rfl, GrowsDirs.refl _ t⟩
  · obtain ⟨hf, hl, ha⟩ := t.createDirsFrom_frame [] path.dropLast
    simp only [Prog.bind_eq_bind, FsM.run_bind, Fs.run_createDirAll]
    split <;> exact ⟨hf, hl, fun _ h => t.createDirsFrom_mono [] path.dropLast h,
      fun q hq => (ha q hq).imp_right And.left⟩

/-- The parent is a directory once the preparation succeeded. -/
theorem createParentDir_ok {now : ℤ} {t : FileTree} {path : Path}
    (h : (FsM.run now (createParentDir path) t).1 = .ok ()) :
    path ≠ [] ∧ (FsM.run now (createParentDir path) t).2.isDir path.dropLast = true := by
  by_cases hp : path = []
  · simp [createParentDir, hp] at h
  refine ⟨hp, ?_⟩
  simp only [createParentDir, if_neg hp, Prog.bind_eq_bind, FsM.run_bind,
    Fs.run_createDirAll] at h ⊢
  cases hr : (t.createDirAll path.dropLast).1 with
  | error e => simp [hr] at h
  | ok u =>
    have hd : (t.createDirAll path.dropLast).2.isDir path.dropLast = true :=
      createDirsFrom_ok (by simp [isDir]) hr
    simpa [hr] using hd

theorem createParentDir_succeeds (now : ℤ) {t : FileTree} {path : Path} (hp : path ≠ [])
    (hacc : ∀ c ∈ path, t.limits.acceptsName c) (hno : ∀ q, q <+: path.dropLast → t.files q = none) :
    (FsM.run now (createParentDir path) t).1 = .ok () := by
  have hr : (t.createDirAll path.dropLast).1 = .ok () := by
    apply createDirsFrom_succeeds (by simp [isDir])
    · exact fun c hc => hacc c (List.mem_of_mem_dropLast hc)
    · simpa using hno
  simp [createParentDir, hp, hr]

/-! ### Writing the temporary file -/

/-- One append that fits leaves the old content followed by the chunk. -/
theorem append_fits {t : FileTree} {p : Path} {old : Bytes} (h : t.files p = some old) {b : Bytes}
    (hfit : old.length + b.length ≤ t.limits.maxFileSize) (now : ℤ) :
    (t.append p b now).1 = .ok () ∧
      (t.append p b now).2.files = Function.update t.files p (some (old ++ b)) ∧
      SameDirs t (t.append p b now).2 := by
  obtain ⟨hf, hd⟩ := append_files h b now
  refine ⟨by rw [append_result h, if_pos hfit], ?_, hd⟩
  rw [hf, List.take_of_length_le (by simpa using hfit)]

/-- The loop appends the chunks before the first error. On success the hasher has seen
them all and the counter is the length of the file, which never saturates because a
file is shorter than `2^63` bytes. -/
theorem writeChunks_spec (D : Digest) (now : ℤ) (temp : Path) (l : List (Except StorageError Bytes))
    (hasher : D.Hasher) (t : FileTree) (old : Bytes) (ht : t.files temp = some old) :
    ∃ content, (FsM.run now (writeChunks D temp l hasher old.length) t).2.files =
        Function.update t.files temp (some content) ∧
      SameDirs t (FsM.run now (writeChunks D temp l hasher old.length) t).2 ∧
      ∀ out, (FsM.run now (writeChunks D temp l hasher old.length) t).1 = .ok out →
        firstError l = none ∧ content = old ++ (okChunks l).flatten ∧
          out = ((okChunks l).foldl D.update hasher, content.length) := by
  induction l generalizing hasher t old with
  | nil =>
    refine ⟨old, ?_, SameDirs.refl t, ?_⟩
    · simp [writeChunks, ← ht]
    · intro out ho
      simpa [writeChunks, okChunks, firstError, eq_comm] using ho
  | cons x l ih =>
    cases x with
    | error e =>
      refine ⟨old, ?_, SameDirs.refl t, ?_⟩
      · simp [writeChunks, ← ht]
      · intro out ho
        simp [writeChunks] at ho
    | ok chunk =>
      simp only [writeChunks, Prog.bind_eq_bind, FsM.run_bind, Fs.run_append]
      by_cases hfit : old.length + chunk.length ≤ t.limits.maxFileSize
      · obtain ⟨hr, hf, hd⟩ := append_fits ht hfit now
        have hlen : saturatingAdd old.length chunk.length = (old ++ chunk).length := by
          rw [saturatingAdd_eq hfit t.limits.offset_bound, List.length_append]
        obtain ⟨content, hc, hs, ho⟩ := ih (D.update hasher chunk) (t.append temp chunk now).2
          (old ++ chunk) (by simp [hf])
        simp only [hr, hlen]
        refine ⟨content, ?_, hd.trans hs, fun out hout => ?_⟩
        · rw [hc, hf, Function.update_idem]
        · obtain ⟨h1, h2, h3⟩ := ho out hout
          exact ⟨h1, by rw [h2, okChunks, List.flatten_cons, List.append_assoc], h3⟩
      · obtain ⟨hf, hd⟩ := append_files ht chunk now
        have hr : (t.append temp chunk now).1 = .error .fileTooLarge := by
          rw [append_result ht, if_neg hfit]
        simp only [hr]
        exact ⟨_, hf, hd, by simp⟩

/-- Whatever happens while writing, only the temporary file changes; when the write
succeeds the stream had no error, the file holds the whole body and the outcome
describes it. -/
theorem writeStreamToTemp_spec (D : Digest) (now : ℤ) (temp : Path) (body : StorageByteStream)
    (t : FileTree) :
    ∃ content, (FsM.run now (writeStreamToTemp D temp body) t).2.files =
        Function.update t.files temp content ∧
      SameDirs t (FsM.run now (writeStreamToTemp D temp body) t).2 ∧
      ∀ out, (FsM.run now (writeStreamToTemp D temp body) t).1 = .ok out →
        ∃ b, content = some b ∧ body.body = .ok b ∧ out = ⟨b.length, sha256Hex D b⟩ := by
  simp only [writeStreamToTemp, Prog.bind_eq_bind, FsM.run_bind, Fs.run_createFile]
  by_cases hc : t.CanPlace temp
  · obtain ⟨hr, hf, hd⟩ := createFile_of_canPlace hc now
    obtain ⟨content, hw, hs, ho⟩ := writeChunks_spec D now temp body.inner D.new
      (t.createFile temp now).2 [] (by simp [hf])
    simp only [List.length_nil] at hw hs ho
    simp only [hr, FsM.run_bind]
    cases hrun : (FsM.run now (writeChunks D temp body.inner D.new 0) (t.createFile temp now).2).1 with
    | error e =>
      refine ⟨some content, ?_, hd.trans hs, by simp⟩
      simp [hw, hf]
    | ok out =>
      obtain ⟨h1, h2, rfl⟩ := ho out hrun
      simp only [List.nil_append] at h2
      refine ⟨some content, ?_, hd.trans hs, ?_⟩
      · simp [hw, hf]
      · intro o hout
        refine ⟨content, rfl, StorageByteStream.body_eq_ok.mpr ⟨h1, h2.symm⟩, ?_⟩
        simpa [D.finalize_foldl, ← h2, sha256Hex, eq_comm] using hout
  · rw [createFile_of_not_canPlace hc]
    exact ⟨t.files temp, by simp, SameDirs.refl t, by simp⟩

/-- When the temporary file can be created and the body fits, the write succeeds. -/
theorem writeChunks_succeeds (D : Digest) (now : ℤ) (temp : Path)
    (l : List (Except StorageError Bytes)) (hl : firstError l = none) (hasher : D.Hasher) (n : ℕ)
    (t : FileTree) (old : Bytes) (ht : t.files temp = some old)
    (hfit : (old ++ (okChunks l).flatten).length ≤ t.limits.maxFileSize) :
    ∃ out, (FsM.run now (writeChunks D temp l hasher n) t).1 = .ok out := by
  induction l generalizing hasher n t old with
  | nil => exact ⟨_, rfl⟩
  | cons x l ih =>
    cases x with
    | error e => simp [firstError] at hl
    | ok chunk =>
      have hlen : old.length + chunk.length ≤ t.limits.maxFileSize := by
        simp only [okChunks, List.flatten_cons, List.length_append] at hfit
        omega
      obtain ⟨hr, hf, hd⟩ := append_fits ht hlen now
      simp only [writeChunks, Prog.bind_eq_bind, FsM.run_bind, Fs.run_append, hr]
      refine ih (by simpa [firstError] using hl) _ _ _ (old ++ chunk) (by simp [hf]) ?_
      rw [hd.2]
      simpa [okChunks] using hfit

theorem writeStreamToTemp_succeeds (D : Digest) (now : ℤ) {temp : Path} {body : StorageByteStream}
    {b : Bytes} (hb : body.body = .ok b) {t : FileTree} (hc : t.CanPlace temp)
    (hfit : b.length ≤ t.limits.maxFileSize) :
    ∃ out, (FsM.run now (writeStreamToTemp D temp body) t).1 = .ok out := by
  obtain ⟨h1, h2⟩ := StorageByteStream.body_eq_ok.mp hb
  obtain ⟨hr, hf, hd⟩ := createFile_of_canPlace hc now
  obtain ⟨out, ho⟩ := writeChunks_succeeds D now temp body.inner h1 D.new 0
    (t.createFile temp now).2 [] (by simp [hf]) (by rw [hd.2]; simpa [h2] using hfit)
  exact ⟨_, by
    simp only [writeStreamToTemp, Prog.bind_eq_bind, FsM.run_bind, Fs.run_createFile, hr, ho]
    rfl⟩

/-- Discarding the temporary file leaves the files there are besides it. -/
theorem discardTemp_files {α : Type} (now : ℤ) (temp : Path) (result : α) {t : FileTree}
    {others : Path → Option Bytes} {content : Option Bytes}
    (hf : t.files = Function.update others temp content) (h₀ : others temp = none) :
    (FsM.run now (discardTemp temp result) t).1 = result ∧
      (FsM.run now (discardTemp temp result) t).2.files = others ∧
      SameDirs t (FsM.run now (discardTemp temp result) t).2 := by
  obtain ⟨h1, h2⟩ := removeFile_files t temp
  refine ⟨rfl, ?_, h2⟩
  show (t.removeFile temp).2.files = others
  rw [h1, hf, Function.update_idem, ← h₀, Function.update_eq_self]

/-! ### Whole operations -/

/-- The operation left the files as they were, but may have made directories on the way
to the parent of `path`. -/
def Untouched (path : Path) (t t' : FileTree) : Prop :=
  t'.files = t.files ∧ GrowsDirs path.dropLast t t'

/-- The operation put `b` at `path` and changed no other file. -/
def Wrote (path : Path) (b : Bytes) (t t' : FileTree) : Prop :=
  t'.files = Function.update t.files path (some b) ∧ GrowsDirs path.dropLast t t'

theorem splitOn_ne_nil (key : Str) : key.splitOn '/' ≠ [] := List.splitOn_ne_nil '/' key

/-- Moving the finished temporary file over the target writes exactly the target. -/
theorem rename_temp_files {t : FileTree} {others : Path → Option Bytes} {temp path : Path}
    {b : Bytes} (hne : temp ≠ path) (hf : t.files = Function.update others temp (some b))
    (h₀ : others temp = none) (hr : (t.rename temp path).1 = .ok ()) :
    (t.rename temp path).2.files = Function.update others path (some b) ∧
      SameDirs t (t.rename temp path).2 := by
  obtain ⟨b', hb', hc⟩ := rename_ok hr
  obtain rfl : b = b' := by simpa [hf] using hb'
  obtain ⟨_, hfiles, hd⟩ := rename_of_canPlace hb' hc hne
  refine ⟨?_, hd⟩
  rw [hfiles, hf, Function.update_comm hne, Function.update_idem]
  have hp : Function.update others path (some b) temp = none := by
    rw [Function.update_of_ne hne, h₀]
  rw [← hp, Function.update_eq_self]

/-- Either the upload fails and leaves the files alone, or `publish` runs in a tree whose
only new file is the temporary one, holding the whole body. -/
theorem uploadThen_spec {α : Type} (D : Digest) (u : Uuid) (key : Str) (body : StorageByteStream)
    (publish : Path → Path → BlobWriteOutcome → FsM (Except StorageError α)) (now : ℤ) (t : FileTree)
    (h₀ : t.files (tempPath (key.splitOn '/') u) = none) :
    (∃ e, (FsM.run now (uploadThen D u key body publish) t).1 = .error e ∧
      Untouched (key.splitOn '/') t (FsM.run now (uploadThen D u key body publish) t).2) ∨
    ∃ b t₂, ValidKey key ∧ body.body = .ok b ∧
      t₂.files = Function.update t.files (tempPath (key.splitOn '/') u) (some b) ∧
      GrowsDirs (key.splitOn '/').dropLast t t₂ ∧
      FsM.run now (uploadThen D u key body publish) t = FsM.run now
        (publish (tempPath (key.splitOn '/') u) (key.splitOn '/') ⟨b.length, sha256Hex D b⟩) t₂ := by
  by_cases hk : ValidKey key
  swap
  · left
    simpa [uploadThen, pathFor_of_not_valid hk, Untouched] using GrowsDirs.refl _ t
  simp only [uploadThen, pathFor_of_valid hk, Prog.bind_eq_bind, FsM.run_bind]
  generalize hpath : key.splitOn '/' = path at h₀ ⊢
  have hp : path ≠ [] := hpath ▸ splitOn_ne_nil key
  obtain ⟨hf₁, hg₁⟩ := createParentDir_spec now t path
  cases hr₁ : (FsM.run now (createParentDir path) t).1 with
  | error e => exact Or.inl ⟨e, rfl, hf₁, hg₁⟩
  | ok _ =>
    generalize (FsM.run now (createParentDir path) t).2 = t₁ at hf₁ hg₁
    simp only [tempPathFor_eq hp, FsM.run_bind]
    obtain ⟨content, hf₂, hs₂, ho₂⟩ := writeStreamToTemp_spec D now (tempPath path u) body t₁
    generalize FsM.run now (writeStreamToTemp D (tempPath path u) body) t₁ = w at hf₂ hs₂ ho₂ ⊢
    obtain ⟨r₂, t₂⟩ := w
    rw [hf₁] at hf₂
    dsimp only at hf₂ hs₂ ho₂
    have hg₂ := hg₁.trans_same hs₂
    cases r₂ with
    | error e =>
      obtain ⟨h1, h2, h3⟩ := discardTemp_files now (tempPath path u)
        (.error e : Except StorageError α) hf₂ h₀
      exact Or.inl ⟨e, h1, h2, hg₂.trans_same h3⟩
    | ok outcome =>
      obtain ⟨b, rfl, hb, rfl⟩ := ho₂ outcome rfl
      exact Or.inr ⟨b, t₂, hk, hb, hf₂, hg₂, rfl⟩

/-- The upload stage succeeds when no file is in the way of the parent directory, nothing is
at the temporary path, the filesystem takes the names and the body fits. -/
theorem uploadThen_succeeds {α : Type} (D : Digest) (u : Uuid) {key : Str} {body : StorageByteStream}
    (publish : Path → Path → BlobWriteOutcome → FsM (Except StorageError α)) (now : ℤ) {t : FileTree}
    {b : Bytes} (hk : ValidKey key) (hb : body.body = .ok b)
    (hacc : ∀ c ∈ key.splitOn '/', t.limits.acceptsName c)
    (htemp : t.limits.acceptsName (tempName ((key.splitOn '/').getLast?.getD []) u))
    (hno : ∀ q, q <+: (key.splitOn '/').dropLast → t.files q = none)
    (h₀ : t.lookup (tempPath (key.splitOn '/') u) = none) (hfit : b.length ≤ t.limits.maxFileSize) :
    ∃ t₂, t₂.files = Function.update t.files (tempPath (key.splitOn '/') u) (some b) ∧
      GrowsDirs (key.splitOn '/').dropLast t t₂ ∧ t₂.isDir (key.splitOn '/').dropLast = true ∧
      FsM.run now (uploadThen D u key body publish) t = FsM.run now
        (publish (tempPath (key.splitOn '/') u) (key.splitOn '/') ⟨b.length, sha256Hex D b⟩) t₂ := by
  simp only [uploadThen, pathFor_of_valid hk, Prog.bind_eq_bind, FsM.run_bind]
  generalize hpath : key.splitOn '/' = path at hacc htemp hno h₀ ⊢
  have hp : path ≠ [] := hpath ▸ splitOn_ne_nil key
  have hlen := List.length_pos_iff.mpr hp
  have hr₁ := createParentDir_succeeds now hp hacc hno
  obtain ⟨hf₁, hg₁⟩ := createParentDir_spec now t path
  have hd₁ := (createParentDir_ok hr₁).2
  rw [hr₁]
  generalize (FsM.run now (createParentDir path) t).2 = t₁ at hf₁ hg₁ hd₁
  simp only [tempPathFor_eq hp, FsM.run_bind]
  have hc : t₁.CanPlace (tempPath path u) := by
    refine canPlace_iff.mpr ⟨by simp [tempPath], fun c hm => ?_, by simpa [tempPath] using hd₁, ?_⟩
    · rw [hg₁.limits]
      rcases List.mem_append.mp hm with hm | hm
      · exact hacc c (List.mem_of_mem_dropLast hm)
      · rw [List.mem_singleton.mp hm]; exact htemp
    · -- No directory made for the parent is as deep as the temporary file.
      by_contra hdir
      rcases hg₁.added _ (by simpa using hdir) with h | h
      · rw [(lookup_eq_none_iff.mp h₀).2] at h
        cases h
      · have := h.length_le
        simp only [tempPath, List.length_append, List.length_dropLast, List.length_singleton] at this
        omega
  obtain ⟨out, hout⟩ := writeStreamToTemp_succeeds D now hb hc (by rw [hg₁.limits]; exact hfit)
  obtain ⟨content, hf₂, hs₂, ho₂⟩ := writeStreamToTemp_spec D now (tempPath path u) body t₁
  obtain ⟨b', rfl, hb', rfl⟩ := ho₂ out hout
  obtain rfl : b = b' := by simpa [hb] using hb'
  rw [hf₁] at hf₂
  simp only [hout]
  exact ⟨_, hf₂, hg₁.trans_same hs₂, by rw [hs₂.1]; exact hd₁, rfl⟩

/-- `put_blob` either writes the whole body at the key or changes no file. -/
theorem putBlob_spec (D : Digest) (u : Uuid) (key : Str) (body : StorageByteStream)
    (options : BlobPutOptions) (now : ℤ) (t : FileTree)
    (h₀ : t.files (tempPath (key.splitOn '/') u) = none) :
    (∃ e, (FsM.run now (putBlob D u key body options) t).1 = .error e ∧
      Untouched (key.splitOn '/') t (FsM.run now (putBlob D u key body options) t).2) ∨
    ∃ b, ValidKey key ∧ body.body = .ok b ∧
      (FsM.run now (putBlob D u key body options) t).1 = .ok ⟨b.length, sha256Hex D b⟩ ∧
      Wrote (key.splitOn '/') b t (FsM.run now (putBlob D u key body options) t).2 := by
  have hp := splitOn_ne_nil key
  unfold putBlob
  rcases uploadThen_spec D u key body _ now t h₀ with h | ⟨b, t₂, hk, hb, hf, hg, hrun⟩
  · exact Or.inl h
  · rw [hrun]
    simp only [Prog.bind_eq_bind, FsM.run_bind, Fs.run_rename]
    cases hr : (t₂.rename (tempPath (key.splitOn '/') u) (key.splitOn '/')).1 with
    | error e =>
      rw [rename_error hr]
      obtain ⟨h1, h2, h3⟩ := discardTemp_files now (tempPath (key.splitOn '/') u)
        (.error (.io (key.splitOn '/') e) : Except StorageError BlobWriteOutcome) hf h₀
      exact Or.inl ⟨_, h1, h2, hg.trans_same h3⟩
    | ok _ =>
      obtain ⟨hfiles, hd⟩ := rename_temp_files (tempPath_ne hp u) hf h₀ hr
      exact Or.inr ⟨b, hk, hb, rfl, hfiles, hg.trans_same hd⟩

/-- `put_blob` succeeds when the upload does and no directory is at the key. -/
theorem putBlob_succeeds (D : Digest) (u : Uuid) {key : Str} {body : StorageByteStream}
    (options : BlobPutOptions) (now : ℤ) {t : FileTree} {b : Bytes} (hk : ValidKey key)
    (hb : body.body = .ok b) (hacc : ∀ c ∈ key.splitOn '/', t.limits.acceptsName c)
    (htemp : t.limits.acceptsName (tempName ((key.splitOn '/').getLast?.getD []) u))
    (hno : ∀ q, q <+: (key.splitOn '/').dropLast → t.files q = none)
    (h₀ : t.lookup (tempPath (key.splitOn '/') u) = none) (hfit : b.length ≤ t.limits.maxFileSize)
    (hdir : t.isDir (key.splitOn '/') = false) :
    (FsM.run now (putBlob D u key body options) t).1 = .ok ⟨b.length, sha256Hex D b⟩ := by
  have hp := splitOn_ne_nil key
  have hlen := List.length_pos_iff.mpr hp
  unfold putBlob
  obtain ⟨t₂, hf, hg, hd, hrun⟩ := uploadThen_succeeds D u _ now hk hb hacc htemp hno h₀ hfit
  have hc : t₂.CanPlace (key.splitOn '/') := by
    refine canPlace_iff.mpr ⟨hp, fun c hm => by rw [hg.limits]; exact hacc c hm, hd, ?_⟩
    by_contra hdir₂
    rcases hg.added _ (by simpa using hdir₂) with h | h
    · rw [hdir] at h
      cases h
    · have := h.length_le
      simp only [List.length_dropLast] at this
      omega
  have hr := (rename_of_canPlace (t := t₂) (by rw [hf, Function.update_self]) hc
    (tempPath_ne hp u)).1
  rw [hrun]
  simp [hr]

/-- `put_blob_if_not_exists` fails or reports an existing entry without touching a file,
or it writes the whole body at a key that held no file. -/
theorem putBlobIfNotExists_spec (D : Digest) (u : Uuid) (key : Str) (body : StorageByteStream)
    (options : BlobPutOptions) (now : ℤ) (t : FileTree)
    (h₀ : t.files (tempPath (key.splitOn '/') u) = none) :
    ((∃ e, (FsM.run now (putBlobIfNotExists D u key body options) t).1 = .error e) ∨
        (FsM.run now (putBlobIfNotExists D u key body options) t).1 = .ok none) ∧
      Untouched (key.splitOn '/') t (FsM.run now (putBlobIfNotExists D u key body options) t).2 ∨
    ∃ b, ValidKey key ∧ body.body = .ok b ∧ t.files (key.splitOn '/') = none ∧
      (FsM.run now (putBlobIfNotExists D u key body options) t).1 =
        .ok (some ⟨b.length, sha256Hex D b⟩) ∧
      Wrote (key.splitOn '/') b t (FsM.run now (putBlobIfNotExists D u key body options) t).2 := by
  have hne := tempPath_ne (splitOn_ne_nil key) u
  unfold putBlobIfNotExists
  rcases uploadThen_spec D u key body _ now t h₀ with ⟨e, he, hu⟩ | ⟨b, t₂, hk, hb, hf, hg, hrun⟩
  · exact Or.inl ⟨Or.inl ⟨e, he⟩, hu⟩
  · rw [hrun]
    generalize htemp : tempPath (key.splitOn '/') u = temp at h₀ hf hne
    simp only [Prog.bind_eq_bind, FsM.run_bind, Fs.run_hardLink]
    cases hr : (t₂.hardLink temp (key.splitOn '/')).1 with
    | error e =>
      rw [hardLink_error hr]
      left
      split
      · cases ‹Except.error e = Except.ok _›
      · obtain ⟨h1, h2, h3⟩ := discardTemp_files now temp
          (.ok none : Except StorageError (Option BlobWriteOutcome)) hf h₀
        exact ⟨Or.inr h1, h2, hg.trans_same h3⟩
      · obtain ⟨h1, h2, h3⟩ := discardTemp_files now temp
          (.error (.io (key.splitOn '/') _) : Except StorageError (Option BlobWriteOutcome)) hf h₀
        exact ⟨Or.inl ⟨_, h1⟩, h2, hg.trans_same h3⟩
    | ok _ =>
      right
      obtain ⟨b', hb', hc, hnone⟩ := hardLink_ok hr
      obtain rfl : b = b' := by simpa [hf] using hb'
      obtain ⟨_, hfiles, hd⟩ := hardLink_of_canPlace hb' hc hnone
      have hfiles' : (t₂.hardLink temp (key.splitOn '/')).2.files = Function.update
          (Function.update t.files (key.splitOn '/') (some b)) temp (some b) := by
        rw [hfiles, hf, Function.update_comm hne]
      obtain ⟨h1, h2, h3⟩ := discardTemp_files now temp
        (.ok (some ⟨b.length, sha256Hex D b⟩) : Except StorageError (Option BlobWriteOutcome))
        hfiles' (by rw [Function.update_of_ne hne, h₀])
      have hn : t.files (key.splitOn '/') = none := by
        rwa [hf, Function.update_of_ne (Ne.symm hne)] at hnone
      exact ⟨b, hk, hb, hn, h1, h2, (hg.trans_same hd).trans_same h3⟩

/-- `copy_blob` either writes the source's content at the target or changes no file. -/
theorem copyBlob_spec (u : Uuid) (src dst : Str) (now : ℤ) (t : FileTree)
    (h₀ : t.files (tempPath (dst.splitOn '/') u) = none) :
    (∃ e, (FsM.run now (copyBlob u src dst) t).1 = .error e ∧
      Untouched (dst.splitOn '/') t (FsM.run now (copyBlob u src dst) t).2) ∨
    ∃ b, ValidKey src ∧ ValidKey dst ∧ t.files (src.splitOn '/') = some b ∧
      (FsM.run now (copyBlob u src dst) t).1 = .ok () ∧
      Wrote (dst.splitOn '/') b t (FsM.run now (copyBlob u src dst) t).2 := by
  by_cases hs : ValidKey src
  swap
  · left
    simpa [copyBlob, pathFor_of_not_valid hs, Untouched] using GrowsDirs.refl _ t
  by_cases hd : ValidKey dst
  swap
  · left
    simpa [copyBlob, pathFor_of_valid hs, pathFor_of_not_valid hd, Untouched] using
      GrowsDirs.refl _ t
  have hp := splitOn_ne_nil dst
  simp only [copyBlob, pathFor_of_valid hs, pathFor_of_valid hd, Prog.bind_eq_bind, FsM.run_bind]
  obtain ⟨hf₁, hg₁⟩ := createParentDir_spec now t (dst.splitOn '/')
  cases hr₁ : (FsM.run now (createParentDir (dst.splitOn '/')) t).1 with
  | error e => exact Or.inl ⟨e, rfl, hf₁, hg₁⟩
  | ok _ =>
    generalize (FsM.run now (createParentDir (dst.splitOn '/')) t).2 = t₁ at hf₁ hg₁
    have hne := tempPath_ne hp u
    simp only [tempPathFor_eq hp, FsM.run_bind, Fs.run_copyFile]
    generalize tempPath (dst.splitOn '/') u = temp at h₀ hne
    have hf₁' : t₁.files = Function.update t.files temp none := by
      rw [← h₀, Function.update_eq_self, hf₁]
    cases hr₂ : (t₁.copyFile (src.splitOn '/') temp now).1 with
    | error e =>
      rw [copyFile_error hr₂]
      left
      split
      · obtain ⟨h1, h2, h3⟩ := discardTemp_files now temp
          (.error (.missingBlob src) : Except StorageError Unit) hf₁' h₀
        exact ⟨_, h1, h2, hg₁.trans_same h3⟩
      · obtain ⟨h1, h2, h3⟩ := discardTemp_files now temp
          (.error (.io (src.splitOn '/') _) : Except StorageError Unit) hf₁' h₀
        exact ⟨_, h1, h2, hg₁.trans_same h3⟩
      · cases ‹Except.error e = Except.ok _›
    | ok n =>
      obtain ⟨b, hb, hc⟩ := copyFile_ok hr₂
      rw [hf₁] at hb
      have hsrc : src.splitOn '/' ≠ temp := by
        rintro he
        rw [he, h₀] at hb
        cases hb
      obtain ⟨_, hf₂, hd₂⟩ := copyFile_of_canPlace (by rw [hf₁]; exact hb) hc hsrc now
      rw [hf₁] at hf₂
      have hg₂ := hg₁.trans_same hd₂
      simp only [FsM.run_bind, Fs.run_rename]
      generalize (t₁.copyFile (src.splitOn '/') temp now).2 = t₂ at hf₂ hg₂ ⊢
      cases hr₃ : (t₂.rename temp (dst.splitOn '/')).1 with
      | error e =>
        rw [rename_error hr₃]
        obtain ⟨h1, h2, h3⟩ := discardTemp_files now temp
          (.error (.io (dst.splitOn '/') e) : Except StorageError Unit) hf₂ h₀
        exact Or.inl ⟨_, h1, h2, hg₂.trans_same h3⟩
      | ok _ =>
        obtain ⟨hfiles, hd₃⟩ := rename_temp_files hne hf₂ h₀ hr₃
        exact Or.inr ⟨b, hs, hd, hb, rfl, hfiles, hg₂.trans_same hd₃⟩

/-- `remove_file` with a missing file tolerated: afterwards no file is there. -/
theorem removeIfPresent_spec (path : Path) (now : ℤ) (t : FileTree) :
    (FsM.run now (removeIfPresent path) t).2.files = Function.update t.files path none ∧
      SameDirs t (FsM.run now (removeIfPresent path) t).2 ∧
      ∀ e, (FsM.run now (removeIfPresent path) t).1 = .error e → t.files path = none := by
  obtain ⟨hf, hd⟩ := removeFile_files t path
  simp only [removeIfPresent, Prog.bind_eq_bind, FsM.run_bind, Fs.run_removeFile]
  refine ⟨?_, ?_, ?_⟩
  · split <;> exact hf
  · split <;> exact hd
  · intro e he
    by_contra hne
    obtain ⟨b, hb⟩ := Option.ne_none_iff_exists'.mp hne
    simp [(removeFile_of_files hb).1] at he

/-- `delete_blob` erases the file at a valid key and nothing else; it reports an error
only when there was no file. -/
theorem deleteBlob_spec (key : Str) (now : ℤ) (t : FileTree) :
    (¬ ValidKey key ∧ FsM.run now (deleteBlob key) t = (.error (.invalidStorageKey key), t)) ∨
    (ValidKey key ∧
      (FsM.run now (deleteBlob key) t).2.files = Function.update t.files (key.splitOn '/') none ∧
      SameDirs t (FsM.run now (deleteBlob key) t).2 ∧
      ∀ e, (FsM.run now (deleteBlob key) t).1 = .error e → t.files (key.splitOn '/') = none) := by
  by_cases hk : ValidKey key
  · right
    simp only [deleteBlob, pathFor_of_valid hk]
    exact ⟨hk, removeIfPresent_spec _ now t⟩
  · left
    exact ⟨hk, by simp [deleteBlob, pathFor_of_not_valid hk]⟩

/-! ### Reading -/

theorem flatten_readChunksFuel (n : ℕ) (b : Bytes) (h : b.length ≤ n) :
    (readChunksFuel n b).flatten = b := by
  induction n generalizing b with
  | zero => simp [readChunksFuel, List.length_eq_zero_iff.mp (Nat.le_zero.mp h)]
  | succ n ih =>
    by_cases hb : b = []
    · simp [readChunksFuel, hb]
    · have hpos := List.length_pos_iff.mpr hb
      have hd : (b.drop readerCapacity).length ≤ n := by
        simp only [List.length_drop, readerCapacity]
        omega
      rw [readChunksFuel, if_neg hb, List.flatten_cons, ih _ hd, List.take_append_drop]

/-- The chunks of a content concatenate to it. -/
theorem flatten_readChunks (b : Bytes) : (readChunks b).flatten = b :=
  flatten_readChunksFuel b.length b le_rfl

theorem collectChunks_map_ok (bytes : Bytes) (l : List Bytes) :
    collectChunks bytes (l.map .ok) = .ok (bytes ++ l.flatten) := by
  induction l generalizing bytes with
  | nil => simp [collectChunks]
  | cons c l ih => simp [collectChunks, ih]

theorem getBlob_of_some (now : ℤ) {key : Str} (hk : ValidKey key) {t : FileTree} {n : Node}
    (h : t.lookup (key.splitOn '/') = some n) :
    FsM.run now (getBlob key) t = (.ok ⟨key,
      some ⟨key, some (nodeLen n), none, none, some (nodeModified n)⟩,
      ⟨readerStream (key.splitOn '/') n, none⟩⟩, t) := by
  simp [getBlob, headBlob, pathFor_of_valid hk, FileTree.metadata, h]

theorem getBlob_of_none (now : ℤ) {key : Str} (hk : ValidKey key) {t : FileTree}
    (h : t.lookup (key.splitOn '/') = none) :
    ∃ e, FsM.run now (getBlob key) t = (.error e, t) := by
  simp only [getBlob, pathFor_of_valid hk, Prog.bind_eq_bind, FsM.run_bind, Fs.run_openFile,
    FileTree.metadata, h]
  split
  · exact ⟨_, rfl⟩
  · exact ⟨_, rfl⟩
  · cases ‹Except.error _ = Except.ok _›

/-- `get_blob` followed by `collect_storage_stream`. -/
def collectBlob (now : ℤ) (key : Str) (t : FileTree) : Except Stop Bytes :=
  match (FsM.run now (getBlob key) t).1 with
  | .error e => .error (.error e)
  | .ok blob => collectStorageStream blob.body

/-- Reading a valid key succeeds exactly when a regular file is there, with its content.
A directory opens, but the first read of it fails. -/
theorem collectBlob_eq_ok {now : ℤ} {key : Str} (hk : ValidKey key) {t : FileTree} {b : Bytes} :
    collectBlob now key t = .ok b ↔ t.files (key.splitOn '/') = some b := by
  rcases h : t.lookup (key.splitOn '/') with _ | (_ | ⟨content, m⟩)
  · obtain ⟨e, he⟩ := getBlob_of_none now hk h
    simp [collectBlob, he, files, h]
  · simp [collectBlob, getBlob_of_some now hk h, files, h, collectStorageStream, readerStream,
      collectChunks]
  · simp [collectBlob, getBlob_of_some now hk h, files, h, collectStorageStream, readerStream,
      collectChunks_map_ok, flatten_readChunks]

/-! ### Runs against the abstract store -/

/-- The mutating operations of the blob store. -/
inductive BlobOp where
  | put (key : Str) (body : StorageByteStream) (options : BlobPutOptions)
  | putIfNotExists (key : Str) (body : StorageByteStream) (options : BlobPutOptions)
  | copy (src dst : Str)
  | delete (key : Str)

/-- The result of each operation, as its caller sees it. -/
inductive BlobReply where
  | put (result : Except StorageError BlobWriteOutcome)
  | putIfNotExists (result : Except StorageError (Option BlobWriteOutcome))
  | copy (result : Except StorageError Unit)
  | delete (result : Except StorageError Unit)

/-- One call: the operation, the UUID it draws for its temporary file, and the time. -/
structure BlobEvent where
  op : BlobOp
  uuid : Uuid
  now : ℤ

def BlobEvent.exec (D : Digest) (e : BlobEvent) (t : FileTree) : BlobReply × FileTree :=
  match e.op with
  | .put key body options =>
    ((FsM.run e.now (putBlob D e.uuid key body options) t).map .put id)
  | .putIfNotExists key body options =>
    ((FsM.run e.now (putBlobIfNotExists D e.uuid key body options) t).map .putIfNotExists id)
  | .copy src dst => ((FsM.run e.now (copyBlob e.uuid src dst) t).map .copy id)
  | .delete key => ((FsM.run e.now (deleteBlob key) t).map .delete id)

/-- The abstract store. -/
abbrev BlobMap := Str → Option Bytes

/-- What a stream delivers before its first error, as one buffer. -/
def concatBody (body : StorageByteStream) : Bytes := (okChunks body.inner).flatten

/-- The abstract effect of an operation, given what it replied. -/
def BlobOp.apply (M : BlobMap) : BlobOp → BlobReply → BlobMap
  | .put key body _, .put (.ok _) => Function.update M key (some (concatBody body))
  | .putIfNotExists key body _, .putIfNotExists (.ok (some _)) =>
    Function.update M key (some (concatBody body))
  | .copy src dst, .copy (.ok ()) => Function.update M dst (M src)
  | .delete key, .delete (.ok ()) => Function.update M key none
  | _, _ => M

/-- A sequential run from an empty root, with its log and the abstract store beside it.
Every drawn UUID is fresh when it is drawn. -/
inductive BlobRun (D : Digest) (limits : Limits) :
    List (BlobEvent × BlobReply) → FileTree → BlobMap → Prop
  | start : BlobRun D limits [] (FileTree.empty limits) (fun _ => none)
  | step {log : List (BlobEvent × BlobReply)} {t : FileTree} {M : BlobMap} (e : BlobEvent) :
      BlobRun D limits log t M → FreshUuid t e.uuid →
      BlobRun D limits (log ++ [(e, (e.exec D t).1)]) (e.exec D t).2 (e.op.apply M (e.exec D t).1)

/-- The files under valid keys are the abstract store. -/
def Refines (t : FileTree) (M : BlobMap) : Prop :=
  ∀ key, ValidKey key → t.files (key.splitOn '/') = M key

theorem Refines.update {t t' : FileTree} {M : BlobMap} (h : Refines t M) {key : Str}
    {content : Option Bytes}
    (hf : t'.files = Function.update t.files (key.splitOn '/') content) :
    Refines t' (Function.update M key content) := by
  intro k hk
  by_cases he : k = key
  · subst he; simp [hf]
  · have hs : k.splitOn '/' ≠ key.splitOn '/' := fun hs => he (splitOn_injective '/' hs)
    rw [hf, Function.update_of_ne hs, Function.update_of_ne he, h k hk]

theorem Refines.of_files {t t' : FileTree} {M : BlobMap} (h : Refines t M) (hf : t'.files = t.files) :
    Refines t' M := by
  intro k hk
  rw [hf, h k hk]

/-- The outcome a reply carries, if it reports a write. -/
def BlobReply.outcome : BlobReply → Option BlobWriteOutcome
  | .put (.ok out) => some out
  | .putIfNotExists (.ok (some out)) => some out
  | _ => none

/-- The body an operation uploads. -/
def BlobOp.body : BlobOp → Option StorageByteStream
  | .put _ body _ => some body
  | .putIfNotExists _ body _ => some body
  | _ => none

/-- The outcome reports the length and the checksum of the uploaded body. -/
def OutcomeCorrect (D : Digest) (op : BlobOp) (reply : BlobReply) : Prop :=
  ∀ out, reply.outcome = some out → ∃ body, op.body = some body ∧
    out = ⟨(concatBody body).length, sha256Hex D (concatBody body)⟩

theorem concatBody_eq {body : StorageByteStream} {b : Bytes} (h : body.body = .ok b) :
    concatBody body = b := (StorageByteStream.body_eq_ok.mp h).2

/-- One operation: the refinement is kept and the reply is right. -/
theorem BlobEvent.exec_refines (D : Digest) (e : BlobEvent) {t : FileTree} {M : BlobMap}
    (h : Refines t M) (hu : FreshUuid t e.uuid) :
    Refines (e.exec D t).2 (e.op.apply M (e.exec D t).1) ∧
      OutcomeCorrect D e.op (e.exec D t).1 := by
  obtain ⟨op, u, now⟩ := e
  cases op with
  | put key body options =>
    rcases putBlob_spec D u key body options now t (hu.tempPath _) with
      ⟨e, he, hf, _⟩ | ⟨b, _, hb, hr, hf, _⟩
    · exact ⟨by simpa [BlobEvent.exec, he, BlobOp.apply] using h.of_files hf,
        by simp [BlobEvent.exec, he, OutcomeCorrect, BlobReply.outcome]⟩
    · have hc := concatBody_eq hb
      refine ⟨by simpa [BlobEvent.exec, hr, BlobOp.apply, hc] using h.update hf, ?_⟩
      simp [BlobEvent.exec, hr, OutcomeCorrect, BlobReply.outcome, BlobOp.body, hc]
  | putIfNotExists key body options =>
    rcases putBlobIfNotExists_spec D u key body options now t (hu.tempPath _) with
      ⟨⟨e, he⟩ | he, hf, _⟩ | ⟨b, _, hb, _, hr, hf, _⟩
    · exact ⟨by simpa [BlobEvent.exec, he, BlobOp.apply] using h.of_files hf,
        by simp [BlobEvent.exec, he, OutcomeCorrect, BlobReply.outcome]⟩
    · exact ⟨by simpa [BlobEvent.exec, he, BlobOp.apply] using h.of_files hf,
        by simp [BlobEvent.exec, he, OutcomeCorrect, BlobReply.outcome]⟩
    · have hc := concatBody_eq hb
      refine ⟨by simpa [BlobEvent.exec, hr, BlobOp.apply, hc] using h.update hf, ?_⟩
      simp [BlobEvent.exec, hr, OutcomeCorrect, BlobReply.outcome, BlobOp.body, hc]
  | copy src dst =>
    rcases copyBlob_spec u src dst now t (hu.tempPath _) with
      ⟨e, he, hf, _⟩ | ⟨b, hs, _, hb, hr, hf, _⟩
    · exact ⟨by simpa [BlobEvent.exec, he, BlobOp.apply] using h.of_files hf,
        by simp [BlobEvent.exec, OutcomeCorrect, BlobReply.outcome]⟩
    · have hM : M src = some b := by rw [← h src hs, hb]
      exact ⟨by simpa [BlobEvent.exec, hr, BlobOp.apply, hM] using h.update hf,
        by simp [BlobEvent.exec, OutcomeCorrect, BlobReply.outcome]⟩
  | delete key =>
    rcases deleteBlob_spec key now t with ⟨_, he⟩ | ⟨hk, hf, _, herr⟩
    · exact ⟨by simpa [BlobEvent.exec, he, BlobOp.apply] using h,
        by simp [BlobEvent.exec, OutcomeCorrect, BlobReply.outcome]⟩
    · refine ⟨?_, by simp [BlobEvent.exec, OutcomeCorrect, BlobReply.outcome]⟩
      cases hr : (FsM.run now (deleteBlob key) t).1 with
      | ok _ => simpa [BlobEvent.exec, hr, BlobOp.apply] using h.update hf
      | error e =>
        -- An error means that there was no file, so erasing it changed nothing.
        have hsame : (FsM.run now (deleteBlob key) t).2.files = t.files := by
          rw [hf, ← herr e hr, Function.update_eq_self]
        simpa [BlobEvent.exec, hr, BlobOp.apply] using h.of_files hsame

/-- Over a whole run: the refinement holds at the end and every logged reply is right. -/
theorem BlobRun.refines {D : Digest} {limits : Limits} {log : List (BlobEvent × BlobReply)}
    {t : FileTree} {M : BlobMap} (h : BlobRun D limits log t M) :
    Refines t M ∧ ∀ er ∈ log, OutcomeCorrect D er.1.op er.2 := by
  induction h with
  | start => exact ⟨fun key _ => by simp, by simp⟩
  | step e _ hu ih =>
    obtain ⟨h1, h2⟩ := e.exec_refines D ih.1 hu
    refine ⟨h1, fun er her => ?_⟩
    rcases List.mem_append.mp her with her | her
    · exact ih.2 er her
    · obtain rfl := List.mem_singleton.mp her
      exact h2

/-- An operation changes no file, or the one of a single key. -/
theorem BlobEvent.exec_files (D : Digest) (e : BlobEvent) {t : FileTree}
    (hu : FreshUuid t e.uuid) : (e.exec D t).2.files = t.files ∨ ∃ key content, ValidKey key ∧
      (e.exec D t).2.files = Function.update t.files (key.splitOn '/') content := by
  obtain ⟨op, u, now⟩ := e
  cases op with
  | put key body options =>
    rcases putBlob_spec D u key body options now t (hu.tempPath _) with
      ⟨_, _, hf, _⟩ | ⟨b, hk, _, _, hf, _⟩
    · exact Or.inl hf
    · exact Or.inr ⟨key, _, hk, hf⟩
  | putIfNotExists key body options =>
    rcases putBlobIfNotExists_spec D u key body options now t (hu.tempPath _) with
      ⟨_, hf, _⟩ | ⟨b, hk, _, _, _, hf, _⟩
    · exact Or.inl hf
    · exact Or.inr ⟨key, _, hk, hf⟩
  | copy src dst =>
    rcases copyBlob_spec u src dst now t (hu.tempPath _) with
      ⟨_, _, hf, _⟩ | ⟨b, _, hk, _, _, hf, _⟩
    · exact Or.inl hf
    · exact Or.inr ⟨dst, _, hk, hf⟩
  | delete key =>
    rcases deleteBlob_spec key now t with ⟨_, he⟩ | ⟨hk, hf, _, _⟩
    · exact Or.inl (congrArg (fun r => r.2.files) he)
    · exact Or.inr ⟨key, _, hk, hf⟩

/-- After a run from an empty root there are no files but those of valid keys. -/
theorem BlobRun.files_valid {D : Digest} {limits : Limits} {log : List (BlobEvent × BlobReply)}
    {t : FileTree} {M : BlobMap} (h : BlobRun D limits log t M) {q : Path} (hq : t.files q ≠ none) :
    ∃ key, ValidKey key ∧ q = key.splitOn '/' := by
  induction h with
  | start => exact absurd (files_empty limits q) hq
  | step e _ hu ih =>
    rcases e.exec_files D hu with hf | ⟨key, content, hk, hf⟩
    · exact ih (by rwa [hf] at hq)
    · by_cases he : q = key.splitOn '/'
      · exact ⟨key, hk, he⟩
      · rw [hf, Function.update_of_ne he] at hq
        exact ih hq

/-- After every run of the mutating operations, reading a valid key and collecting the
stream succeeds exactly for the keys of the abstract store, with the bytes stored
there, and every write reported the length and the checksum of its body. -/
theorem blobStore_refines_map (D : Digest) (limits : Limits) (log : List (BlobEvent × BlobReply))
    (t : FileTree) (M : BlobMap) (h : BlobRun D limits log t M) :
    (∀ (now : ℤ) (key : Str), validateBlobKey key = .ok () →
      ∀ b, collectBlob now key t = .ok b ↔ M key = some b) ∧
    ∀ er ∈ log, OutcomeCorrect D er.1.op er.2 := by
  obtain ⟨h1, h2⟩ := h.refines
  refine ⟨fun now key hk b => ?_, h2⟩
  have hv := validateBlobKey_eq_ok.mp hk
  rw [collectBlob_eq_ok hv, h1 key hv]

/-- A UUID for concrete runs. -/
def sampleUuid (n : UInt8) : Uuid := ⟨List.replicate 15 0 ++ [n], by simp⟩

/-- The run that puts two chunks under one key and copies them to a second key. -/
theorem blobStore_refines_map_put_copy : ∃ log t M,
    BlobRun Digest.sha256 Limits.widest log t M ∧ log.length = 2 ∧
      collectBlob 0 "a/b".toList t = .ok [1, 2] ∧ collectBlob 0 "a/c".toList t = .ok [1, 2] := by
  let put : BlobEvent := ⟨.put "a/b".toList ⟨[.ok [1], .ok [2]], none⟩ ⟨none⟩, sampleUuid 0, 0⟩
  let copy : BlobEvent := ⟨.copy "a/b".toList "a/c".toList, sampleUuid 1, 0⟩
  have h₀ : BlobRun Digest.sha256 Limits.widest [] (FileTree.empty Limits.widest) fun _ => none :=
    .start
  have h₁ := h₀.step put (by decide +kernel)
  have h₂ := h₁.step copy (by decide +kernel)
  have hr := (blobStore_refines_map _ _ _ _ _ h₂).1 0
  refine ⟨_, _, _, h₂, by decide +kernel, ?_, ?_⟩
  · exact (hr _ (by decide) _).mpr (by decide +kernel)
  · exact (hr _ (by decide) _).mpr (by decide +kernel)

end GraphqlOrmStorage.Local
