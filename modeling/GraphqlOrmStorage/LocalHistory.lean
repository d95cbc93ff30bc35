import GraphqlOrmStorage.LocalExistence
import GraphqlOrmStorage.LocalListing
import GraphqlOrmStorage.ProgramPair

/-!
# What a history leaves behind

Two roots with the same files can differ in directories and in times: directories are
made for every write, also for one that fails, and are never removed. Where the
directories are the same as well, every call of the blob store answers the same in both
roots, up to times. Where they are not, `head_blob` tells the roots apart.
-/
namespace GraphqlOrmStorage

open Text Program

/-- The node without its time. -/
def Node.untimed : Node → Node
  | .dir => .dir
  | .file b _ => .file b 0

namespace FileTree

/-! ### Trees that differ in times only -/

/-- The same files and directories under the same limits. -/
structure SameButTimes (t t' : FileTree) : Prop where
  dirs : SameDirs t t'
  files : t'.files = t.files

namespace SameButTimes

variable {t t' : FileTree} {p src dst : Path} {b : Bytes}

theorem alike (h : SameButTimes t t') (p : Path) : Alike t t' p :=
  h.dirs.alike (congrFun h.files p) fun q _ _ => by rw [h.files]

theorem lookup_none (h : SameButTimes t t') (hl : t.lookup p = none) : t'.lookup p = none :=
  (h.alike p).lookup_none.mpr hl

theorem lookup_dir (h : SameButTimes t t') (hl : t.lookup p = some .dir) :
    t'.lookup p = some .dir :=
  isDir_iff.mp ((h.alike p).isDir.trans (isDir_iff.mpr hl))

theorem lookup_file (h : SameButTimes t t') {m : ℤ} (hl : t.lookup p = some (.file b m)) :
    ∃ m', t'.lookup p = some (.file b m') :=
  files_eq_some.mp ((congrFun h.files p).trans (files_eq_some.mpr ⟨m, hl⟩))

theorem canPlace (h : SameButTimes t t') : t'.CanPlace p ↔ t.CanPlace p := h.dirs.canPlace

theorem resolveError (h : SameButTimes t t') (p : Path) : t'.resolveError p = t.resolveError p :=
  (h.alike p).resolveError

theorem placeError (h : SameButTimes t t') (p : Path) : t'.placeError p = t.placeError p := by
  have hdir := (h.alike p).isDir
  simp only [isDir, decide_eq_decide] at hdir
  simp only [FileTree.placeError, hdir, h.resolveError]

/-- The same file put at the same place. -/
theorem insertFile (h : SameButTimes t t') (hc : t.CanPlace p) (hc' : t'.CanPlace p) (m m' : ℤ) :
    SameButTimes (t.insertNode p (.file b m) hc) (t'.insertNode p (.file b m') hc') where
  dirs := ⟨by simp [h.dirs.1], by simp [h.dirs.2]⟩
  files := by simp [h.files]

theorem insertDir (h : SameButTimes t t') (hc : t.CanPlace p) (hc' : t'.CanPlace p) :
    SameButTimes (t.insertNode p .dir hc) (t'.insertNode p .dir hc') where
  dirs := by
    refine ⟨?_, by simp [h.dirs.2]⟩
    funext q
    have hq : t'.isDir q = t.isDir q := congrFun h.dirs.1 q
    by_cases he : q = p
    · simp [isDir, he]
    · simpa [isDir, he] using hq
  files := by
    funext q
    have hq : t'.files q = t.files q := congrFun h.files q
    by_cases he : q = p
    · simp [FileTree.files, he]
    · simpa [FileTree.files, he] using hq

theorem eraseNode (h : SameButTimes t t') (hl : t.lookup p ≠ some .dir)
    (hl' : t'.lookup p ≠ some .dir) : SameButTimes (t.eraseNode p hl) (t'.eraseNode p hl') where
  dirs := ⟨by simp [h.dirs.1], by simp [h.dirs.2]⟩
  files := by simp [h.files]

/-! ### The calls -/

/-- The outcomes of a call in two trees: the same result, and trees that are again the same. -/
def Outcomes {α : Type} (r r' : α × FileTree) : Prop := r'.1 = r.1 ∧ SameButTimes r.2 r'.2

theorem outcomes_error {α : Type} (h : SameButTimes t t') {e e' : ErrorKind} (he : e' = e) :
    Outcomes ((.error e, t) : Except ErrorKind α × FileTree) (.error e', t') :=
  ⟨congrArg Except.error he, h⟩

theorem createDirsFrom (h : SameButTimes t t') (base path : Path) :
    Outcomes (t.createDirsFrom base path) (t'.createDirsFrom base path) := by
  induction path generalizing base t t' with
  | nil => exact ⟨rfl, h⟩
  | cons c cs ih =>
    rw [FileTree.createDirsFrom, FileTree.createDirsFrom]
    cases hl : t.lookup (base ++ [c]) with
    | none =>
      rw [h.lookup_none hl]
      by_cases hc : t.CanPlace (base ++ [c])
      · have hc' := h.canPlace.mpr hc
        simp only [dif_pos hc, dif_pos hc']
        exact ih (h.insertDir hc hc') (base ++ [c])
      · have hc' : ¬ t'.CanPlace (base ++ [c]) := fun hc' => hc (h.canPlace.mp hc')
        simp only [dif_neg hc, dif_neg hc']
        exact h.outcomes_error rfl
    | some n =>
      cases n with
      | dir =>
        rw [h.lookup_dir hl]
        exact ih h (base ++ [c])
      | file b m =>
        obtain ⟨m', hl'⟩ := h.lookup_file hl
        rw [hl']
        exact h.outcomes_error rfl

theorem createFile (h : SameButTimes t t') (p : Path) (now now' : ℤ) :
    Outcomes (t.createFile p now) (t'.createFile p now') := by
  rw [FileTree.createFile, FileTree.createFile]
  by_cases hc : t.CanPlace p
  · have hc' := h.canPlace.mpr hc
    rw [dif_pos hc, dif_pos hc']
    exact ⟨rfl, h.insertFile hc hc' now now'⟩
  · have hc' : ¬ t'.CanPlace p := fun hc' => hc (h.canPlace.mp hc')
    rw [dif_neg hc, dif_neg hc']
    exact h.outcomes_error (h.placeError p)

theorem append (h : SameButTimes t t') (p : Path) (b : Bytes) (now now' : ℤ) :
    Outcomes (t.append p b now) (t'.append p b now') := by
  rw [FileTree.append, FileTree.append, h.files]
  cases hf : t.files p with
  | none => exact ⟨rfl, h⟩
  | some old =>
    have hc := canPlace_of_files hf
    have hc' := h.canPlace.mpr hc
    simp only [dif_pos hc, dif_pos hc', h.dirs.2]
    split_ifs
    · exact ⟨rfl, h.insertFile hc hc' now now'⟩
    · exact ⟨rfl, h.insertFile hc hc' now now'⟩

theorem writeFile (h : SameButTimes t t') (p : Path) (b : Bytes) (now now' : ℤ) :
    Outcomes (t.writeFile p b now) (t'.writeFile p b now') := by
  obtain ⟨hres, hsame⟩ := h.createFile p now now'
  rw [FileTree.writeFile, FileTree.writeFile]
  generalize t.createFile p now = r at hres hsame ⊢
  generalize t'.createFile p now' = r' at hres hsame ⊢
  obtain ⟨x, t₁⟩ := r
  obtain ⟨x', t₁'⟩ := r'
  obtain rfl : x' = x := hres
  cases x' with
  | error e => exact hsame.outcomes_error rfl
  | ok u => exact hsame.append p b now now'

theorem rename (h : SameButTimes t t') (src dst : Path) :
    Outcomes (t.rename src dst) (t'.rename src dst) := by
  rw [FileTree.rename, FileTree.rename]
  cases hl : t.lookup src with
  | none =>
    rw [h.lookup_none hl]
    exact h.outcomes_error (h.resolveError src)
  | some n =>
    cases n with
    | dir =>
      rw [h.lookup_dir hl]
      exact h.outcomes_error rfl
    | file b m =>
      obtain ⟨m', hl'⟩ := h.lookup_file hl
      rw [hl']
      by_cases hc : t.CanPlace dst
      · have hc' := h.canPlace.mpr hc
        simp only [dif_pos hc, dif_pos hc']
        by_cases he : src = dst
        · simp only [if_pos he]
          exact ⟨rfl, h⟩
        · simp only [if_neg he]
          have hs : (t.insertNode dst (.file b m) hc).lookup src ≠ some .dir := by simp [he, hl]
          have hs' : (t'.insertNode dst (.file b m') hc').lookup src ≠ some .dir := by
            simp [he, hl']
          rw [dif_pos hs, dif_pos hs']
          exact ⟨rfl, (h.insertFile hc hc' m m').eraseNode hs hs'⟩
      · have hc' : ¬ t'.CanPlace dst := fun hc' => hc (h.canPlace.mp hc')
        simp only [dif_neg hc, dif_neg hc']
        exact h.outcomes_error (h.placeError dst)

theorem hardLink (h : SameButTimes t t') (src dst : Path) :
    Outcomes (t.hardLink src dst) (t'.hardLink src dst) := by
  rw [FileTree.hardLink, FileTree.hardLink]
  cases hl : t.lookup src with
  | none =>
    rw [h.lookup_none hl]
    exact h.outcomes_error (h.resolveError src)
  | some n =>
    cases n with
    | dir =>
      rw [h.lookup_dir hl]
      exact h.outcomes_error rfl
    | file b m =>
      obtain ⟨m', hl'⟩ := h.lookup_file hl
      have hsome : (t'.lookup dst).isSome = (t.lookup dst).isSome := by
        rw [Bool.eq_iff_iff, Option.isSome_iff_ne_none, Option.isSome_iff_ne_none, ne_eq, ne_eq,
          (h.alike dst).lookup_none]
      simp only [hl', hsome]
      by_cases hd : (t.lookup dst).isSome = true
      · simp only [if_pos hd]
        exact h.outcomes_error rfl
      · simp only [if_neg hd]
        by_cases hc : t.CanPlace dst
        · have hc' := h.canPlace.mpr hc
          rw [dif_pos hc, dif_pos hc']
          exact ⟨rfl, h.insertFile hc hc' m m'⟩
        · have hc' : ¬ t'.CanPlace dst := fun hc' => hc (h.canPlace.mp hc')
          rw [dif_neg hc, dif_neg hc']
          exact h.outcomes_error (h.placeError dst)

theorem removeFile (h : SameButTimes t t') (p : Path) :
    Outcomes (t.removeFile p) (t'.removeFile p) := by
  obtain ⟨hf, hd⟩ := removeFile_files t p
  obtain ⟨hf', hd'⟩ := removeFile_files t' p
  refine ⟨?_, ⟨?_, ?_⟩, by rw [hf, hf', h.files]⟩
  · cases hl : t.lookup p with
    | none => simp [FileTree.removeFile, hl, h.lookup_none hl, h.resolveError]
    | some n =>
      cases n with
      | dir => simp [FileTree.removeFile, hl, h.lookup_dir hl]
      | file b m =>
        obtain ⟨m', hl'⟩ := h.lookup_file hl
        simp [FileTree.removeFile, hl, hl']
  · rw [hd.1, hd'.1, h.dirs.1]
  · rw [hd.2, hd'.2, h.dirs.2]

theorem copyFile (h : SameButTimes t t') (src dst : Path) (now now' : ℤ) :
    Outcomes (t.copyFile src dst now) (t'.copyFile src dst now') := by
  rw [FileTree.copyFile, FileTree.copyFile]
  cases hl : t.lookup src with
  | none =>
    rw [h.lookup_none hl]
    exact h.outcomes_error (h.resolveError src)
  | some n =>
    cases n with
    | dir =>
      rw [h.lookup_dir hl]
      exact h.outcomes_error rfl
    | file b m =>
      obtain ⟨m', hl'⟩ := h.lookup_file hl
      rw [hl']
      by_cases hc : t.CanPlace dst
      · have hc' := h.canPlace.mpr hc
        simp only [dif_pos hc, dif_pos hc']
        exact ⟨rfl, h.insertFile hc hc' now now'⟩
      · have hc' : ¬ t'.CanPlace dst := fun hc' => hc (h.canPlace.mp hc')
        simp only [dif_neg hc, dif_neg hc']
        exact h.outcomes_error (h.placeError dst)

/-- The children of a directory, in the order in which they are looked at. -/
theorem readDir (h : SameButTimes t t') (p : Path) :
    (t'.readDir p).map (List.insertionSort (· ≤ ·)) =
      (t.readDir p).map (List.insertionSort (· ≤ ·)) := by
  rw [FileTree.readDir, FileTree.readDir]
  cases hl : t.lookup p with
  | none => rw [h.lookup_none hl, h.resolveError]
  | some n =>
    cases n with
    | file b m =>
      obtain ⟨m', hl'⟩ := h.lookup_file hl
      rw [hl']
    | dir =>
      rw [h.lookup_dir hl]
      have hmem : ∀ q, q ∈ t'.entries.map Prod.fst ↔ q ∈ t.entries.map Prod.fst := by
        intro q
        rw [Local.mem_paths_iff, Local.mem_paths_iff, ne_eq, ne_eq, (h.alike q).lookup_none]
      have hperm : List.Perm ((t'.entries.map Prod.fst).filter fun q => q.dropLast = p)
          ((t.entries.map Prod.fst).filter fun q => q.dropLast = p) := by
        rw [List.perm_ext_iff_of_nodup (t'.nodup.filter _) (t.nodup.filter _)]
        intro q
        rw [List.mem_filter, List.mem_filter, hmem]
      refine congrArg Except.ok (List.Perm.eq_of_pairwise ?_ (List.pairwise_insertionSort _ _)
        (List.pairwise_insertionSort _ _) ?_)
      · exact fun a b _ _ hab hba => le_antisymm hab hba
      · exact (List.perm_insertionSort _ _).trans (hperm.trans (List.perm_insertionSort _ _).symm)

theorem metadata (h : SameButTimes t t') (p : Path) :
    (t'.metadata p).map Node.untimed = (t.metadata p).map Node.untimed := by
  rw [FileTree.metadata, FileTree.metadata]
  cases hl : t.lookup p with
  | none => rw [h.lookup_none hl, h.resolveError]
  | some n =>
    cases n with
    | dir => rw [h.lookup_dir hl]
    | file b m =>
      obtain ⟨m', hl'⟩ := h.lookup_file hl
      rw [hl']
      rfl

end SameButTimes

end FileTree

/-- The replies are the same but for times and for the order of a listing. -/
def FsCall.RepliesAlike : (c : FsCall) → FsCall.Reply c → FsCall.Reply c → Prop
  | .openFile _, r, r' | .metadata _, r, r' =>
    Except.map Node.untimed r' = Except.map Node.untimed r
  | .readDir _, r, r' => Except.map (List.insertionSort (· ≤ ·)) r' =
      Except.map (List.insertionSort (· ≤ ·)) r
  | .createDirAll _, r, r' | .createFile _, r, r' | .append _ _, r, r' | .flush _, r, r'
  | .writeFile _ _, r, r' | .rename _ _, r, r' | .hardLink _ _, r, r' | .removeFile _, r, r' =>
    r' = r
  | .copyFile _ _, r, r' => r' = r
  | .readFile _, r, r' => r' = r

/-- Trees that differ in times only stay so, and reply alike. -/
theorem handle_alike (now now' : ℤ) (c : FsCall) (t t' : FileTree) (h : t.SameButTimes t') :
    c.RepliesAlike (t.handle now c).1 (t'.handle now' c).1 ∧
      (t.handle now c).2.SameButTimes (t'.handle now' c).2 := by
  cases c with
  | createDirAll p => exact h.createDirsFrom [] p
  | createFile p => exact h.createFile p now now'
  | append p b => exact h.append p b now now'
  | flush p => exact ⟨rfl, h⟩
  | writeFile p b => exact h.writeFile p b now now'
  | rename src dst => exact h.rename src dst
  | hardLink src dst => exact h.hardLink src dst
  | removeFile p => exact h.removeFile p
  | copyFile src dst => exact h.copyFile src dst now now'
  | openFile p => exact ⟨h.metadata p, h⟩
  | metadata p => exact ⟨h.metadata p, h⟩
  | readFile p => exact ⟨(h.alike p).readFile, h⟩
  | readDir p => exact ⟨h.readDir p, h⟩

/-- Two filesystem programs that go the same way on replies that are alike. -/
abbrev FsM.Related {α β : Type} (R : α → β → Prop) (p : FsM α) (p' : FsM β) : Prop :=
  Prog.Related FsCall.RepliesAlike R p p'

theorem FsM.Related.run {α β : Type} {R : α → β → Prop} {p : FsM α} {p' : FsM β}
    (hp : FsM.Related R p p') (now now' : ℤ) {t t' : FileTree} (h : t.SameButTimes t') :
    R (p.run now t).1 (p'.run now' t').1 :=
  (Prog.Related.exec hp (fun c s s' hs => handle_alike now now' c s s' hs) h).1

/-- The program goes the same way on replies that are alike, to the same result. -/
abbrev FsM.Timeless {α : Type} (p : FsM α) : Prop := FsM.Related Eq p p

theorem timeless_ret {α : Type} (a : α) : FsM.Timeless (.ret a : FsM α) := .ret rfl

theorem FsM.Timeless.bind {α β : Type} {p : FsM α} (hp : FsM.Timeless p) {f : α → FsM β}
    (hf : ∀ a, FsM.Timeless (f a)) : FsM.Timeless (p.bind f) := Prog.Related.bind_eq hp hf

/-- A single call whose replies carry no time. -/
theorem timeless_call (c : FsCall) (h : ∀ r r', c.RepliesAlike r r' → r' = r) :
    FsM.Timeless (Prog.perform (I := Fs) c) :=
  Prog.Related.perform_eq fun r r' hr => (h r r' hr).symm

theorem timeless_createDirAll (p : Path) : FsM.Timeless (Fs.createDirAll p) :=
  timeless_call (.createDirAll p) fun _ _ h => h

theorem timeless_createFile (p : Path) : FsM.Timeless (Fs.createFile p) :=
  timeless_call (.createFile p) fun _ _ h => h

theorem timeless_append (p : Path) (b : Bytes) : FsM.Timeless (Fs.append p b) :=
  timeless_call (.append p b) fun _ _ h => h

theorem timeless_flush (p : Path) : FsM.Timeless (Fs.flush p) :=
  timeless_call (.flush p) fun _ _ h => h

theorem timeless_rename (src dst : Path) : FsM.Timeless (Fs.rename src dst) :=
  timeless_call (.rename src dst) fun _ _ h => h

theorem timeless_hardLink (src dst : Path) : FsM.Timeless (Fs.hardLink src dst) :=
  timeless_call (.hardLink src dst) fun _ _ h => h

theorem timeless_removeFile (p : Path) : FsM.Timeless (Fs.removeFile p) :=
  timeless_call (.removeFile p) fun _ _ h => h

theorem timeless_copyFile (src dst : Path) : FsM.Timeless (Fs.copyFile src dst) :=
  timeless_call (.copyFile src dst) fun _ _ h => h

namespace Local

open FileTree

/-! ### The calls of the blob store -/

theorem createParentDir_timeless (path : Path) : FsM.Timeless (createParentDir path) := by
  unfold createParentDir
  split_ifs
  · exact timeless_ret _
  · apply (timeless_createDirAll path.dropLast).bind
    intro r
    cases r with
    | ok _ => exact timeless_ret _
    | error _ => exact timeless_ret _

theorem writeChunks_timeless (D : Digest) (temp : Path) (l : List (Except StorageError Bytes))
    (hasher : D.Hasher) (size : ℕ) : FsM.Timeless (writeChunks D temp l hasher size) := by
  induction l generalizing hasher size with
  | nil => exact timeless_ret _
  | cons item l ih =>
    cases item with
    | error e => exact timeless_ret _
    | ok chunk =>
      apply (timeless_append temp chunk).bind
      intro r
      cases r with
      | error _ => exact timeless_ret _
      | ok _ => exact ih _ _

theorem writeStreamToTemp_timeless (D : Digest) (temp : Path) (body : StorageByteStream) :
    FsM.Timeless (writeStreamToTemp D temp body) := by
  apply (timeless_createFile temp).bind
  intro r
  cases r with
  | error _ => exact timeless_ret _
  | ok _ =>
    apply (writeChunks_timeless D temp body.inner D.new 0).bind
    intro r
    cases r with
    | error _ => exact timeless_ret _
    | ok progress =>
      apply (timeless_flush temp).bind
      intro r
      cases r with
      | error _ => exact timeless_ret _
      | ok _ => exact timeless_ret _

theorem discardTemp_timeless {α : Type} (temp : Path) (result : α) :
    FsM.Timeless (discardTemp temp result) := by
  exact (timeless_removeFile temp).bind fun _ => timeless_ret _

theorem uploadThen_timeless {α : Type} (D : Digest) (uuid : Uuid) (key : Str)
    (body : StorageByteStream)
    {publish : Path → Path → BlobWriteOutcome → FsM (Except StorageError α)}
    (hpublish : ∀ temp path outcome, FsM.Timeless (publish temp path outcome)) :
    FsM.Timeless (uploadThen D uuid key body publish) := by
  unfold uploadThen
  cases pathFor key with
  | error e => exact timeless_ret _
  | ok path =>
    apply (createParentDir_timeless path).bind
    intro r
    cases r with
    | error _ => exact timeless_ret _
    | ok _ =>
      cases tempPathFor path key uuid with
      | error e => exact timeless_ret _
      | ok temp =>
        apply (writeStreamToTemp_timeless D temp body).bind
        intro r
        cases r with
        | error _ => exact discardTemp_timeless _ _
        | ok outcome => exact hpublish temp path outcome

theorem putBlob_timeless (D : Digest) (uuid : Uuid) (key : Str) (body : StorageByteStream)
    (options : BlobPutOptions) : FsM.Timeless (putBlob D uuid key body options) := by
  apply uploadThen_timeless
  intro temp path outcome
  apply (timeless_rename temp path).bind
  intro r
  cases r with
  | error _ => exact discardTemp_timeless _ _
  | ok _ => exact timeless_ret _

theorem putBlobIfNotExists_timeless (D : Digest) (uuid : Uuid) (key : Str)
    (body : StorageByteStream) (options : BlobPutOptions) :
    FsM.Timeless (putBlobIfNotExists D uuid key body options) := by
  apply uploadThen_timeless
  intro temp path outcome
  apply (timeless_hardLink temp path).bind
  intro r
  split
  · exact discardTemp_timeless _ _
  · exact discardTemp_timeless _ _
  · exact discardTemp_timeless _ _

theorem copyBlob_timeless (uuid : Uuid) (src dst : Str) :
    FsM.Timeless (copyBlob uuid src dst) := by
  unfold copyBlob
  cases pathFor src with
  | error e => exact timeless_ret _
  | ok fromPath =>
    cases pathFor dst with
    | error e => exact timeless_ret _
    | ok toPath =>
      apply (createParentDir_timeless toPath).bind
      intro r
      cases r with
      | error _ => exact timeless_ret _
      | ok _ =>
        cases tempPathFor toPath dst uuid with
        | error e => exact timeless_ret _
        | ok temp =>
          apply (timeless_copyFile fromPath temp).bind
          intro r
          split
          · exact discardTemp_timeless _ _
          · exact discardTemp_timeless _ _
          · apply (timeless_rename temp toPath).bind
            intro r
            cases r with
            | error _ => exact discardTemp_timeless _ _
            | ok _ => exact timeless_ret _

theorem deleteBlob_timeless (key : Str) : FsM.Timeless (deleteBlob key) := by
  unfold deleteBlob
  cases pathFor key with
  | error e => exact timeless_ret _
  | ok path =>
    apply (timeless_removeFile path).bind
    intro r
    split
    · exact timeless_ret _
    · exact timeless_ret _
    · exact timeless_ret _

/-- What `stat` and `open` reply in trees that differ in times only. -/
theorem nodes_alike {r r' : Except ErrorKind Node}
    (h : Except.map Node.untimed r' = Except.map Node.untimed r) :
    (∃ e, r = .error e ∧ r' = .error e) ∨ (r = .ok .dir ∧ r' = .ok .dir) ∨
      ∃ b m m', r = .ok (.file b m) ∧ r' = .ok (.file b m') := by
  rcases r with e | (_ | ⟨b, m⟩) <;> rcases r' with e' | (_ | ⟨b', m'⟩) <;>
    simp_all [Except.map, Node.untimed]

/-- The metadata without its time. -/
def untimedMetadata (metadata : BlobMetadata) : BlobMetadata :=
  { metadata with lastModified := none }

/-- The body with its metadata without their time. -/
def untimedBody (body : BlobBody) : BlobBody :=
  { body with metadata := body.metadata.map untimedMetadata }

/-- The same results but for the time of the metadata. -/
def HeadsAlike (r r' : Except StorageError (Option BlobMetadata)) : Prop :=
  r'.map (Option.map untimedMetadata) = r.map (Option.map untimedMetadata)

theorem headBlob_related (key : Str) : FsM.Related HeadsAlike (headBlob key) (headBlob key) := by
  unfold headBlob
  cases pathFor key with
  | error e => exact .ret rfl
  | ok path =>
    apply Prog.Related.bind (Prog.Related.perform (I := Fs) (.metadata path))
    intro r r' hr
    rcases nodes_alike hr with ⟨e, rfl, rfl⟩ | ⟨rfl, rfl⟩ | ⟨b, m, m', rfl, rfl⟩
    · cases e <;> exact .ret rfl
    · exact .ret rfl
    · exact .ret rfl

theorem blobExists_timeless (key : Str) : FsM.Timeless (blobExists key) := by
  unfold blobExists
  cases pathFor key with
  | error e => exact timeless_ret _
  | ok path =>
    apply Prog.Related.bind (Prog.Related.perform (I := Fs) (.metadata path))
    intro r r' hr
    rcases nodes_alike hr with ⟨e, rfl, rfl⟩ | ⟨rfl, rfl⟩ | ⟨b, m, m', rfl, rfl⟩
    · cases e <;> exact timeless_ret _
    · exact timeless_ret _
    · exact timeless_ret _

/-- The same bodies but for the time of their metadata. -/
def BodiesAlike (r r' : Except StorageError BlobBody) : Prop :=
  r'.map untimedBody = r.map untimedBody

theorem bodies_alike {head head' : Except StorageError (Option BlobMetadata)}
    (h : HeadsAlike head head') (key : Str) (body : StorageByteStream) :
    BodiesAlike (head.map fun metadata => ⟨key, metadata, body⟩)
      (head'.map fun metadata => ⟨key, metadata, body⟩) := by
  unfold HeadsAlike at h
  cases head with
  | error e =>
    cases head' with
    | error e' => exact congrArg Except.error (Except.error.inj h)
    | ok metadata' => cases h
  | ok metadata =>
    cases head' with
    | error e' => cases h
    | ok metadata' =>
      have hsame : metadata'.map untimedMetadata = metadata.map untimedMetadata := Except.ok.inj h
      simp only [BodiesAlike, Except.map, untimedBody, hsame]

theorem getBlob_related (key : Str) : FsM.Related BodiesAlike (getBlob key) (getBlob key) := by
  unfold getBlob
  cases pathFor key with
  | error e => exact .ret rfl
  | ok path =>
    apply Prog.Related.bind (Prog.Related.perform (I := Fs) (.openFile path))
    intro r r' hr
    rcases nodes_alike hr with ⟨e, rfl, rfl⟩ | ⟨rfl, rfl⟩ | ⟨b, m, m', rfl, rfl⟩
    · cases e <;> exact .ret rfl
    · apply (headBlob_related key).bind
      intro head head' hheads
      have hbodies := bodies_alike hheads key ⟨readerStream path .dir, none⟩
      cases head <;> cases head' <;> exact .ret hbodies
    · apply (headBlob_related key).bind
      intro head head' hheads
      have hbodies := bodies_alike hheads key ⟨readerStream path (.file b m), none⟩
      cases head <;> cases head' <;> exact .ret hbodies

theorem sortedChildPaths_timeless (path : Path) : FsM.Timeless (sortedChildPaths path) := by
  apply Prog.Related.bind (Prog.Related.perform (I := Fs) (.readDir path))
  intro r r' hr
  have hr : Except.map (List.insertionSort (· ≤ ·)) r' =
      Except.map (List.insertionSort (· ≤ ·)) r := hr
  rcases r with e | l <;> rcases r' with e' | l'
  · obtain rfl := Except.error.inj hr
    exact timeless_ret _
  · cases hr
  · cases hr
  · have hsame : l'.insertionSort (· ≤ ·) = l.insertionSort (· ≤ ·) := Except.ok.inj hr
    exact .ret (congrArg Except.ok hsame.symm)

theorem collectLoop_timeless (continuation : Option Str) (limit fuel : ℕ) (stack : List Path)
    (page : List Str) : FsM.Timeless (collectLoop continuation limit fuel stack page) := by
  induction fuel generalizing stack page with
  | zero =>
    cases stack with
    | nil => exact timeless_ret _
    | cons path stack => exact timeless_ret _
  | succ fuel ih =>
    cases stack with
    | nil => exact timeless_ret _
    | cons path stack =>
      rw [collectLoop]
      by_cases hfull : page.length = limit
      · rw [if_pos hfull]
        exact timeless_ret _
      rw [if_neg hfull]
      by_cases hinternal : isInternalStoragePath path = true
      · rw [if_pos hinternal]
        exact ih _ _
      rw [if_neg hinternal]
      apply Prog.Related.bind (Prog.Related.perform (I := Fs) (.metadata path))
      intro r r' hr
      rcases nodes_alike hr with ⟨e, rfl, rfl⟩ | ⟨rfl, rfl⟩ | ⟨b, m, m', rfl, rfl⟩
      · cases e with
        | notFound => exact ih _ _
        | _ => exact timeless_ret _
      · apply (sortedChildPaths_timeless path).bind
        intro r
        cases r with
        | error _ => exact timeless_ret _
        | ok entries => exact ih _ _
      · dsimp only
        split_ifs
        · exact ih _ _
        · exact ih _ _
        · exact ih _ _

theorem listBlobsPage_timeless (fuel : ℕ) (pre : Str) (continuation : Option Str) (limit : ℕ) :
    FsM.Timeless (listBlobsPage fuel pre continuation limit) := by
  have hpage : FsM.Timeless (collectBlobPage fuel pre continuation ((limit + 1) % 2 ^ 64)) := by
    unfold collectBlobPage
    cases validateBlobPrefix pre with
    | error e => exact timeless_ret _
    | ok _ =>
      dsimp only
      split_ifs
      · exact timeless_ret _
      · exact collectLoop_timeless _ _ _ _ _
      · exact collectLoop_timeless _ _ _ _ _
  unfold listBlobsPage
  split_ifs
  · exact timeless_ret _
  · apply hpage.bind
    intro r
    cases r with
    | error _ => exact timeless_ret _
    | ok pageKeys =>
      dsimp only
      split_ifs
      · exact timeless_ret _
      · exact timeless_ret _

/-! ### Histories -/

/-- A further call of the blob store, with the identifier that a write draws. -/
inductive FurtherCall where
  | putBlob (key : Str) (body : StorageByteStream) (options : BlobPutOptions) (uuid : Uuid)
  | putBlobIfNotExists (key : Str) (body : StorageByteStream) (options : BlobPutOptions)
      (uuid : Uuid)
  | blobExists (key : Str)
  | headBlob (key : Str)
  | getBlob (key : Str)
  | copyBlob (src dst : Str) (uuid : Uuid)
  | deleteBlob (key : Str)
  | listBlobsPage (fuel : ℕ) (pre : Str) (continuation : Option Str) (limit : ℕ)

/-- The result of a call, without times. -/
inductive FurtherResult where
  | put (result : Except StorageError BlobWriteOutcome)
  | putIfNotExists (result : Except StorageError (Option BlobWriteOutcome))
  | existence (result : Except StorageError Bool)
  | head (result : Except StorageError (Option BlobMetadata))
  | get (result : Except StorageError BlobBody)
  | done (result : Except StorageError Unit)
  | page (result : Except Stop BlobListPage)

/-- What the call returns at time `now`. -/
def FurtherCall.result (D : Digest) (now : ℤ) (t : FileTree) : FurtherCall → FurtherResult
  | .putBlob key body options uuid => .put (FsM.run now (Local.putBlob D uuid key body options) t).1
  | .putBlobIfNotExists key body options uuid =>
    .putIfNotExists (FsM.run now (Local.putBlobIfNotExists D uuid key body options) t).1
  | .blobExists key => .existence (FsM.run now (Local.blobExists key) t).1
  | .headBlob key =>
    .head ((FsM.run now (Local.headBlob key) t).1.map (Option.map untimedMetadata))
  | .getBlob key => .get ((FsM.run now (Local.getBlob key) t).1.map untimedBody)
  | .copyBlob src dst uuid => .done (FsM.run now (Local.copyBlob uuid src dst) t).1
  | .deleteBlob key => .done (FsM.run now (Local.deleteBlob key) t).1
  | .listBlobsPage fuel pre continuation limit =>
    .page (FsM.run now (Local.listBlobsPage fuel pre continuation limit) t).1

/-- Every call has the same result in both roots, whenever it is made. -/
def AnswersAlike (D : Digest) (t t' : FileTree) : Prop :=
  ∀ (call : FurtherCall) (now now' : ℤ), call.result D now t = call.result D now' t'

theorem answersAlike_of_same {D : Digest} {t t' : FileTree} (h : t.SameButTimes t') :
    AnswersAlike D t t' := by
  intro call now now'
  cases call with
  | putBlob key body options uuid =>
    exact congrArg _ ((putBlob_timeless D uuid key body options).run now now' h)
  | putBlobIfNotExists key body options uuid =>
    exact congrArg _ ((putBlobIfNotExists_timeless D uuid key body options).run now now' h)
  | blobExists key => exact congrArg _ ((blobExists_timeless key).run now now' h)
  | headBlob key =>
    have hheads : HeadsAlike _ _ := (headBlob_related key).run now now' h
    exact congrArg _ hheads.symm
  | getBlob key =>
    have hbodies : BodiesAlike _ _ := (getBlob_related key).run now now' h
    exact congrArg _ hbodies.symm
  | copyBlob src dst uuid => exact congrArg _ ((copyBlob_timeless uuid src dst).run now now' h)
  | deleteBlob key => exact congrArg _ ((deleteBlob_timeless key).run now now' h)
  | listBlobsPage fuel pre continuation limit =>
    exact congrArg _ ((listBlobsPage_timeless fuel pre continuation limit).run now now' h)

/-- `head_blob` describes a directory, and describes nothing where there is neither a file nor
a directory. -/
theorem isDir_of_heads {t t' : FileTree} {key : Str} (hk : ValidKey key)
    (hfiles : t'.files = t.files)
    (h : (FsM.run 0 (headBlob key) t).1.map (Option.map untimedMetadata) =
      (FsM.run 0 (headBlob key) t').1.map (Option.map untimedMetadata))
    (hdir : t.isDir (key.splitOn '/') = true) : t'.isDir (key.splitOn '/') = true := by
  have hl := isDir_iff.mp hdir
  have hnofile : t'.files (key.splitOn '/') = none := by
    rw [hfiles, files_of_lookup_dir hl]
  obtain ⟨metadata, hhead⟩ := headBlob_of_dir hk hl
  rw [hhead] at h
  by_contra hnodir
  have hnone : t'.lookup (key.splitOn '/') = none :=
    lookup_eq_none_iff.mpr ⟨hnofile, by simpa using hnodir⟩
  have hmeta : t'.metadata (key.splitOn '/') = .error (t'.resolveError (key.splitOn '/')) := by
    simp only [FileTree.metadata, hnone]
  cases he : t'.resolveError (key.splitOn '/') <;>
    simp [headBlob, pathFor_of_valid hk, hmeta, he, Except.map] at h

/-- The path of an ancestor of a valid key is the path of a valid key. -/
theorem validKey_ancestor {key : Str} (hk : ValidKey key) {q : Path} (hq : q <+: key.splitOn '/')
    (hne : q ≠ []) : ∃ key', ValidKey key' ∧ key'.splitOn '/' = q := by
  have hsplit : (['/'].intercalate q).splitOn '/' = q :=
    List.splitOn_intercalate '/' (fun c hc => not_mem_of_mem_splitOn (hq.subset hc)) hne
  refine ⟨['/'].intercalate q, ⟨?_, ?_⟩, hsplit⟩
  · have hne' : '\\' ≠ '/' := by decide
    rw [mem_splitOn_iff hne', hsplit]
    intro h
    obtain ⟨c, hc, hmem⟩ := h
    exact hk.1 ((mem_splitOn_iff hne' key).mpr ⟨c, hq.subset hc, hmem⟩)
  · rw [hsplit]
    exact fun c hc => hk.2 c (hq.subset hc)

/-- The directories that an operation makes are on the way to a valid key. -/
theorem BlobEvent.exec_dirs (D : Digest) (e : BlobEvent) {t : FileTree}
    (hu : FreshUuid t e.uuid) {q : Path} (hq : (e.exec D t).2.isDir q = true) :
    t.isDir q = true ∨ ∃ key, ValidKey key ∧ q <+: key.splitOn '/' := by
  obtain ⟨op, u, now⟩ := e
  have hgrows : ∀ key, ValidKey key → GrowsDirs (key.splitOn '/').dropLast t
      ((⟨op, u, now⟩ : BlobEvent).exec D t).2 →
        t.isDir q = true ∨ ∃ key, ValidKey key ∧ q <+: key.splitOn '/' := by
    intro key hk hg
    refine (hg.added q hq).imp_right fun hbelow => ⟨key, hk, hbelow.trans ?_⟩
    exact List.dropLast_prefix _
  cases op with
  | put key body options =>
    by_cases hk : ValidKey key
    · rcases putBlob_spec D u key body options now t (hu.tempPath _) with
        ⟨_, _, _, hg⟩ | ⟨_, _, _, _, _, hg⟩
      · exact hgrows key hk hg
      · exact hgrows key hk hg
    · left
      simpa [BlobEvent.exec, putBlob, uploadThen, pathFor_of_not_valid hk] using hq
  | putIfNotExists key body options =>
    by_cases hk : ValidKey key
    · rcases putBlobIfNotExists_spec D u key body options now t (hu.tempPath _) with
        ⟨_, _, hg⟩ | ⟨_, _, _, _, _, _, hg⟩
      · exact hgrows key hk hg
      · exact hgrows key hk hg
    · left
      simpa [BlobEvent.exec, putBlobIfNotExists, uploadThen, pathFor_of_not_valid hk] using hq
  | copy src dst =>
    by_cases hs : ValidKey src
    · by_cases hk : ValidKey dst
      · rcases copyBlob_spec u src dst now t (hu.tempPath _) with
          ⟨_, _, _, hg⟩ | ⟨_, _, _, _, _, _, hg⟩
        · exact hgrows dst hk hg
        · exact hgrows dst hk hg
      · left
        simpa [BlobEvent.exec, copyBlob, pathFor_of_valid hs, pathFor_of_not_valid hk] using hq
    · left
      simpa [BlobEvent.exec, copyBlob, pathFor_of_not_valid hs] using hq
  | delete key =>
    left
    have hrun : (FsM.run now (deleteBlob key) t).2.isDir = t.isDir := by
      rcases deleteBlob_spec key now t with ⟨_, he⟩ | ⟨_, _, hd, _⟩
      · rw [he]
      · exact hd.1
    exact (congrFun hrun q).symm.trans hq

/-- After a run from an empty root every directory is the root or the path of a valid key. -/
theorem BlobRun.dirs_valid {D : Digest} {limits : Limits} {log : List (BlobEvent × BlobReply)}
    {t : FileTree} {M : BlobMap} (h : BlobRun D limits log t M) {q : Path}
    (hq : t.isDir q = true) : q = [] ∨ ∃ key, ValidKey key ∧ key.splitOn '/' = q := by
  by_cases hne : q = []
  · exact Or.inl hne
  right
  have hway : ∃ key, ValidKey key ∧ q <+: key.splitOn '/' := by
    induction h with
    | start =>
      rw [isDir_iff, lookup_empty limits hne] at hq
      cases hq
    | step e _ hu ih =>
      rcases e.exec_dirs D hu hq with hold | hnew
      · exact ih hold
      · exact hnew
  obtain ⟨key, hk, hbelow⟩ := hway
  exact validKey_ancestor hk hbelow hne

theorem BlobRun.limits_eq {D : Digest} {limits : Limits} {log : List (BlobEvent × BlobReply)}
    {t : FileTree} {M : BlobMap} (h : BlobRun D limits log t M) : t.limits = limits := by
  induction h with
  | start => rfl
  | @step log t M e _ _ ih =>
    rw [← ih]
    cases he : e.op <;> simp only [BlobEvent.exec, he] <;> exact (FsM.run_keepsDirs _ _ _).2

/-- The files under a root are determined by the store. -/
theorem BlobRun.files_eq {D : Digest} {limits : Limits} {log log' : List (BlobEvent × BlobReply)}
    {t t' : FileTree} {M : BlobMap} (h : BlobRun D limits log t M)
    (h' : BlobRun D limits log' t' M) : t'.files = t.files := by
  funext q
  by_cases hq : t.files q = none
  · by_cases hq' : t'.files q = none
    · rw [hq, hq']
    · obtain ⟨key, hk, rfl⟩ := h'.files_valid hq'
      rw [h.refines.1 key hk, h'.refines.1 key hk]
  · obtain ⟨key, hk, rfl⟩ := h.files_valid hq
    rw [h.refines.1 key hk, h'.refines.1 key hk]

/-- A blob is put at the key. -/
def putEvent (key : Str) : BlobEvent := ⟨.put key ⟨[.ok [1]], none⟩ ⟨none⟩, sampleUuid 0, 0⟩

/-- It is deleted again. -/
def deleteEvent (key : Str) : BlobEvent := ⟨.delete key, sampleUuid 1, 1⟩

def putTree (key : Str) : FileTree :=
  ((putEvent key).exec Digest.sha256 (FileTree.empty Limits.widest)).2

def putDeleteTree (key : Str) : FileTree := ((deleteEvent key).exec Digest.sha256 (putTree key)).2

/-- A put that is undone by a delete leaves no blob. -/
theorem putDeleteTree_run {key : Str} (hfresh : FreshUuid (putTree key) (sampleUuid 1))
    (hdelete : (FsM.run 1 (deleteBlob key) (putTree key)).1 = .ok ()) :
    ∃ log, BlobRun Digest.sha256 Limits.widest log (putDeleteTree key) fun _ => none := by
  have hstart : BlobRun Digest.sha256 Limits.widest [] (FileTree.empty Limits.widest) _ := .start
  have hput := hstart.step (putEvent key) (fun e he => by cases he)
  have hrun := hput.step (deleteEvent key) hfresh
  have hreply : ((deleteEvent key).exec Digest.sha256 (putTree key)).1 = .delete (.ok ()) :=
    congrArg BlobReply.delete hdelete
  have hstore : ∀ reply, (deleteEvent key).op.apply ((putEvent key).op.apply (fun _ => none) reply)
      (.delete (.ok ())) = fun _ => none := by
    intro reply
    funext k
    by_cases hk : k = key
    · simp [deleteEvent, BlobOp.apply, hk]
    · simp only [deleteEvent, BlobOp.apply, Function.update_of_ne hk]
      rcases reply with (_ | _) | _ | _ | _ <;> simp [putEvent, hk]
  have hnone := hstore ((putEvent key).exec Digest.sha256 (FileTree.empty Limits.widest)).1
  rw [← hreply] at hnone
  rw [← hnone]
  exact ⟨_, hrun⟩

end Local

end GraphqlOrmStorage
