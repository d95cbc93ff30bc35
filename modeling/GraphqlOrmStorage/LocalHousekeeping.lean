import GraphqlOrmStorage.Service
import GraphqlOrmStorage.LocalListing

/-!
# Housekeeping and committed blobs

A name that ends in `.uploading` is taken for a leftover of an interrupted write:
listings skip it and `sweep_temp_files` removes it. Names below the internal
directory are skipped by listings too. Key validation and key generation admit
both kinds of names. Runs mix blob operations, the service and sweeps, from any
tree; as long as every committed name is one that housekeeping leaves alone,
every committed blob stays stored and is listed.
-/
namespace GraphqlOrmStorage.Local

open Text Program FileTree

/-! ### The sweeper -/

/-- Whatever the sweeper does, it only ever removes files with a temporary name. -/
theorem sweepLoop_files (now : ℤ) (olderThan fuel : ℕ) (stack : List Path) (removed : ℕ)
    (t : FileTree) (q : Path) (hq : isUploadingTempFile q = false) :
    (FsM.run now (sweepLoop now olderThan fuel stack removed) t).2.files q = t.files q := by
  induction fuel generalizing stack removed t with
  | zero => cases stack <;> rfl
  | succ fuel ih =>
    cases stack with
    | nil => rfl
    | cons p stack =>
      simp only [sweepLoop, Prog.bind_eq_bind, FsM.run_bind, Fs.run_metadata]
      split
      · exact ih ..
      · rfl
      · split_ifs with hold
        · simp only [FsM.run_bind, Fs.run_removeFile]
          have hne : q ≠ p := by
            rintro rfl
            simp [hq] at hold
          have hkeep : (t.removeFile p).2.files q = t.files q := by
            rw [(removeFile_files t p).1, Function.update_of_ne hne]
          split
          · exact hkeep
          · rw [ih, hkeep]
        · exact ih ..
      · simp only [FsM.run_bind]
        have hread : (FsM.run now (sortedChildPaths p) t).2 = t := by
          simp only [sortedChildPaths, Prog.bind_eq_bind, FsM.run_bind, Fs.run_readDir]
          split <;> rfl
        split
        · rw [hread]; rfl
        · rw [ih, hread]

theorem sweepTempFiles_files (fuel : ℕ) (now : ℤ) (olderThan : ℕ) (t : FileTree) {q : Path}
    (hq : isUploadingTempFile q = false) :
    (FsM.run now (sweepTempFiles fuel now olderThan) t).2.files q = t.files q :=
  sweepLoop_files now olderThan fuel [[]] 0 t q hq

/-! ### Names that housekeeping leaves alone -/

/-- A generated name has a temporary suffix only when the client's extension is the suffix. -/
theorem not_suffix_storageFileName (u : Uuid) {ext : Option Str} (hdot : ∀ e ∈ ext, '.' ∉ e)
    (h : ext.map toAsciiLowercase ≠ some "uploading".toList) :
    ¬ uploadingSuffix <:+ storageFileName u.toStr ext := by
  have hu : '.' ∉ u.toStr := u.not_mem_toStr (by decide)
  have hdotted : uploadingSuffix = '.' :: "uploading".toList := by decide
  rintro ⟨stem, hstem⟩
  rw [hdotted] at hstem
  have hsplit : rsplitOnce '.' (storageFileName u.toStr ext) = some (stem, "uploading".toList) :=
    rsplitOnce_eq_some.mpr ⟨hstem.symm, by decide⟩
  have hplain : rsplitOnce '.' u.toStr = none := rsplitOnce_eq_none.mpr hu
  cases ext with
  | none => simp [storageFileName, hplain] at hsplit
  | some e =>
    by_cases he : e = []
    · simp [storageFileName, he, hplain] at hsplit
    · have hlow : '.' ∉ toAsciiLowercase e :=
        fun hm => hdot e rfl (mem_toAsciiLowercase (by decide) hm)
      have hname : rsplitOnce '.' (storageFileName u.toStr (some e)) =
          some (u.toStr, toAsciiLowercase e) :=
        rsplitOnce_eq_some.mpr ⟨by simp [storageFileName, he], hlow⟩
      rw [hname] at hsplit
      exact h (by simpa using (Prod.ext_iff.mp (Option.some.inj hsplit)).2)

theorem isVisible_storagePath (ns : StorageNamespace) (u : Uuid) (fileName : Option Str)
    (h : (requestExtension fileName).map toAsciiLowercase ≠ some "uploading".toList) :
    isVisible (storagePath ns u (requestExtension fileName)) = true := by
  have hns : ns.asStr ≠ internalStorageDir := by cases ns <;> decide
  have hdot : ∀ e ∈ requestExtension fileName, '.' ∉ e := by
    intro e he
    obtain ⟨name, -, hname⟩ := Option.bind_eq_some_iff.mp he
    exact (not_mem_fileExtension hname).2.2.2.2
  have hsuffix : uploadingSuffix.isSuffixOf (storageFileName u.toStr (requestExtension fileName)) =
      false := by
    rw [← Bool.not_eq_true, List.isSuffixOf_iff_suffix]
    exact not_suffix_storageFileName u hdot h
  simp [isVisible, isInternalStoragePath, isUploadingTempFile, storagePath, hns, hsuffix]

/-! ### Runs -/

inductive HouseEvent where
  | blob (e : BlobEvent)
  | service (e : Service.ServiceEvent)
  | sweep (fuel : ℕ) (now : ℤ) (olderThan : ℕ)

/-- What a reply of the service says about the committed blobs. -/
def serviceApply (M : BlobMap) (op : Service.ServiceOp) : Service.ServiceReply → BlobMap
  | .put (.ok object) =>
    Function.update M object.storageKey (op.request.map fun request => concatBody request.body)
  | .delete (.ok ()) =>
    match op with
    | .deleteObject object => Function.update M object.storageKey none
    | _ => M
  | _ => M

/-- The tree and the committed blobs after an event. -/
def HouseEvent.exec (D : Digest) (ev : HouseEvent) (t : FileTree) (M : BlobMap) :
    FileTree × BlobMap :=
  match ev with
  | .blob e => ((e.exec D t).2, e.op.apply M (e.exec D t).1)
  | .service e => ((e.exec D t).2, serviceApply M e.op (e.exec D t).1)
  | .sweep fuel now olderThan => ((FsM.run now (sweepTempFiles fuel now olderThan) t).2, M)

/-- The identifiers for temporary files are fresh. -/
def HouseEvent.Fresh (t : FileTree) : HouseEvent → Prop
  | .blob e => FreshUuid t e.uuid
  | .service e => FreshUuid t e.tempId
  | .sweep _ _ _ => True

/-- The event commits only under a name that housekeeping leaves alone: for a key, neither
its file name nor its first directory is reserved; for the service, the client's extension
is not the temporary suffix. -/
def HouseEvent.KeepsNames : HouseEvent → Prop
  | .blob ⟨.put key _ _, _, _⟩ | .blob ⟨.putIfNotExists key _ _, _, _⟩
  | .blob ⟨.copy _ key, _, _⟩ => isVisible (key.splitOn '/') = true
  | .blob ⟨.delete _, _, _⟩ => True
  | .service e => ∀ request, e.op.request = some request →
      (requestExtension request.fileName).map toAsciiLowercase ≠ some "uploading".toList
  | .sweep _ _ _ => True

/-- Sequential runs whose events all meet a condition. They start in any tree, so with any
foreign files and leftovers of interrupted writes, and with nothing committed. -/
inductive HouseRun (D : Digest) (condition : HouseEvent → Prop) : FileTree → BlobMap → Prop
  | start (t : FileTree) : HouseRun D condition t (fun _ => none)
  | step {t : FileTree} {M : BlobMap} (ev : HouseEvent) : HouseRun D condition t M → ev.Fresh t →
      condition ev → HouseRun D condition (ev.exec D t M).1 (ev.exec D t M).2

/-- Every committed blob is stored under a valid name that housekeeping leaves alone. -/
def Committed (t : FileTree) (M : BlobMap) : Prop :=
  ∀ key b, M key = some b →
    ValidKey key ∧ isVisible (key.splitOn '/') = true ∧ t.files (key.splitOn '/') = some b

section Runs

variable {D : Digest} {t t' : FileTree} {M : BlobMap} {key : Str}

theorem Committed.set (h : Committed t M) {content m : Option Bytes}
    (hf : t'.files = Function.update t.files (key.splitOn '/') content)
    (hm : ∀ b, m = some b → ValidKey key ∧ isVisible (key.splitOn '/') = true ∧ content = some b) :
    Committed t' (Function.update M key m) := by
  intro k b hk
  by_cases he : k = key
  · subst he
    rw [Function.update_self] at hk
    obtain ⟨h1, h2, h3⟩ := hm b hk
    exact ⟨h1, h2, by rw [hf, Function.update_self, h3]⟩
  · rw [Function.update_of_ne he] at hk
    obtain ⟨h1, h2, h3⟩ := h k b hk
    have hs : k.splitOn '/' ≠ key.splitOn '/' := fun hs => he (splitOn_injective '/' hs)
    exact ⟨h1, h2, by rw [hf, Function.update_of_ne hs, h3]⟩

theorem Committed.of_files (h : Committed t M) (hf : t'.files = t.files) : Committed t' M := by
  intro k b hk
  rw [hf]
  exact h k b hk

theorem Committed.blob (h : Committed t M) {e : BlobEvent} (hu : FreshUuid t e.uuid)
    (hk : (HouseEvent.blob e).KeepsNames) :
    Committed (e.exec D t).2 (e.op.apply M (e.exec D t).1) := by
  obtain ⟨op, u, now⟩ := e
  cases op with
  | put key body options =>
    rcases putBlob_spec D u key body options now t (hu.tempPath _) with
      ⟨e, he, hf, _⟩ | ⟨b, hv, hb, hr, hf, _⟩
    · simpa [BlobEvent.exec, he, BlobOp.apply] using h.of_files hf
    · have hset := h.set hf fun b' hb' => ⟨hv, hk, hb'⟩
      simpa [BlobEvent.exec, hr, BlobOp.apply, concatBody_eq hb] using hset
  | putIfNotExists key body options =>
    rcases putBlobIfNotExists_spec D u key body options now t (hu.tempPath _) with
      ⟨⟨e, he⟩ | he, hf, _⟩ | ⟨b, hv, hb, _, hr, hf, _⟩
    · simpa [BlobEvent.exec, he, BlobOp.apply] using h.of_files hf
    · simpa [BlobEvent.exec, he, BlobOp.apply] using h.of_files hf
    · have hset := h.set hf fun b' hb' => ⟨hv, hk, hb'⟩
      simpa [BlobEvent.exec, hr, BlobOp.apply, concatBody_eq hb] using hset
  | copy src dst =>
    rcases copyBlob_spec u src dst now t (hu.tempPath _) with
      ⟨e, he, hf, _⟩ | ⟨b, _, hv, hb, hr, hf, _⟩
    · simpa [BlobEvent.exec, he, BlobOp.apply] using h.of_files hf
    · -- A committed source has the content that was copied.
      have hset := h.set (m := M src) hf fun b' hb' => ⟨hv, hk, by rw [← hb, (h src b' hb').2.2]⟩
      simpa [BlobEvent.exec, hr, BlobOp.apply] using hset
  | delete key =>
    rcases deleteBlob_spec key now t with ⟨_, he⟩ | ⟨hv, hf, _, herr⟩
    · simpa [BlobEvent.exec, he, BlobOp.apply] using h
    · cases hr : (FsM.run now (deleteBlob key) t).1 with
      | ok _ => simpa [BlobEvent.exec, hr, BlobOp.apply] using h.set hf (by simp)
      | error e =>
        have hsame : (FsM.run now (deleteBlob key) t).2.files = t.files := by
          rw [hf, ← herr e hr, Function.update_eq_self]
        simpa [BlobEvent.exec, hr, BlobOp.apply] using h.of_files hsame

theorem Committed.servicePut (h : Committed t M) {e : Service.ServiceEvent}
    (hu : FreshUuid t e.tempId) {request : StoragePutStreamRequest}
    (hreq : e.op.request = some request)
    (hk : (requestExtension request.fileName).map toAsciiLowercase ≠ some "uploading".toList) :
    Committed (e.exec D t).2 (serviceApply M e.op (e.exec D t).1) := by
  have hvisible : isVisible (Service.objectPath (Service.draft e request)) = true := by
    rw [Service.objectPath_draft]
    exact isVisible_storagePath _ _ _ hk
  rw [Service.exec_put D hreq]
  rcases Service.putResult_spec D e request t (hu.tempPath _) with ⟨err, he, hf, _⟩ | ⟨b, hb, hr, hf, _⟩
  · simpa [he, serviceApply] using h.of_files hf
  · have hset : Committed (e.putResult D request t).2
        (Function.update M (Service.draft e request).storageKey (some b)) :=
      h.set hf fun b' hb' => ⟨Service.validKey_draft e request, hvisible, hb'⟩
    simpa [hr, serviceApply, hreq, concatBody_eq hb] using hset

theorem Committed.service (h : Committed t M) {e : Service.ServiceEvent}
    (hu : FreshUuid t e.tempId) (hk : (HouseEvent.service e).KeepsNames) :
    Committed (e.exec D t).2 (serviceApply M e.op (e.exec D t).1) := by
  cases hop : e.op with
  | putObject request =>
    have hreq : e.op.request = some request.toStream := by rw [hop]; rfl
    exact hop ▸ h.servicePut hu hreq (hk _ hreq)
  | putObjectStream request =>
    have hreq : e.op.request = some request := by rw [hop]; rfl
    exact hop ▸ h.servicePut hu hreq (hk _ hreq)
  | deleteObject object =>
    -- The service deletes as the blob store does.
    have hexec : e.exec D t =
        (FsM.run e.now (deleteBlob object.storageKey) t).map Service.ServiceReply.delete id := by
      simp only [Service.ServiceEvent.exec, hop]
      rfl
    have hblob := h.blob (D := D) (e := ⟨.delete object.storageKey, e.tempId, e.now⟩) hu trivial
    rw [hexec]
    simp only [BlobEvent.exec, Prod.map_fst, Prod.map_snd, id_eq] at hblob ⊢
    cases hr : (FsM.run e.now (deleteBlob object.storageKey) t).1 with
    | ok _ => simpa [hr, serviceApply, BlobOp.apply] using hblob
    | error err => simpa [hr, serviceApply, BlobOp.apply] using hblob

theorem not_uploading_of_visible {p : Path} (h : isVisible p = true) :
    isUploadingTempFile p = false := by
  simp only [isVisible, Bool.and_eq_true, Bool.not_eq_true'] at h
  exact h.2

theorem Committed.sweep (h : Committed t M) (fuel : ℕ) (now : ℤ) (olderThan : ℕ) :
    Committed (FsM.run now (sweepTempFiles fuel now olderThan) t).2 M := by
  intro key b hk
  obtain ⟨hv, hvis, hf⟩ := h key b hk
  exact ⟨hv, hvis, by rw [sweepTempFiles_files fuel now olderThan t (not_uploading_of_visible hvis), hf]⟩

/-- Over a whole run, every committed blob stays stored. -/
theorem HouseRun.committed (h : HouseRun D HouseEvent.KeepsNames t M) : Committed t M := by
  induction h with
  | start t => intro key b hk; cases hk
  | step ev _ hfresh hkeeps ih =>
    cases ev with
    | blob e => exact ih.blob hfresh hkeeps
    | service e => exact ih.service hfresh hkeeps
    | sweep fuel now olderThan => exact ih.sweep fuel now olderThan

/-- A committed blob is among the visible keys. -/
theorem Committed.mem_visibleKeys (h : Committed t M) {b : Bytes} (hk : M key = some b) :
    key ∈ visibleKeys t [] := by
  obtain ⟨hv, hvis, hf⟩ := h key b hk
  have hmem : key.splitOn '/' ∈ filesBelow t [] :=
    mem_filesBelow.mpr ⟨List.nil_prefix, by simp [hf]⟩
  exact List.mem_map.mpr
    ⟨key.splitOn '/', List.mem_filter.mpr ⟨hmem, hvis⟩, keyForPath_splitOn hv⟩

end Runs

/-- Where the string order cuts the visible keys at every thousandth, `list_blobs` of
everything returns all of them. -/
theorem listBlobs_of_cuts (now : ℤ) {t : FileTree} (hcut : BoundariesCut (visibleKeys t []) 1000) :
    ∃ bound, ∀ fuel, bound ≤ fuel →
      (FsM.run now (listBlobs fuel []) t).1 = .ok (visibleKeys t []) := by
  have hdrain := Paging.drain_of_cuts (show 0 < 1000 by omega) 0 none
    ((visibleKeys t []).length + 1) hcut (by simp) (by omega)
  rw [Nat.zero_mul, List.drop_zero] at hdrain
  have hsome := hdrain.resolve_right (by omega)
  exact (drainsTo_iff now rfl (Or.inl (by simp [startPath])) (by omega) (by decide) _).mpr ⟨_, hsome⟩

/-- In every run whose events commit only under names that housekeeping leaves alone: a
committed blob is stored, a sweep at any time for any age leaves it stored, and `list_blobs`
of everything returns it whenever the visible keys are cut at every page boundary, as they
are when there are at most a thousand. -/
theorem housekeeping_keeps_committed (D : Digest) (t : FileTree) (M : BlobMap)
    (h : HouseRun D HouseEvent.KeepsNames t M) (key : Str) (b : Bytes) (hk : M key = some b) :
    (∀ now, collectBlob now key t = .ok b) ∧
    (∀ fuel now olderThan now',
      collectBlob now' key (FsM.run now (sweepTempFiles fuel now olderThan) t).2 = .ok b) ∧
    ((visibleKeys t []).length ≤ 1000 ∨ BoundariesCut (visibleKeys t []) 1000 →
      ∀ now, ∃ ks bound, key ∈ ks ∧
        ∀ fuel, bound ≤ fuel → (FsM.run now (listBlobs fuel []) t).1 = .ok ks) := by
  have hc := h.committed
  refine ⟨fun now => ?_, fun fuel now olderThan now' => ?_, fun hcut now => ?_⟩
  · obtain ⟨hv, _, hf⟩ := hc key b hk
    exact (collectBlob_eq_ok hv).mpr hf
  · obtain ⟨hv, _, hf⟩ := hc.sweep fuel now olderThan key b hk
    exact (collectBlob_eq_ok hv).mpr hf
  · have hcut : BoundariesCut (visibleKeys t []) 1000 := by
      rcases hcut with hlen | hcut
      · intro j hj hlt
        omega
      · exact hcut
    obtain ⟨bound, hlist⟩ := listBlobs_of_cuts now hcut
    exact ⟨_, bound, hc.mem_visibleKeys hk, hlist⟩

/-- A blob committed next to a leftover of an interrupted write, which is then swept. -/
theorem housekeeping_keeps_committed_beside_leftover : ∃ t M,
    HouseRun Digest.sha256 HouseEvent.KeepsNames t M ∧ M "a/b".toList = some [7] ∧
      t.files ["x.uploading".toList] = none ∧ collectBlob 0 "a/b".toList t = .ok [7] := by
  let put : HouseEvent :=
    .blob ⟨.put "a/b".toList ⟨[.ok [7]], none⟩ ⟨none⟩, sampleUuid 0, 5⟩
  have h₀ : HouseRun Digest.sha256 HouseEvent.KeepsNames
    (treeOfFiles [["x.uploading".toList]]) fun _ => none := .start _
  have h₁ := h₀.step put (show FreshUuid _ _ by decide +kernel) (show isVisible _ = _ by decide)
  have h₂ := h₁.step (.sweep 10 9 1) trivial trivial
  have hM : (put.exec Digest.sha256 (treeOfFiles [["x.uploading".toList]]) fun _ => none).2
      "a/b".toList = some [7] := by decide +kernel
  exact ⟨_, _, h₂, hM, by decide +kernel,
    (housekeeping_keeps_committed _ _ _ h₂ "a/b".toList [7] hM).1 0⟩

/-- A client that names its file `x.uploading` gets its object stored, but no listing shows it
and a sweep right after the write takes it for a leftover and removes it. -/
theorem housekeeping_removes_committed : ∃ t M key,
    HouseRun Digest.sha256 (fun _ => True) t M ∧ M key = some [7] ∧
      collectBlob 5 key t = .ok [7] ∧ (FsM.run 5 (listBlobs 10 []) t).1 = .ok [] ∧
      (FsM.run 5 (sweepTempFiles 10 5 0) t).1 = .ok 1 ∧
      collectBlob 5 key (FsM.run 5 (sweepTempFiles 10 5 0) t).2 =
        .error (.error (.missingBlob key)) := by
  let put : Service.ServiceEvent :=
    ⟨.putObject ⟨.originals, some "x.uploading".toList, none, [7]⟩, sampleUuid 0, sampleUuid 1, 5⟩
  have h₀ : HouseRun Digest.sha256 (fun _ => True) (FileTree.empty Limits.widest) fun _ => none :=
    .start _
  have h₁ := h₀.step (.service put) (show FreshUuid _ _ by decide +kernel) trivial
  refine ⟨_, _, buildStorageKey .originals (sampleUuid 0) (some "uploading".toList), h₁, ?_⟩
  decide +kernel

end GraphqlOrmStorage.Local
