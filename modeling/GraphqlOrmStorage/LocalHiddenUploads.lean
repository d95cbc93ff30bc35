import GraphqlOrmStorage.LocalObjectListing

/-!
# Uploads that are not completed

An open writer makes directories and writes temporary files below the root that the
listings walk. Reads of objects go by the sidecar, and listings skip temporary files, so what
a read returned it still returns, and a writer that is aborted leaves no file. The directories
stay. A listing notices them where the filesystem refuses a name of its prefix: it was empty
as long as a directory on the way was missing, and fails as soon as that directory is there.
-/
namespace GraphqlOrmStorage.Local

open Text Program Program.Prog FileTree

/-- A temporary path under one of the identifiers. -/
def TempOf (ids : List Uuid) (q : Path) : Prop := ∃ p, ∃ u ∈ ids, q = tempPath p u

theorem TempOf.mono {ids ids' : List Uuid} (hs : ids ⊆ ids') {q : Path} (h : TempOf ids q) :
    TempOf ids' q := by
  obtain ⟨p, u, hu, he⟩ := h
  exact ⟨p, u, hs hu, he⟩

theorem sidecarPath_not_temp (ids : List Uuid) (bucket key : Str) :
    ¬ TempOf ids (sidecarPath bucket key) := by
  intro h
  obtain ⟨p, u, _, he⟩ := h
  exact sidecarPath_ne_tempPath p u he

/-- Only temporary files changed, and no directory vanished. -/
structure TempsOnly (ids : List Uuid) (t t' : FileTree) : Prop where
  files : ∀ q, ¬ TempOf ids q → t'.files q = t.files q
  keeps : KeepsDirs t t'

theorem TempsOnly.refl (ids : List Uuid) (t : FileTree) : TempsOnly ids t t :=
  ⟨fun _ _ => rfl, KeepsDirs.refl t⟩

theorem TempsOnly.trans {ids : List Uuid} {t₁ t₂ t₃ : FileTree} (h₁ : TempsOnly ids t₁ t₂)
    (h₂ : TempsOnly ids t₂ t₃) : TempsOnly ids t₁ t₃ :=
  ⟨fun q hq => (h₂.files q hq).trans (h₁.files q hq), h₁.keeps.trans h₂.keeps⟩

theorem TempsOnly.mono {ids ids' : List Uuid} {t t' : FileTree} (h : TempsOnly ids t t')
    (hs : ids ⊆ ids') : TempsOnly ids' t t' :=
  ⟨fun q hq => h.files q fun hq' => hq (hq'.mono hs), h.keeps⟩

/-- No object with a sidecar has a name that contains one of the identifiers. -/
def NamesFresh (ids : List Uuid) (t : FileTree) : Prop :=
  ∀ b k, ValidName b k → t.files (sidecarPath b k) ≠ none → ∀ u ∈ ids, Unmentioned u b k

theorem NamesFresh.of_temps {ids ids' : List Uuid} {t t' : FileTree} (h : NamesFresh ids t)
    (ht : TempsOnly ids' t t') : NamesFresh ids t' := by
  intro b k hv hside
  rw [ht.files _ (sidecarPath_not_temp ids' b k)] at hside
  exact h b k hv hside

/-- A prefix that leads through a temporary file. -/
def ThroughTemp (ids : List Uuid) (path : Path) : Prop :=
  ∃ q, TempOf ids q ∧ q <+: path ∧ q ≠ path

/-- Whatever a read returned with `Ok` it still returns. -/
structure StillRead (codec : Codec) (ids : List Uuid) (t t' : FileTree) : Prop where
  metadata : ∀ bucket key now info,
    (FsM.run now (getObjectMetadata codec bucket key) t).1 = .ok info ↔
      (FsM.run now (getObjectMetadata codec bucket key) t').1 = .ok info
  range : ∀ bucket key start stop now body,
    (FsM.run now (getObjectRange codec bucket key start stop) t).1 = .ok body →
      (FsM.run now (getObjectRange codec bucket key start stop) t').1 = .ok body
  listing : ∀ bucket pre now fuel fuel' infos, t.entries.length < fuel →
    t'.entries.length < fuel' → (∀ c ∈ objectStart bucket pre, t.limits.acceptsName c) →
    ¬ ThroughTemp ids (objectStart bucket pre) →
    (FsM.run now (listObjects codec fuel bucket pre) t).1 = .ok infos →
      (FsM.run now (listObjects codec fuel' bucket pre) t').1 = .ok infos

section Reads

variable {codec : Codec} {ids : List Uuid} {t t' : FileTree}

theorem TempsOnly.metadata_iff (codec : Codec) (h : TempsOnly ids t t') (bucket key : Str)
    (now : ℤ) (info : ObjectInfo) :
    (FsM.run now (getObjectMetadata codec bucket key) t).1 = .ok info ↔
      (FsM.run now (getObjectMetadata codec bucket key) t').1 = .ok info := by
  rw [getObjectMetadata_eq_ok, getObjectMetadata_eq_ok, h.files _ (sidecarPath_not_temp ids _ _)]

theorem TempsOnly.range_ok (h : TempsOnly ids t t') (hf : NamesFresh ids t) {bucket key : Str}
    {start stop : ℕ} {now : ℤ} {body : ObjectRangeBody}
    (hr : (FsM.run now (getObjectRange codec bucket key start stop) t).1 = .ok body) :
    (FsM.run now (getObjectRange codec bucket key start stop) t').1 = .ok body := by
  rw [← hr]
  cases hm : (FsM.run now (getObjectMetadata codec bucket key) t).1 with
  | error e =>
    obtain ⟨e', he⟩ := getObjectRange_error start stop hm
    rw [he] at hr
    cases hr
  | ok info =>
    have hm' := (h.metadata_iff codec bucket key now info).mp hm
    obtain ⟨hv, encoded, hside, _⟩ := getObjectMetadata_eq_ok.mp hm
    have hdata : t'.files (dataPath bucket key) = t.files (dataPath bucket key) := by
      apply h.files
      rintro ⟨p, u, hu, he⟩
      exact (hf bucket key hv (by simp [hside]) u hu).dataPath_ne p he
    cases hl : t.lookup (dataPath bucket key) with
    | none =>
      obtain ⟨e, he⟩ := getObjectRange_missing start stop hm hl
      rw [he] at hr
      cases hr
    | some n =>
      cases n with
      | dir =>
        have hl' := isDir_iff.mp (h.keeps.dirs _ (isDir_iff.mpr hl))
        exact getObjectRange_of_node now now start stop hm hm' hl hl' rfl
      | file b m =>
        obtain ⟨m', hl'⟩ := files_eq_some.mp (hdata.trans (files_eq_some.mpr ⟨m, hl⟩))
        exact getObjectRange_of_node now now start stop hm hm' hl hl' rfl

/-! ### Listings -/

theorem TempsOnly.listedBelow_eq (h : TempsOnly ids t t') (now : ℤ) (bucket pre : Str)
    (path : Path) :
    listedBelow codec now t' bucket pre path = listedBelow codec now t bucket pre path := by
  have hskip : ∀ s : FileTree, listedBelow codec now s bucket pre path =
      ((filesBelow s path).filter fun q => !isUploadingTempFile q).filterMap
        (listedInfo codec now s bucket pre) := by
    intro s
    rw [listedBelow, List.filterMap_filter]
    refine List.filterMap_congr fun q _ => ?_
    by_cases hup : isUploadingTempFile q = true
    · simp [listedInfo, hup]
    · simp [hup]
  have hinfo : ∀ q, listedInfo codec now t' bucket pre q = listedInfo codec now t bucket pre q := by
    intro q
    have hread : ∀ key, (FsM.run now (getObjectMetadata codec bucket key) t').1.toOption =
        (FsM.run now (getObjectMetadata codec bucket key) t).1.toOption := by
      intro key
      have hiff := h.metadata_iff codec bucket key now
      cases hm : (FsM.run now (getObjectMetadata codec bucket key) t).1 with
      | ok info => rw [(hiff info).mp hm]
      | error e =>
        cases hm' : (FsM.run now (getObjectMetadata codec bucket key) t').1 with
        | ok info =>
          rw [(hiff info).mpr hm'] at hm
          cases hm
        | error e' => rfl
    simp only [listedInfo, hread]
  rw [hskip, hskip, @filter_filesBelow t t']
  · exact congrArg (List.filterMap · _) (funext hinfo)
  · intro q hq
    apply h.files
    rintro ⟨p, u, _, rfl⟩
    simp [isUploadingTempFile_tempPath] at hq

/-- A start that is found, or missing in a directory, stays so. -/
theorem TempsOnly.startFound (h : TempsOnly ids t t') {bucket pre : Str}
    (hacc : ∀ c ∈ objectStart bucket pre, t.limits.acceptsName c)
    (hthrough : ¬ ThroughTemp ids (objectStart bucket pre)) (hs : StartFound t bucket pre) :
    StartFound t' bucket pre := by
  by_cases hl : t'.lookup (objectStart bucket pre) = none
  swap
  · exact Or.inl hl
  right
  have hroot : t'.isDir [] = true := isDir_iff.mpr t'.lookup_nil
  obtain ⟨front, c, back, heq, hfront, hc⟩ := exists_first_missing hroot (by simpa using hl)
  rw [List.nil_append] at hfront hc
  cases hn : t'.files (front ++ [c]) with
  | none =>
    refine (resolveError_eq_notFound_iff.mpr ⟨front, c, back, heq, hfront, ?_, ?_⟩).2
    · exact lookup_eq_none_iff.mpr ⟨hn, hc⟩
    · rw [h.keeps.limits]
      exact hacc c (by simp [heq])
  | some b =>
    have hback : back ≠ [] := by
      rintro rfl
      rw [heq] at hl
      rw [files_of_lookup_none hl] at hn
      cases hn
    have hlonger : front ++ [c] <+: objectStart bucket pre ∧
        front ++ [c] ≠ objectStart bucket pre := by
      rw [heq]
      exact ⟨⟨back, by simp⟩, by simpa using hback.symm⟩
    by_cases htemp : TempOf ids (front ++ [c])
    · exact absurd ⟨_, htemp, hlonger⟩ hthrough
    -- The file was on the way before, and the start was neither found nor missing.
    rw [h.files _ htemp] at hn
    rcases hs with hfound | hmissing
    · obtain ⟨n, hfound⟩ := Option.ne_none_iff_exists'.mp hfound
      have hdir : t.lookup (front ++ [c]) = some .dir := by
        rw [heq, List.append_cons] at hfound
        exact lookup_ancestor hback hfound
      rw [files_of_lookup_dir hdir] at hn
      cases hn
    · rw [heq, resolveError_through_file hn] at hmissing
      cases hmissing

theorem TempsOnly.listing_ok (h : TempsOnly ids t t') {bucket pre : Str} {now : ℤ}
    {fuel fuel' : ℕ} {infos : List ObjectInfo} (hfuel : t.entries.length < fuel)
    (hfuel' : t'.entries.length < fuel')
    (hacc : ∀ c ∈ objectStart bucket pre, t.limits.acceptsName c)
    (hthrough : ¬ ThroughTemp ids (objectStart bucket pre))
    (hr : (FsM.run now (listObjects codec fuel bucket pre) t).1 = .ok infos) :
    (FsM.run now (listObjects codec fuel' bucket pre) t').1 = .ok infos := by
  cases hb : validateObjectBucket bucket with
  | error e =>
    simp only [listObjects, hb] at hr
    cases hr
  | ok _ =>
    cases hpre : validateBlobPrefix pre with
    | error e =>
      simp only [listObjects, hb, hpre] at hr
      cases hr
    | ok _ =>
      obtain ⟨hfound, hmissing⟩ := listObjects_spec codec now hb hpre hfuel
      by_cases hs : StartFound t bucket pre
      · rw [hfound hs] at hr
        obtain ⟨hfound', _⟩ := listObjects_spec codec now hb hpre hfuel'
        rw [hfound' (h.startFound hacc hthrough hs), h.listedBelow_eq, ← hr]
      · obtain ⟨e, he⟩ := hmissing hs
        rw [he] at hr
        cases hr

theorem TempsOnly.stillRead (h : TempsOnly ids t t') (hf : NamesFresh ids t) :
    StillRead codec ids t t' :=
  ⟨h.metadata_iff codec, fun _ _ _ _ _ _ => h.range_ok hf, fun _ _ _ _ _ _ => h.listing_ok⟩

end Reads

/-! ### Uploads that are not completed -/

section Uploads

variable {D : Digest} {codec : Codec} {t : FileTree} {w : LocalMultipartWriter D}
  {dataId metaId : Uuid}

theorem Opened.feed (h : Opened w dataId metaId) (bytes : Bytes) :
    Opened (w.feed bytes) dataId metaId :=
  ⟨h.valid, h.objectPath_eq, h.metadataPath_eq, h.tempPath_eq, h.metadataTempPath_eq⟩

/-- What agrees off the temporary files of a writer. -/
theorem Opened.tempsOnly (h : Opened w dataId metaId) {t' : FileTree}
    (ha : AgreeOff [w.tempPath, w.metadataTempPath] t t') (hk : KeepsDirs t t') :
    TempsOnly [dataId, metaId] t t' := by
  refine ⟨fun q hq => ha q fun hm => hq ?_, hk⟩
  rw [h.tempPath_eq, h.metadataTempPath_eq] at hm
  simp only [List.mem_cons, List.not_mem_nil, or_false] at hm
  rcases hm with he | he
  · exact ⟨_, dataId, by simp, he⟩
  · exact ⟨_, metaId, by simp, he⟩

/-- A chunk goes to the temporary file, if that is still there. -/
theorem writeChunk_agreeOff (w : LocalMultipartWriter D) (bytes : Bytes) (now : ℤ) (t : FileTree) :
    (FsM.run now (w.writeChunk bytes) t).1.2 = w.feed bytes ∧
      AgreeOff [w.tempPath] t (FsM.run now (w.writeChunk bytes) t).2 := by
  have ha : AgreeOff [w.tempPath] t (t.append w.tempPath bytes now).2 := by
    cases hf : t.files w.tempPath with
    | none =>
      simp only [FileTree.append, hf]
      exact AgreeOff.refl _ _
    | some old => exact agreeOff_of_update (append_files hf bytes now).1
  simp only [LocalMultipartWriter.writeChunk, Prog.bind_eq_bind, FsM.run_bind, Fs.run_append]
  cases (t.append w.tempPath bytes now).1 <;> exact ⟨rfl, ha⟩

/-- After an abort neither temporary file is left. -/
theorem abort_removes (w : LocalMultipartWriter D) (now : ℤ) (t : FileTree) :
    (FsM.run now w.abort t).2.files w.tempPath = none ∧
      (FsM.run now w.abort t).2.files w.metadataTempPath = none := by
  simp only [LocalMultipartWriter.abort, Prog.bind_eq_bind, FsM.run_bind]
  obtain ⟨hf₁, _⟩ := removeIfPresent_spec w.tempPath now t
  generalize (FsM.run now (removeIfPresent w.tempPath) t) = r₁ at hf₁ ⊢
  obtain ⟨hf₂, _⟩ := removeIfPresent_spec w.metadataTempPath now r₁.2
  have hboth : (FsM.run now (removeIfPresent w.metadataTempPath) r₁.2).2.files w.tempPath = none ∧
      (FsM.run now (removeIfPresent w.metadataTempPath) r₁.2).2.files w.metadataTempPath =
        none := by
    rw [hf₂, hf₁]
    refine ⟨?_, Function.update_self ..⟩
    by_cases he : w.tempPath = w.metadataTempPath
    · rw [he, Function.update_self]
    · rw [Function.update_of_ne he, Function.update_self]
  split <;> exact hboth

/-- The chunk loop on a body that fails: it ends with an abort. -/
theorem streamChunks_fails (codec : Codec) (now : ℤ) (l : List (Except StorageError Bytes))
    (hl : ∃ e, .error e ∈ l) (w : LocalMultipartWriter D) (t : FileTree) :
    let r := FsM.run now (streamChunks codec now l w) t
    (∃ e, r.1 = .error e) ∧ AgreeOff [w.tempPath, w.metadataTempPath] t r.2 ∧
      r.2.files w.tempPath = none ∧ r.2.files w.metadataTempPath = none := by
  induction l generalizing t w with
  | nil =>
    obtain ⟨e, he⟩ := hl
    cases he
  | cons x l ih =>
    cases x with
    | error e =>
      simp only [streamChunks, Prog.bind_eq_bind, FsM.run_bind]
      exact ⟨⟨e, rfl⟩, abort_agreeOff w now t, abort_removes w now t⟩
    | ok bytes =>
      have hrest : ∃ e, .error e ∈ l := by
        obtain ⟨e, he⟩ := hl
        exact ⟨e, by simpa using he⟩
      obtain ⟨hfeed, ha⟩ := writeChunk_agreeOff w bytes now t
      simp only [streamChunks, Prog.bind_eq_bind, FsM.run_bind]
      generalize FsM.run now (w.writeChunk bytes) t = r at hfeed ha ⊢
      obtain ⟨⟨r, w'⟩, t₁⟩ := r
      obtain rfl : w' = w.feed bytes := hfeed
      have hchunk : AgreeOff [w.tempPath, w.metadataTempPath] t t₁ := ha.mono (by simp)
      cases r with
      | ok _ =>
        obtain ⟨herr, ha', hgone⟩ := ih hrest (w.feed bytes) t₁
        exact ⟨herr, hchunk.trans ha', hgone⟩
      | error e =>
        simp only [FsM.run_bind]
        exact ⟨⟨e, rfl⟩, hchunk.trans (abort_agreeOff (w.feed bytes) now t₁),
          abort_removes (w.feed bytes) now t₁⟩

/-- Names with a sidecar do not contain a fresh identifier. -/
theorem FreshUuid.unmentioned {u : Uuid} (h : FreshUuid t u) {b k : Str}
    (hside : t.files (sidecarPath b k) ≠ none) : Unmentioned u b k := by
  have hclean : ∀ c ∈ sidecarPath b k, ¬ u.toStr <:+: c := fun c hc hu =>
    hside (files_of_lookup_none (h.files_none hc hu))
  intro c hc hu
  rcases List.mem_cons.mp hc with rfl | hc
  · exact hclean c (by simp [sidecarPath]) hu
  · have hne := splitOn_ne_nil k
    rw [← List.dropLast_append_getLast hne] at hc
    rcases List.mem_append.mp hc with hc | hc
    · exact hclean c (by simp [sidecarPath, hc]) hu
    · obtain rfl := List.mem_singleton.mp hc
      refine hclean ((k.splitOn '/').getLast hne ++ metadataSuffix) ?_
        (hu.trans (List.prefix_append _ _).isInfix)
      simp [sidecarPath, List.getLast?_eq_some_getLast hne]

/-- A body that fails leaves the files as they were. -/
theorem putObjectStream_fails (D : Digest) (codec : Codec) (now : ℤ) (bucket key : Str)
    (contentType : Option Str) (metadata : ObjectMetadata) {stream : StorageByteStream}
    (hs : ∃ e, .error e ∈ stream.inner)
    (hd : FreshUuid t dataId) (hm : FreshUuid t metaId) :
    let r := FsM.run now
      (putObjectStream D codec now dataId metaId bucket key contentType metadata stream) t
    (∃ e, r.1 = .error e) ∧ r.2.files = t.files := by
  intro r
  simp only [r, putObjectStream, Prog.bind_eq_bind, FsM.run_bind]
  obtain ⟨_, ⟨e, he, hf⟩ | ⟨w, hw, _, _, hwriting, hf⟩⟩ :=
    createMultipartObject_spec D dataId metaId bucket key contentType metadata now t
  · rw [he]
    exact ⟨⟨e, rfl⟩, hf⟩
  · rw [hw]
    obtain ⟨herr, ha, ht, hmt⟩ := streamChunks_fails codec now stream.inner hs w
      (FsM.run now (createMultipartObject D dataId metaId bucket key contentType metadata) t).2
    refine ⟨herr, funext fun q => ?_⟩
    by_cases hq : q ∈ [w.tempPath, w.metadataTempPath]
    · simp only [List.mem_cons, List.not_mem_nil, or_false] at hq
      rcases hq with rfl | rfl
      · rw [ht, hwriting.tempPath_eq, hd.tempPath]
      · rw [hmt, hwriting.metadataTempPath_eq, hm.tempPath]
    · rw [ha q hq, hf, Function.update_of_ne]
      exact fun he => hq (by simp [he])

/-- The open writers are as they were created, and no object with a sidecar has a name with
an identifier that was drawn. -/
structure UploadsInv (s : ObjectState D) : Prop where
  opened : ∀ o ∈ s.writers, Opened o.writer o.dataId o.metaId
  drawn : ∀ o ∈ s.writers, o.dataId ∈ s.used ∧ o.metaId ∈ s.used
  fresh : NamesFresh s.used s.tree

/-- The steps of uploads that are not completed: writers are created, written to and aborted,
and whole uploads run of which the body fails. New identifiers occur in no name on disk. -/
def Pending (s : ObjectState D) : ObjectOp → Prop
  | .createMultipartObject dataId metaId _ _ _ _ =>
    FreshUuid s.tree dataId ∧ FreshUuid s.tree metaId
  | .writeChunk _ _ | .abort _ => True
  | .putObjectStream dataId metaId _ _ _ _ stream =>
    FreshUuid s.tree dataId ∧ FreshUuid s.tree metaId ∧ ∃ e, .error e ∈ stream.inner
  | .complete _ | .deleteObject _ _ => False

theorem NamesFresh.draw {ids : List Uuid} (h : NamesFresh ids t) (hd : FreshUuid t dataId)
    (hm : FreshUuid t metaId) : NamesFresh (dataId :: metaId :: ids) t := by
  intro b k hv hside u hu
  rcases List.mem_cons.mp hu with rfl | hu
  · exact hd.unmentioned hside
  rcases List.mem_cons.mp hu with rfl | hu
  · exact hm.unmentioned hside
  · exact h b k hv hside u hu

/-- One step touches temporary files only, and keeps the invariant. -/
theorem Pending.step (codec : Codec) {s : ObjectState D} {op : ObjectOp} (hp : Pending s op)
    (h : UploadsInv s) (now : ℤ) : s.used ⊆ (s.step codec now op).used ∧
      TempsOnly (s.step codec now op).used s.tree (s.step codec now op).tree ∧
      UploadsInv (s.step codec now op) := by
  cases op with
  | complete i => exact hp.elim
  | deleteObject bucket key => exact hp.elim
  | writeChunk i bytes =>
    cases hi : s.writers[i]? with
    | none =>
      simp only [ObjectState.step, hi]
      exact ⟨List.Subset.refl _, TempsOnly.refl _ _, h⟩
    | some o =>
      have hm := List.mem_of_getElem? hi
      have hopened := h.opened o hm
      obtain ⟨hfeed, ha⟩ := writeChunk_agreeOff o.writer bytes now s.tree
      have hk := FsM.run_keepsDirs now (o.writer.writeChunk bytes) s.tree
      have htemps : TempsOnly s.used s.tree (FsM.run now (o.writer.writeChunk bytes) s.tree).2 := by
        refine (hopened.tempsOnly (ha.mono (by simp)) hk).mono ?_
        simpa using h.drawn o hm
      simp only [ObjectState.step, hi, hfeed]
      refine ⟨List.Subset.refl _, htemps, ⟨?_, ?_, h.fresh.of_temps htemps⟩⟩
      · intro o' ho'
        rcases List.mem_or_eq_of_mem_set ho' with ho' | rfl
        · exact h.opened o' ho'
        · exact hopened.feed bytes
      · intro o' ho'
        rcases List.mem_or_eq_of_mem_set ho' with ho' | rfl
        · exact h.drawn o' ho'
        · exact h.drawn o hm
  | abort i =>
    cases hi : s.writers[i]? with
    | none =>
      simp only [ObjectState.step, hi]
      exact ⟨List.Subset.refl _, TempsOnly.refl _ _, h⟩
    | some o =>
      have hm := List.mem_of_getElem? hi
      have hk := FsM.run_keepsDirs now o.writer.abort s.tree
      have htemps : TempsOnly s.used s.tree (FsM.run now o.writer.abort s.tree).2 := by
        refine ((h.opened o hm).tempsOnly (abort_agreeOff o.writer now s.tree) hk).mono ?_
        simpa using h.drawn o hm
      simp only [ObjectState.step, hi]
      refine ⟨List.Subset.refl _, htemps, ⟨?_, ?_, h.fresh.of_temps htemps⟩⟩
      · exact fun o' ho' => h.opened o' (List.mem_of_mem_eraseIdx ho')
      · exact fun o' ho' => h.drawn o' (List.mem_of_mem_eraseIdx ho')
  | createMultipartObject dataId metaId bucket key contentType metadata =>
    obtain ⟨hd, hmeta⟩ := hp
    have hused : s.used ⊆ dataId :: metaId :: s.used := by simp
    have hk := FsM.run_keepsDirs now
      (Local.createMultipartObject D dataId metaId bucket key contentType metadata) s.tree
    have hfresh := h.fresh.draw hd hmeta
    obtain ⟨_, ⟨e, he, hf⟩ | ⟨w, hw, _, _, hwriting, hf⟩⟩ :=
      createMultipartObject_spec D dataId metaId bucket key contentType metadata now s.tree
    · have htemps : TempsOnly (dataId :: metaId :: s.used) s.tree _ :=
        ⟨fun q _ => congrFun hf q, hk⟩
      simp only [ObjectState.step, he]
      exact ⟨hused, htemps, ⟨h.opened, fun o ho => ⟨hused (h.drawn o ho).1,
        hused (h.drawn o ho).2⟩, hfresh.of_temps htemps⟩⟩
    · have htemps : TempsOnly (dataId :: metaId :: s.used) s.tree _ :=
        (hwriting.opened.tempsOnly ((agreeOff_of_update hf).mono (by simp)) hk).mono (by simp)
      simp only [ObjectState.step, hw]
      refine ⟨hused, htemps, ⟨?_, ?_, hfresh.of_temps htemps⟩⟩
      · intro o ho
        rcases List.mem_cons.mp ho with rfl | ho
        · exact hwriting.opened
        · exact h.opened o ho
      · intro o ho
        rcases List.mem_cons.mp ho with rfl | ho
        · simp
        · exact ⟨hused (h.drawn o ho).1, hused (h.drawn o ho).2⟩
  | putObjectStream dataId metaId bucket key contentType metadata stream =>
    obtain ⟨hd, hmeta, hs⟩ := hp
    have hused : s.used ⊆ dataId :: metaId :: s.used := by simp
    have hk := FsM.run_keepsDirs now
      (Local.putObjectStream D codec now dataId metaId bucket key contentType metadata stream)
      s.tree
    obtain ⟨⟨e, he⟩, hf⟩ := putObjectStream_fails D codec now bucket key contentType metadata
      hs hd hmeta
    have htemps : TempsOnly (dataId :: metaId :: s.used) s.tree _ :=
      ⟨fun q _ => congrFun hf q, hk⟩
    exact ⟨hused, htemps, ⟨h.opened, fun o ho => ⟨hused (h.drawn o ho).1,
      hused (h.drawn o ho).2⟩, (h.fresh.draw hd hmeta).of_temps htemps⟩⟩

/-- Any number of such steps, of any number of writers. -/
inductive PendingRun (codec : Codec) (s : ObjectState D) : ObjectState D → Prop
  | refl : PendingRun codec s s
  | step {s' : ObjectState D} (now : ℤ) (op : ObjectOp) : PendingRun codec s s' → Pending s' op →
      PendingRun codec s (s'.step codec now op)

theorem PendingRun.temps {s s' : ObjectState D} (hrun : PendingRun codec s s')
    (h : UploadsInv s) : s.used ⊆ s'.used ∧ TempsOnly s'.used s.tree s'.tree ∧ UploadsInv s' := by
  induction hrun with
  | refl => exact ⟨List.Subset.refl _, TempsOnly.refl _ _, h⟩
  | step now op _ hp ih =>
    obtain ⟨hused, htemps, hinv⟩ := ih
    obtain ⟨hused', htemps', hinv'⟩ := hp.step codec hinv now
    exact ⟨List.Subset.trans hused hused', (htemps.mono hused').trans htemps', hinv'⟩

/-- Whatever a read returned with `Ok` it returns after any interleaving of uploads that are
not completed; a listing does if the filesystem takes the names of its prefix and the prefix
leads through no temporary file. An aborted writer and an upload with a failing body leave no
file. -/
theorem pending_uploads_hidden (D : Digest) (codec : Codec) (s s' : ObjectState D)
    (h : UploadsInv s) (hrun : PendingRun codec s s') :
    StillRead codec s'.used s.tree s'.tree ∧
    (∀ now i o, s'.writers[i]? = some o →
      (s'.step codec now (.abort i)).tree.files o.writer.tempPath = none ∧
      (s'.step codec now (.abort i)).tree.files o.writer.metadataTempPath = none) ∧
    ∀ now dataId metaId bucket key contentType metadata stream,
      Pending s' (.putObjectStream dataId metaId bucket key contentType metadata stream) →
      (s'.step codec now (.putObjectStream dataId metaId bucket key contentType metadata
        stream)).tree.files = s'.tree.files := by
  obtain ⟨_, htemps, hinv⟩ := hrun.temps h
  refine ⟨htemps.stillRead ?_, ?_, ?_⟩
  · intro b k hv hside
    rw [← htemps.files _ (sidecarPath_not_temp _ b k)] at hside
    exact hinv.fresh b k hv hside
  · intro now i o hi
    simp only [ObjectState.step, hi]
    exact abort_removes o.writer now s'.tree
  · intro now dataId metaId bucket key contentType metadata stream hp
    obtain ⟨hd, hm, hs⟩ := hp
    exact (putObjectStream_fails D codec now bucket key contentType metadata hs hd hm).2

theorem CellsInv.uploadsInv {s : ObjectState D} (h : CellsInv codec s) : UploadsInv s := by
  refine ⟨fun o ho => (h.writing o ho).opened, fun o ho => ?_, fun b k hv hside u hu => ?_⟩
  · exact ⟨(h.drawn o ho).1, (h.drawn o ho).2.1⟩
  · cases hc : s.cells (b, k) with
    | none => exact absurd (h.absent b k hv hc) hside
    | some c => exact h.clean u hu _ (h.present b k c hc).1

end Uploads

/-- A writer is opened on `b/j` and written to; `b/k` can still be read. -/
theorem pending_uploads_hidden_one :
    ∃ s' : ObjectState Digest.sha256, PendingRun sampleCodec afterSamplePut s' ∧
      s'.writers.length = 1 ∧
      (FsM.run 5 (getObjectMetadata sampleCodec "b".toList "k".toList) s'.tree).1 =
        .ok sampleInfo := by
  have hrun : ObjectRun sampleCodec Limits.widest ObjectOp.Unreserved afterSamplePut :=
    objectRun_samplePut (not_reserved_of_bucket _ (by decide))
  let create : ObjectOp := .createMultipartObject (sampleUuid 3) (sampleUuid 4) "b".toList
    "j".toList none []
  have hcreate : Pending afterSamplePut create := ⟨by decide +kernel, by decide +kernel⟩
  have hpending : PendingRun sampleCodec afterSamplePut
      ((afterSamplePut.step sampleCodec 1 create).step sampleCodec 2 (.writeChunk 0 [7])) :=
    (PendingRun.refl.step 1 create hcreate).step 2 (.writeChunk 0 [7]) trivial
  refine ⟨_, hpending, by decide +kernel, ?_⟩
  exact ((pending_uploads_hidden _ _ _ _ hrun.inv.uploadsInv hpending).1.metadata _ _ _ _).mp
    (by decide +kernel)

theorem legalName_of_short {c : Str} (h : decide (LegalName c ∧ c.length ≤ 255) = true) :
    LegalName c :=
  (of_decide_eq_true h).1

/-- Names of at most 255 bytes, as most filesystems have them; for ASCII names that is their
length. -/
def Limits.shortNames : Limits where
  acceptsName c := decide (LegalName c ∧ c.length ≤ 255)
  maxFileSize := 2 ^ 63 - 1
  legal := fun _ => legalName_of_short
  offset_bound := Limits.largestOffset_lt

/-- Nothing lies below `a`, then a writer is opened on `a/k`: a listing below `a` of a name that
is too long was empty and is an error now, because `a` exists. -/
theorem pending_upload_shows_directory :
    ∃ s s' : ObjectState Digest.sha256, UploadsInv s ∧ PendingRun sampleCodec s s' ∧
      ∃ pre fuel, s.tree.entries.length < fuel ∧ s'.tree.entries.length < fuel ∧
        (FsM.run 0 (listObjects sampleCodec fuel "b".toList pre) s.tree).1 = .ok [] ∧
        ∀ infos, (FsM.run 0 (listObjects sampleCodec fuel "b".toList pre) s'.tree).1 ≠
          .ok infos := by
  let s : ObjectState Digest.sha256 := ObjectState.start _ Limits.shortNames
  let create : ObjectOp := .createMultipartObject (sampleUuid 1) (sampleUuid 2) "b".toList
    "a/k".toList none []
  have hrun : PendingRun sampleCodec s (s.step sampleCodec 0 create) :=
    PendingRun.refl.step 0 create ⟨by decide +kernel, by decide +kernel⟩
  have hinv : UploadsInv s := ⟨by simp [s, ObjectState.start], by simp [s, ObjectState.start],
    fun b k _ hside u hu => by simp [s, ObjectState.start] at hu⟩
  let pre : Str := "a/".toList ++ List.replicate 256 'x'
  have hb : validateObjectBucket "b".toList = .ok () := by decide +kernel
  have hpre : validateBlobPrefix pre = .ok () := by decide +kernel
  have hfuel : s.tree.entries.length < 20 := by decide +kernel
  have hfuel' : (s.step sampleCodec 0 create).tree.entries.length < 20 := by decide +kernel
  have hfound : StartFound s.tree "b".toList pre := by
    unfold StartFound
    decide +kernel
  have hlost : ¬ StartFound (s.step sampleCodec 0 create).tree "b".toList pre := by
    unfold StartFound
    decide +kernel
  have hnone : listedBelow sampleCodec 0 s.tree "b".toList pre
      (objectStart "b".toList pre) = [] := by
    decide +kernel
  refine ⟨s, _, hinv, hrun, pre, 20, hfuel, hfuel', ?_, fun infos hok => ?_⟩
  · rw [(listObjects_spec sampleCodec 0 hb hpre hfuel).1 hfound, hnone]
    rfl
  · obtain ⟨e, he⟩ := (listObjects_spec sampleCodec 0 hb hpre hfuel').2 hlost
    rw [he] at hok
    cases hok

end GraphqlOrmStorage.Local
