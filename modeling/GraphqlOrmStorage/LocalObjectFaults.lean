import GraphqlOrmStorage.LocalObjectRaces

/-!
# Completions that fail

`complete` flushes the data, writes the sidecar under a temporary name, renames the data
into place and then the sidecar. Any of the four steps can fail. Only after a failing rename
does the code remove its temporary files, and when the second rename fails the new data is
already in place. Exactly these two failures can leave the object as it was.
-/
namespace GraphqlOrmStorage.Local

open Text Program Program.Prog FileTree

variable {D : Digest} {codec : Codec} {leaves : Option Bytes} {t t' : FileTree}
  {w : LocalMultipartWriter D} {dataId metaId : Uuid}

/-- The filesystem steps of `complete`, without its removals. -/
inductive CompleteStep where
  | flush
  | writeMetadata
  | renameData
  | renameMetadata

/-- How the filesystem answers the calls of `complete`: as it should, or a step fails. A
failing flush may lose bytes of the file, a failing write leaves `leaves` at its path, and a
failing rename changes nothing. Removals leave nothing at their path. -/
def CompleteAnswers (leaves : Option Bytes) (t : FileTree) :
    (c : FsCall) → FsCall.Reply c → FileTree → Prop
  | .flush _, .ok _, t' => t' = t
  | .flush p, .error _, t' => SameDirs t t' ∧ AgreeOff [p] t t' ∧
      (t'.files p = none ↔ t.files p = none)
  | .writeFile p b, .ok _, t' => ∃ now, t.writeFile p b now = (.ok (), t')
  | .writeFile p _, .error _, t' => SameDirs t t' ∧
      t'.files = Function.update t.files p leaves ∧ (leaves = none → t.files p = none)
  | .rename src dst, .ok _, t' => t.rename src dst = (.ok (), t')
  | .rename _ _, .error _, t' => t' = t
  | .removeFile p, r, t' => t.removeFile p = (r, t') ∧ (r = .ok () ∨ r = .error .notFound)
  | _, _, _ => False

/-- The step whose failure an entry of the log records. -/
def failedStep (w : LocalMultipartWriter D) : Sigma FsCall.Reply → Option CompleteStep
  | ⟨.flush _, .error _⟩ => some .flush
  | ⟨.writeFile _ _, .error _⟩ => some .writeMetadata
  | ⟨.rename _ dst, .error _⟩ =>
    some (if dst = w.objectPath then .renameData else .renameMetadata)
  | _ => none

/-- Both calls on the object answer as before, and no temporary file is left. -/
structure Intact (codec : Codec) (w : LocalMultipartWriter D) (t t' : FileTree) : Prop where
  metadata : ∀ now, (FsM.run now (getObjectMetadata codec w.bucket w.key) t').1 =
    (FsM.run now (getObjectMetadata codec w.bucket w.key) t).1
  range : ∀ now start stop,
    (FsM.run now (getObjectRange codec w.bucket w.key start stop) t').1 =
      (FsM.run now (getObjectRange codec w.bucket w.key start stop) t).1
  temp : t'.lookup w.tempPath = none
  metadataTemp : t'.lookup w.metadataTempPath = none

/-- What is uploaded cannot be told from the old data: there is no readable sidecar, or both
agree up to the size that it records. -/
def Indistinct (codec : Codec) (w : LocalMultipartWriter D) (t : FileTree) : Prop :=
  ∀ encoded info, t.files w.metadataPath = some encoded → codec.fromSlice encoded = .ok info →
    ∃ old new, t.files w.objectPath = some old ∧ t.files w.tempPath = some new ∧
      old.take info.sizeBytes = new.take info.sizeBytes

/-- When the failure of a step leaves the object as it was. -/
def StaysIntact (codec : Codec) (w : LocalMultipartWriter D) (leaves : Option Bytes)
    (t : FileTree) : CompleteStep → Prop
  | .flush => t.lookup w.tempPath = none ∧ t.lookup w.metadataTempPath = none
  | .writeMetadata => t.lookup w.tempPath = none ∧ t.lookup w.metadataTempPath = none ∧
      leaves = none
  | .renameData => True
  | .renameMetadata => Indistinct codec w t

/-- What a removal leaves nothing of. -/
def Removed (t : FileTree) (p : Path) (t' : FileTree) : Prop :=
  t' = (t.removeFile p).2 ∧ t'.lookup p = none

theorem removed_of_removeFile {p : Path} {r : Except ErrorKind Unit} (h : t.removeFile p = (r, t'))
    (hr : r = .ok () ∨ r = .error .notFound) : Removed t p t' := by
  refine ⟨by rw [h], ?_⟩
  have ht : t' = (t.removeFile p).2 := by rw [h]
  obtain ⟨hf, hd⟩ := removeFile_files t p
  rw [ht, lookup_eq_none_iff, hf, Function.update_self, hd.1]
  refine ⟨rfl, ?_⟩
  by_contra hdir
  have hl := isDir_iff.mp (by simpa using hdir)
  have hfst := congrArg Prod.fst h
  simp only [removeFile, hl] at hfst
  rcases hr with rfl | rfl <;> cases hfst

/-- How `complete` fails, step by step. -/
inductive CompleteFails (leaves : Option Bytes) (w : LocalMultipartWriter D) (t t' : FileTree) :
    CompleteStep → Prop
  | flush : SameDirs t t' → AgreeOff [w.tempPath] t t' →
      (t'.files w.tempPath = none ↔ t.files w.tempPath = none) →
      CompleteFails leaves w t t' .flush
  | writeMetadata : SameDirs t t' →
      t'.files = Function.update t.files w.metadataTempPath leaves →
      (leaves = none → t.files w.metadataTempPath = none) →
      CompleteFails leaves w t t' .writeMetadata
  | renameData {t₁ t₂ : FileTree} {b : Bytes} {now : ℤ} :
      t.writeFile w.metadataTempPath b now = (.ok (), t₁) → Removed t₁ w.tempPath t₂ →
      Removed t₂ w.metadataTempPath t' → CompleteFails leaves w t t' .renameData
  | renameMetadata {t₁ t₂ : FileTree} {b : Bytes} {now : ℤ} :
      t.writeFile w.metadataTempPath b now = (.ok (), t₁) →
      t₁.rename w.tempPath w.objectPath = (.ok (), t₂) →
      Removed t₂ w.metadataTempPath t' → CompleteFails leaves w t t' .renameMetadata

theorem complete_fails (hw : Opened w dataId metaId) {now : ℤ} {log : List (Sigma FsCall.Reply)}
    {e : StorageError}
    (h : RunsIn (CompleteAnswers leaves) t (w.complete codec now) log t' (.error e))
    {step : CompleteStep} (hstep : ∃ entry ∈ log, failedStep w entry = some step) :
    CompleteFails leaves w t t' step := by
  obtain ⟨ne_to, ne_tm, ne_tt, ne_mo, ne_mm, ne_om⟩ := hw.paths_ne
  obtain ⟨r, t₁, rest, rfl, ha, hrun⟩ := runsIn_call.mp h
  rcases r with source | _
  · obtain ⟨rfl, rfl, _⟩ := runsIn_ret.mp hrun
    obtain rfl : CompleteStep.flush = step := by simpa [failedStep] using hstep
    exact .flush ha.1 ha.2.1 ha.2.2
  obtain rfl : t₁ = t := ha
  change RunsIn _ t₁ ((writeObjectMetadata codec w.metadataTempPath (w.info now)).bind _) rest t' _
    at hrun
  unfold writeObjectMetadata at hrun
  cases hv : codec.toVec (w.info now) with
  | error source =>
    rw [hv] at hrun
    obtain ⟨rfl, rfl, _⟩ := runsIn_ret.mp hrun
    simp [failedStep] at hstep
  | ok bytes =>
    rw [hv] at hrun
    obtain ⟨r, t₁, rest, rfl, hwrite, hwritten⟩ := runsIn_call.mp hrun
    rcases r with source | _
    · obtain ⟨rfl, rfl, _⟩ := runsIn_ret.mp hwritten
      obtain rfl : CompleteStep.writeMetadata = step := by simpa [failedStep] using hstep
      exact .writeMetadata hwrite.1 hwrite.2.1 hwrite.2.2
    obtain ⟨_, hwrite⟩ := hwrite
    obtain ⟨r, t₂, rest, rfl, hrename, hrenamed⟩ := runsIn_call.mp hwritten
    rcases r with source | _
    · obtain rfl : t₂ = t₁ := hrename
      obtain ⟨r, t₂, rest, rfl, ⟨hremove, hr⟩, hremoved⟩ := runsIn_call.mp hrenamed
      obtain ⟨r', t₃, rest, rfl, ⟨hremove', hr'⟩, hend⟩ := runsIn_call.mp hremoved
      obtain ⟨rfl, rfl, _⟩ := runsIn_ret.mp hend
      obtain rfl : CompleteStep.renameData = step := by simpa [failedStep] using hstep
      exact .renameData hwrite (removed_of_removeFile hremove hr)
        (removed_of_removeFile hremove' hr')
    obtain ⟨r, t₃, rest, rfl, hrename', hrenamed'⟩ := runsIn_call.mp hrenamed
    rcases r with source | _
    · obtain rfl : t₃ = t₂ := hrename'
      obtain ⟨r, t₃, rest, rfl, ⟨hremove, hr⟩, hend⟩ := runsIn_call.mp hrenamed'
      obtain ⟨rfl, rfl, _⟩ := runsIn_ret.mp hend
      obtain rfl : CompleteStep.renameMetadata = step := by
        simpa [failedStep, ne_om.symm] using hstep
      exact .renameMetadata hwrite hrename (removed_of_removeFile hremove hr)
    · obtain ⟨_, _, hresult⟩ := runsIn_ret.mp hrenamed'
      cases hresult
/-- A range read of a file that differs only past the recorded size. -/
theorem getObjectRange_of_take {bucket key : Str} {old new : Bytes} {info : ObjectInfo}
    (now : ℤ) (start stop : ℕ) (hs : Alike t t' (sidecarPath bucket key))
    (hm : (FsM.run now (getObjectMetadata codec bucket key) t).1 = .ok info)
    (hold : t.files (dataPath bucket key) = some old)
    (hnew : t'.files (dataPath bucket key) = some new)
    (htake : old.take info.sizeBytes = new.take info.sizeBytes) :
    (FsM.run now (getObjectRange codec bucket key start stop) t').1 =
      (FsM.run now (getObjectRange codec bucket key start stop) t).1 := by
  obtain ⟨m, hl⟩ := files_eq_some.mp hold
  obtain ⟨m', hl'⟩ := files_eq_some.mp hnew
  have hm' := (getObjectMetadata_congr codec now now hs).trans hm
  have hpart : ∀ b : Bytes, (b.drop start).take (min stop info.sizeBytes - start) =
      ((b.take info.sizeBytes).take (min stop info.sizeBytes)).drop start := by
    intro b
    rw [List.take_take, Nat.min_eq_left (Nat.min_le_right _ _), List.drop_take]
  refine getObjectRange_of_node now now start stop hm hm' hl hl' ?_
  rw [rangeStream, rangeStream, hpart, hpart, htake]

/-- Publishing a file at the data path changes no range read exactly when it cannot be told
from the old data up to the recorded size. -/
theorem ranges_unchanged_iff (codec : Codec) {bucket key : Str} {new : Bytes}
    (hv : ValidName bucket key)
    (hs : Alike t t' (sidecarPath bucket key)) (hnew : t'.files (dataPath bucket key) = some new)
    (hdir : t.isDir (dataPath bucket key) = false) :
    (∀ now start stop, (FsM.run now (getObjectRange codec bucket key start stop) t').1 =
      (FsM.run now (getObjectRange codec bucket key start stop) t).1) ↔
    ∀ encoded info, t.files (sidecarPath bucket key) = some encoded →
      codec.fromSlice encoded = .ok info →
        ∃ old, t.files (dataPath bucket key) = some old ∧
          old.take info.sizeBytes = new.take info.sizeBytes := by
  constructor
  · intro h encoded info hencoded hinfo
    have hm : (FsM.run 0 (getObjectMetadata codec bucket key) t).1 = .ok info :=
      getObjectMetadata_eq_ok.mpr ⟨hv, encoded, hencoded, hinfo⟩
    have hm' : (FsM.run 0 (getObjectMetadata codec bucket key) t').1 = .ok info :=
      (getObjectMetadata_congr codec 0 0 hs).trans hm
    have hwhole := h 0 0 info.sizeBytes
    rcases getObjectRange_of_files hm' hnew (Nat.zero_le info.sizeBytes) with ⟨hbig, _⟩ | hread
    · omega
    rw [hread.2.2] at hwhole
    cases hold : t.files (dataPath bucket key) with
    | none =>
      -- Where the data is missing, the read has failed.
      have hl : t.lookup (dataPath bucket key) = none := lookup_eq_none_iff.mpr ⟨hold, hdir⟩
      obtain ⟨e, he⟩ := getObjectRange_missing 0 info.sizeBytes hm hl
      rw [he] at hwhole
      cases hwhole
    | some old =>
      rcases getObjectRange_of_files hm hold (Nat.zero_le info.sizeBytes) with ⟨hbig, _⟩ | hread'
      · omega
      rw [hread'.2.2] at hwhole
      have hchunks := congrArg (fun body => body.body.inner) (Except.ok.inj hwhole)
      have hchunks := List.map_injective_iff.mpr (fun _ _ he => Except.ok.inj he) hchunks
      have hflat := congrArg List.flatten hchunks
      simp only [flatten_readChunks, List.drop_zero, Nat.min_self, Nat.sub_zero] at hflat
      exact ⟨old, rfl, hflat.symm⟩
  · intro h now start stop
    cases hm : (FsM.run now (getObjectMetadata codec bucket key) t).1 with
    | error e =>
      have hm' := (getObjectMetadata_congr codec now now hs).trans hm
      unfold getObjectRange
      split_ifs
      · rfl
      · simp only [Prog.bind_eq_bind, FsM.run_bind, hm, hm', FsM.run_ret, pure_eq_ret]
    | ok info =>
      obtain ⟨_, encoded, hencoded, hinfo⟩ := getObjectMetadata_eq_ok.mp hm
      obtain ⟨old, hold, htake⟩ := h encoded info hencoded hinfo
      exact getObjectRange_of_take now start stop hs hm hold hnew htake

/-- A prefix of a path at which a file of the same depth lies is the path itself. -/
theorem prefix_ne_of_length {p q r : Path} (hq : q <+: p) (hne : q ≠ p) (hr : p.length ≤ r.length) :
    q ≠ r := by
  intro he
  have hle := hq.length_le
  exact hne (hq.eq_of_length (by rw [he] at hle ⊢; omega))

theorem tempPath_dropLast (p : Path) (u : Uuid) : (tempPath p u).dropLast = p.dropLast := by
  simp [tempPath]

section Steps

/-- Nothing but a temporary file was touched, and nothing appeared or vanished: both calls
answer as before. -/
theorem answers_of_sameNames (hd : SameDirs t t') (ha : AgreeOff [w.tempPath] t t')
    (hn : t'.files w.tempPath = none ↔ t.files w.tempPath = none) {p : Path}
    (hp : p ≠ w.tempPath) : Alike t t' p := by
  refine hd.alike (ha p (by simpa using hp)) fun q _ _ => ?_
  by_cases hq : q = w.tempPath
  · rw [hq, hn]
  · rw [ha q (by simpa using hq)]

/-- The sidecar was written under its temporary name, so its directory exists. -/
theorem parent_of_writeFile {b : Bytes} {now : ℤ} {t₁ : FileTree} (hw : Opened w dataId metaId)
    (h : t.writeFile w.metadataTempPath b now = (.ok (), t₁)) :
    t.isDir (sidecarPath w.bucket w.key).dropLast = true ∧ SameDirs t t₁ ∧
      AgreeOff [w.metadataTempPath] t t₁ := by
  have hsame := writeFile_sameDirs t w.metadataTempPath b now
  obtain ⟨ha, _⟩ := writeFile_spec t w.metadataTempPath b now
  rw [h] at hsame ha
  refine ⟨?_, hsame, ha⟩
  rcases writeFile_cases t w.metadataTempPath b now with ⟨hc, _⟩ | hfail
  · rw [← tempPath_dropLast _ metaId, ← hw.metadataTempPath_eq]
    exact (canPlace_iff.mp hc).2.2.1
  · rw [h] at hfail
    cases congrArg Prod.fst hfail

theorem Removed.spec {p : Path} (h : Removed t p t') : SameDirs t t' ∧
    t'.files = Function.update t.files p none := by
  obtain ⟨rfl, _⟩ := h
  obtain ⟨hf, hd⟩ := removeFile_files t p
  exact ⟨hd, hf⟩

theorem intact_of_alike (hs : Alike t t' (sidecarPath w.bucket w.key))
    (hd : Alike t t' (dataPath w.bucket w.key)) (ht : t'.lookup w.tempPath = none)
    (hm : t'.lookup w.metadataTempPath = none) : Intact codec w t t' :=
  ⟨fun now => getObjectMetadata_congr codec now now hs,
    fun now start stop => getObjectRange_congr codec now now start stop hs hd, ht, hm⟩

theorem flush_intact_iff (hw : Opened w dataId metaId) (hd : SameDirs t t')
    (ha : AgreeOff [w.tempPath] t t')
    (hn : t'.files w.tempPath = none ↔ t.files w.tempPath = none) :
    Intact codec w t t' ↔ StaysIntact codec w leaves t .flush := by
  obtain ⟨ne_to, ne_tm, ne_tt, _⟩ := hw.paths_ne
  have htemp := hd.lookup_none hn
  have hmeta := hd.lookup_none (p := w.metadataTempPath)
    (by rw [ha _ (by simpa using ne_tt.symm)])
  constructor
  · intro h
    exact ⟨htemp.mp h.temp, hmeta.mp h.metadataTemp⟩
  · intro h
    obtain ⟨ht, hm⟩ := h
    apply intact_of_alike
    · exact answers_of_sameNames hd ha hn (by rw [← hw.metadataPath_eq]; exact ne_tm.symm)
    · exact answers_of_sameNames hd ha hn (by rw [← hw.objectPath_eq]; exact ne_to.symm)
    · exact htemp.mpr ht
    · exact hmeta.mpr hm

theorem writeMetadata_intact_iff (hw : Opened w dataId metaId) (hd : SameDirs t t')
    (hf : t'.files = Function.update t.files w.metadataTempPath leaves)
    (hn : leaves = none → t.files w.metadataTempPath = none) :
    Intact codec w t t' ↔ StaysIntact codec w leaves t .writeMetadata := by
  obtain ⟨_, _, ne_tt, _⟩ := hw.paths_ne
  have htemp := hd.lookup_none (p := w.tempPath) (by rw [hf, Function.update_of_ne ne_tt])
  constructor
  · intro h
    have hleaves : leaves = none := by
      have hnone := (lookup_eq_none_iff.mp h.metadataTemp).1
      rwa [hf, Function.update_self] at hnone
    refine ⟨htemp.mp h.temp, (hd.lookup_none ?_).mp h.metadataTemp, hleaves⟩
    rw [hf, Function.update_self, hn hleaves, hleaves]
  · intro h
    obtain ⟨ht, hm, hleaves⟩ := h
    have hsame : t'.files = t.files := by
      rw [hf, hleaves, ← hn hleaves, Function.update_eq_self]
    have halike : ∀ p, Alike t t' p := fun p =>
      hd.alike (by rw [hsame]) fun q _ _ => by rw [hsame]
    exact intact_of_alike (halike _) (halike _) (htemp.mpr ht)
      ((hd.lookup_none (by rw [hsame])).mpr hm)

/-- After a failing rename of the data the removals restore what the reads see. -/
theorem renameData_intact (hw : Opened w dataId metaId) {t₁ t₂ : FileTree} {b : Bytes} {now : ℤ}
    (hwrite : t.writeFile w.metadataTempPath b now = (.ok (), t₁))
    (hr₁ : Removed t₁ w.tempPath t₂) (hr₂ : Removed t₂ w.metadataTempPath t') :
    Intact codec w t t' := by
  obtain ⟨ne_to, ne_tm, ne_tt, ne_mo, ne_mm, _⟩ := hw.paths_ne
  obtain ⟨hparent, hd₁, ha₁⟩ := parent_of_writeFile hw hwrite
  obtain ⟨hd₂, hf₂⟩ := hr₁.spec
  obtain ⟨hd₃, hf₃⟩ := hr₂.spec
  have hd : SameDirs t t' := (hd₁.trans hd₂).trans hd₃
  have hagree : ∀ q, q ≠ w.tempPath → q ≠ w.metadataTempPath → t'.files q = t.files q := by
    intro q ht hm
    rw [hf₃, Function.update_of_ne hm, hf₂, Function.update_of_ne ht, ha₁ q (by simpa using hm)]
  have hlen_t : (dataPath w.bucket w.key).length ≤ w.tempPath.length := by
    rw [hw.tempPath_eq, length_tempPath (by simp [dataPath])]
  have hlen_m : (dataPath w.bucket w.key).length ≤ w.metadataTempPath.length := by
    rw [hw.metadataTempPath_eq, length_tempPath (by simp [sidecarPath]), length_sidecarPath,
      length_dataPath]
    omega
  rw [hw.objectPath_eq] at ne_to ne_mo
  rw [hw.metadataPath_eq] at ne_tm ne_mm
  apply intact_of_alike
  · exact hd.alike_of_parent (hagree _ ne_tm.symm ne_mm.symm) hparent
  · exact hd.alike (hagree _ ne_to.symm ne_mo.symm) fun q hq hne => by
      rw [hagree q (prefix_ne_of_length hq hne hlen_t) (prefix_ne_of_length hq hne hlen_m)]
  · exact (hd₃.lookup_none (by rw [hf₃, Function.update_of_ne ne_tt])).mpr hr₁.2
  · exact hr₂.2

/-- After a failing rename of the sidecar the new data is in place. -/
theorem renameMetadata_intact_iff (hw : Opened w dataId metaId) {t₁ t₂ : FileTree} {b : Bytes}
    {now : ℤ} (hwrite : t.writeFile w.metadataTempPath b now = (.ok (), t₁))
    (hrename : t₁.rename w.tempPath w.objectPath = (.ok (), t₂))
    (hr : Removed t₂ w.metadataTempPath t') :
    Intact codec w t t' ↔ Indistinct codec w t := by
  obtain ⟨ne_to, ne_tm, ne_tt, ne_mo, ne_mm, ne_om⟩ := hw.paths_ne
  obtain ⟨hparent, hd₁, ha₁⟩ := parent_of_writeFile hw hwrite
  obtain ⟨new, hnew, hc⟩ := rename_ok (congrArg Prod.fst hrename)
  obtain ⟨_, hf₂, hd₂⟩ := rename_of_canPlace hnew hc ne_to
  rw [hrename] at hf₂ hd₂
  obtain ⟨hd₃, hf₃⟩ := hr.spec
  have hd : SameDirs t t' := (hd₁.trans hd₂).trans hd₃
  have htemp : t.files w.tempPath = some new := by rw [← ha₁ _ (by simpa using ne_tt), hnew]
  have hside : Alike t t' (sidecarPath w.bucket w.key) := by
    refine hd.alike_of_parent ?_ hparent
    rw [← hw.metadataPath_eq, hf₃, Function.update_of_ne ne_mm.symm, hf₂,
      Function.update_of_ne ne_tm.symm, Function.update_of_ne ne_om.symm,
      ha₁ _ (by simpa using ne_mm.symm)]
  have hdata : t'.files (dataPath w.bucket w.key) = some new := by
    rw [← hw.objectPath_eq, hf₃, Function.update_of_ne ne_mo.symm, hf₂,
      Function.update_of_ne ne_to.symm, Function.update_self]
  have hdir : t.isDir (dataPath w.bucket w.key) = false := by
    rw [← hw.objectPath_eq, ← hd₁.1]
    exact (canPlace_iff.mp hc).2.2.2
  have hiff := ranges_unchanged_iff codec hw.valid hside hdata hdir
  constructor
  · intro h encoded info hencoded hinfo
    rw [hw.metadataPath_eq] at hencoded
    obtain ⟨old, hold, htake⟩ := hiff.mp h.range encoded info hencoded hinfo
    exact ⟨old, new, by rw [hw.objectPath_eq, hold], htemp, htake⟩
  · intro h
    refine ⟨fun now => getObjectMetadata_congr codec now now hside, hiff.mpr ?_, ?_, hr.2⟩
    · intro encoded info hencoded hinfo
      rw [← hw.metadataPath_eq] at hencoded
      obtain ⟨old, new', hold, hnew', htake⟩ := h encoded info hencoded hinfo
      rw [htemp] at hnew'
      obtain rfl := Option.some.inj hnew'
      exact ⟨old, by rw [← hw.objectPath_eq, hold], htake⟩
    · rw [lookup_eq_none_iff, hf₃, Function.update_of_ne ne_tt, hf₂, Function.update_self, hd.1]
      obtain ⟨m, hl⟩ := files_eq_some.mp htemp
      exact ⟨rfl, by simp [isDir, hl]⟩

end Steps

/-- When `complete` fails at one step, the object answers as before and no temporary file is
left exactly if that step was the renaming of the data, or the renaming of the sidecar with
data that cannot be told from the old, or the earlier steps found no temporary file. -/
theorem failed_complete_intact_iff (codec : Codec) (leaves : Option Bytes) (t t' : FileTree)
    (w : LocalMultipartWriter D) (dataId metaId : Uuid) (hw : Opened w dataId metaId) (now : ℤ)
    (log : List (Sigma FsCall.Reply)) (e : StorageError)
    (hrun : RunsIn (CompleteAnswers leaves) t (w.complete codec now) log t' (.error e))
    (step : CompleteStep) (hstep : ∃ entry ∈ log, failedStep w entry = some step) :
    Intact codec w t t' ↔ StaysIntact codec w leaves t step := by
  cases complete_fails hw hrun hstep with
  | flush hd ha hn => exact flush_intact_iff hw hd ha hn
  | writeMetadata hd hf hn => exact writeMetadata_intact_iff hw hd hf hn
  | renameData hwrite hr₁ hr₂ => exact iff_of_true (renameData_intact hw hwrite hr₁ hr₂) trivial
  | renameMetadata hwrite hrename hr => exact renameMetadata_intact_iff hw hwrite hrename hr

/-- The writer that is open on `b/k`. -/
def sampleWriter : LocalMultipartWriter Digest.sha256 :=
  (sampleOpen.writers.head (by decide +kernel)).writer

theorem sampleWriter_writing : ∃ dataId metaId written,
    Writing sampleOpen.tree sampleWriter dataId metaId written :=
  ⟨_, _, _, objectRun_sampleOpen.inv.writing _ (List.head_mem _)⟩

/-- A run in which the data cannot be renamed. -/
theorem complete_rename_fails {b : Bytes} {t₁ t₂ : FileTree} {now : ℤ}
    (hv : codec.toVec (w.info now) = .ok b)
    (hwrite : t.writeFile w.metadataTempPath b now = (.ok (), t₁))
    (h₁ : t₁.removeFile w.tempPath = (.ok (), t₂))
    (h₂ : t₂.removeFile w.metadataTempPath = (.ok (), t')) (source : ErrorKind) :
    ∃ log, RunsIn (CompleteAnswers leaves) t (w.complete codec now) log t'
      (.error (.io w.objectPath source)) ∧
        ∃ entry ∈ log, failedStep w entry = some .renameData := by
  have hlog : (⟨.rename w.tempPath w.objectPath, .error source⟩ : Sigma FsCall.Reply) ∈
      ([⟨.flush w.tempPath, .ok ()⟩, ⟨.writeFile w.metadataTempPath b, .ok ()⟩,
        ⟨.rename w.tempPath w.objectPath, .error source⟩, ⟨.removeFile w.tempPath, .ok ()⟩,
        ⟨.removeFile w.metadataTempPath, .ok ()⟩] : List (Sigma FsCall.Reply)) := by
    simp
  refine ⟨_, ?_, _, hlog, by simp [failedStep]⟩
  refine .call _ _ _ rfl ?_
  change RunsIn _ t ((writeObjectMetadata codec w.metadataTempPath (w.info now)).bind _) _ _ _
  unfold writeObjectMetadata
  rw [hv]
  refine .call _ _ _ ⟨now, hwrite⟩ ?_
  refine .call _ _ _ rfl ?_
  refine .call _ _ _ ⟨h₁, Or.inl rfl⟩ ?_
  exact .call _ _ _ ⟨h₂, Or.inl rfl⟩ (.ret _ _)

/-- The data cannot be renamed: nothing of the attempt is left. -/
theorem failed_complete_intact_rename :
    ∃ log t' e, RunsIn (CompleteAnswers none) sampleOpen.tree
        (sampleWriter.complete sampleCodec 0) log t' (.error e) ∧
      Intact sampleCodec sampleWriter sampleOpen.tree t' := by
  obtain ⟨dataId, metaId, written, hwriting⟩ := sampleWriter_writing
  have hinfo : sampleWriter.info 0 = sampleInfo := by decide +kernel
  have hjson : sampleCodec.toVec (sampleWriter.info 0) = .ok sampleJson := by
    rw [hinfo]
    simp only [sampleCodec, if_pos]
  have hwrite : (sampleOpen.tree.writeFile sampleWriter.metadataTempPath sampleJson 0).1 =
      .ok () := by
    decide +kernel
  have hremove : ((sampleOpen.tree.writeFile sampleWriter.metadataTempPath
      sampleJson 0).2.removeFile sampleWriter.tempPath).1 = .ok () := by
    decide +kernel
  have hremove' : (((sampleOpen.tree.writeFile sampleWriter.metadataTempPath
      sampleJson 0).2.removeFile sampleWriter.tempPath).2.removeFile
        sampleWriter.metadataTempPath).1 = .ok () := by
    decide +kernel
  obtain ⟨log, hrun, hstep⟩ := complete_rename_fails hjson (Prod.ext hwrite rfl)
    (Prod.ext hremove rfl) (Prod.ext hremove' rfl) .permissionDenied
  exact ⟨log, _, _, hrun, (failed_complete_intact_iff _ _ _ _ _ _ _ hwriting.opened _ _ _ hrun
    .renameData hstep).mpr trivial⟩

/-- Its flush fails: the call returns, and the temporary file is left. -/
theorem failed_complete_leaves_temp :
    ∃ log t' e, RunsIn (CompleteAnswers none) sampleOpen.tree
        (sampleWriter.complete sampleCodec 0) log t' (.error e) ∧
      (∃ entry ∈ log, failedStep sampleWriter entry = some .flush) ∧
      ¬ Intact sampleCodec sampleWriter sampleOpen.tree t' := by
  obtain ⟨dataId, metaId, written, hwriting⟩ := sampleWriter_writing
  have hrun : RunsIn (CompleteAnswers none) sampleOpen.tree (sampleWriter.complete sampleCodec 0)
      [⟨.flush sampleWriter.tempPath, .error .fileTooLarge⟩] sampleOpen.tree
      (.error (.io sampleWriter.tempPath .fileTooLarge)) :=
    .call _ _ _ ⟨SameDirs.refl _, AgreeOff.refl _ _, Iff.rfl⟩ (.ret _ _)
  refine ⟨_, _, _, hrun, ⟨_, List.mem_singleton.mpr rfl, rfl⟩, fun h => ?_⟩
  have hnone := files_of_lookup_none h.temp
  rw [hwriting.stored] at hnone
  cases hnone

end GraphqlOrmStorage.Local
