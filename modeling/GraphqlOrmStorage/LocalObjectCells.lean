import GraphqlOrmStorage.LocalObjectSpec

/-!
# Streaming objects as independent cells

A run mixes whole uploads, any number of open multipart writers and deletions. The
abstract state is one cell for each bucket and key, holding the record and the bytes
of the last completed upload. The files follow the cells as long as no operation
names data that lies where a sidecar belongs: the internal directory is an accepted
bucket, so the validators do not rule that out.
-/
namespace GraphqlOrmStorage.Local

open Text Program FileTree

/-- A writer with the identifiers it drew and the bytes written to it so far. -/
structure OpenWriter (D : Digest) where
  writer : LocalMultipartWriter D
  dataId : Uuid
  metaId : Uuid
  written : Bytes

/-- The tree and the open writers; the identifiers drawn, the names used for uploads, and
the content of each cell. -/
structure ObjectState (D : Digest) where
  tree : FileTree
  writers : List (OpenWriter D)
  used : List Uuid
  names : List (Str × Str)
  cells : Str × Str → Option (ObjectInfo × Bytes)

def ObjectState.start (D : Digest) (limits : Limits) : ObjectState D :=
  ⟨FileTree.empty limits, [], [], [], fun _ => none⟩

/-- The mutating operations; writers are named by their position. -/
inductive ObjectOp where
  | putObjectStream (dataId metaId : Uuid) (bucket key : Str) (contentType : Option Str)
      (metadata : ObjectMetadata) (stream : StorageByteStream)
  | createMultipartObject (dataId metaId : Uuid) (bucket key : Str) (contentType : Option Str)
      (metadata : ObjectMetadata)
  | writeChunk (i : ℕ) (bytes : Bytes)
  | complete (i : ℕ)
  | abort (i : ℕ)
  | deleteObject (bucket key : Str)

variable {D : Digest}

/-- A cell after an upload to it returned. -/
def completed (cells : Str × Str → Option (ObjectInfo × Bytes)) (name : Str × Str) (bytes : Bytes) :
    Except StorageError ObjectInfo → Str × Str → Option (ObjectInfo × Bytes)
  | .ok info => Function.update cells name (some (info, bytes))
  | .error _ => cells

/-- One operation at time `now`. -/
def ObjectState.step (codec : Codec) (now : ℤ) (s : ObjectState D) : ObjectOp → ObjectState D
  | .putObjectStream dataId metaId bucket key contentType metadata stream =>
    let r := FsM.run now
      (Local.putObjectStream D codec now dataId metaId bucket key contentType metadata stream) s.tree
    { s with
      tree := r.2
      used := dataId :: metaId :: s.used
      names := (bucket, key) :: s.names
      cells := completed s.cells (bucket, key) (concatBody stream) r.1 }
  | .createMultipartObject dataId metaId bucket key contentType metadata =>
    let r := FsM.run now
      (Local.createMultipartObject D dataId metaId bucket key contentType metadata) s.tree
    let s := { s with
      tree := r.2
      used := dataId :: metaId :: s.used
      names := (bucket, key) :: s.names }
    match r.1 with
    | .ok writer => { s with writers := ⟨writer, dataId, metaId, []⟩ :: s.writers }
    | .error _ => s
  | .writeChunk i bytes =>
    match s.writers[i]? with
    | none => s
    | some o =>
      let r := FsM.run now (o.writer.writeChunk bytes) s.tree
      { s with
        tree := r.2
        writers := s.writers.set i { o with writer := r.1.2, written := o.written ++ bytes } }
  | .complete i =>
    match s.writers[i]? with
    | none => s
    | some o =>
      let r := FsM.run now (o.writer.complete codec now) s.tree
      { s with
        tree := r.2
        writers := s.writers.eraseIdx i
        cells := completed s.cells (o.writer.bucket, o.writer.key) o.written r.1 }
  | .abort i =>
    match s.writers[i]? with
    | none => s
    | some o =>
      { s with
        tree := (FsM.run now o.writer.abort s.tree).2
        writers := s.writers.eraseIdx i }
  | .deleteObject bucket key =>
    let r := FsM.run now (Local.deleteObject bucket key) s.tree
    { s with
      tree := r.2
      cells := match r.1 with
        | .ok () => Function.update s.cells (bucket, key) none
        | .error _ => s.cells }

/-- The drawn identifiers occur in no file name and in no bucket or key of an upload. -/
def FreshIds (s : ObjectState D) (dataId metaId : Uuid) (bucket key : Str) : Prop :=
  dataId ≠ metaId ∧ ∀ u ∈ [dataId, metaId],
    u ∉ s.used ∧ FreshUuid s.tree u ∧ Unmentioned u bucket key ∧
      ∀ n ∈ s.names, Unmentioned u n.1 n.2

instance (s : ObjectState D) (dataId metaId : Uuid) (bucket key : Str) :
    Decidable (FreshIds s dataId metaId bucket key) := inferInstanceAs (Decidable (_ ∧ _))

/-- The bucket and the key contain no identifier drawn before. -/
def AvoidsIds (s : ObjectState D) (bucket key : Str) : Prop :=
  ∀ u ∈ s.used, Unmentioned u bucket key

instance (s : ObjectState D) (bucket key : Str) : Decidable (AvoidsIds s bucket key) :=
  inferInstanceAs (Decidable (∀ u ∈ s.used, Unmentioned u bucket key))

/-- Identifiers are fresh, and what is written fits into a file. -/
def Faultless (s : ObjectState D) : ObjectOp → Prop
  | .putObjectStream dataId metaId bucket key _ _ stream =>
    FreshIds s dataId metaId bucket key ∧ AvoidsIds s bucket key ∧
      (concatBody stream).length ≤ s.tree.limits.maxFileSize
  | .createMultipartObject dataId metaId bucket key _ _ =>
    FreshIds s dataId metaId bucket key ∧ AvoidsIds s bucket key
  | .writeChunk i bytes => ∀ o, s.writers[i]? = some o →
      o.written.length + bytes.length ≤ s.tree.limits.maxFileSize
  | .complete _ | .abort _ => True
  | .deleteObject bucket key => AvoidsIds s bucket key

/-- The operation names no data that lies where a sidecar belongs. -/
def ObjectOp.Unreserved : ObjectOp → Prop
  | .putObjectStream _ _ bucket key _ _ _ | .createMultipartObject _ _ bucket key _ _
  | .deleteObject bucket key => ¬ Reserved bucket key
  | .writeChunk _ _ | .complete _ | .abort _ => True

/-- Sequential runs from an empty root whose operations all meet a condition. -/
inductive ObjectRun (codec : Codec) (limits : Limits) (condition : ObjectOp → Prop) :
    ObjectState D → Prop
  | start : ObjectRun codec limits condition (ObjectState.start D limits)
  | step {s : ObjectState D} (now : ℤ) (op : ObjectOp) : ObjectRun codec limits condition s →
      Faultless s op → condition op → ObjectRun codec limits condition (s.step codec now op)

/-! ### The invariant -/

/-- The files of a completed object: its bytes, and a sidecar that encodes its record. -/
def Stored (codec : Codec) (t : FileTree) (bucket key : Str) (c : ObjectInfo × Bytes) : Prop :=
  ValidName bucket key ∧ t.files (dataPath bucket key) = some c.2 ∧ c.2.length ≤ isizeMax ∧
    c.1.sizeBytes = c.2.length ∧
    ∃ encoded, codec.toVec c.1 = .ok encoded ∧ t.files (sidecarPath bucket key) = some encoded

/-- Two pairs of identifiers share none. -/
def Apart (a b : Uuid × Uuid) : Prop := a.1 ≠ b.1 ∧ a.1 ≠ b.2 ∧ a.2 ≠ b.1 ∧ a.2 ≠ b.2

theorem Apart.symm {a b : Uuid × Uuid} (h : Apart a b) : Apart b a :=
  ⟨h.1.symm, h.2.2.1.symm, h.2.1.symm, h.2.2.2.symm⟩

def OpenWriter.ids (o : OpenWriter D) : Uuid × Uuid := (o.dataId, o.metaId)

/-- Writers at different positions share no identifier. -/
theorem apart_at {l : List (OpenWriter D)} (h : (l.map OpenWriter.ids).Pairwise Apart) {i j : ℕ}
    (hne : j ≠ i) {o o' : OpenWriter D} (hi : l[i]? = some o) (hj : l[j]? = some o') :
    Apart o'.ids o.ids := by
  obtain ⟨hil, rfl⟩ := List.getElem?_eq_some_iff.mp hi
  obtain ⟨hjl, rfl⟩ := List.getElem?_eq_some_iff.mp hj
  have hp := List.pairwise_iff_getElem.mp h
  rcases Nat.lt_or_gt_of_ne hne with hlt | hlt
  · have := hp j i (by simpa using hjl) (by simpa using hil) hlt
    rwa [List.getElem_map, List.getElem_map] at this
  · have := hp i j (by simpa using hil) (by simpa using hjl) hlt
    rw [List.getElem_map, List.getElem_map] at this
    exact this.symm

/-- A writer that goes on writing keeps its identifiers. -/
theorem apart_set {l : List (OpenWriter D)} (h : (l.map OpenWriter.ids).Pairwise Apart) {i : ℕ}
    {o o' : OpenWriter D} (hi : l[i]? = some o) (hids : o'.ids = o.ids) :
    ((l.set i o').map OpenWriter.ids).Pairwise Apart := by
  obtain ⟨hl, rfl⟩ := List.getElem?_eq_some_iff.mp hi
  rw [List.map_set, hids, ← List.map_set, List.set_getElem_self]
  exact h

/-- The other writers do not write under the identifiers of the one that was removed. -/
theorem of_mem_eraseIdx {l : List (OpenWriter D)} (h : (l.map OpenWriter.ids).Pairwise Apart)
    {i : ℕ} {o x : OpenWriter D} (hi : l[i]? = some o) (hm : x ∈ l.eraseIdx i) :
    x ∈ l ∧ x.dataId ∉ [o.dataId, o.metaId] := by
  obtain ⟨j, hne, hj⟩ := List.mem_eraseIdx_iff_getElem?.mp hm
  obtain ⟨h1, h2, _⟩ := apart_at h hne hi hj
  exact ⟨List.mem_of_getElem? hj, by simpa using ⟨h1, h2⟩⟩

/-- Nor under those of the one that was replaced. -/
theorem of_mem_set {l : List (OpenWriter D)} (h : (l.map OpenWriter.ids).Pairwise Apart) {i : ℕ}
    {o o' x : OpenWriter D} (hi : l[i]? = some o) (hm : x ∈ l.set i o') :
    x = o' ∨ x ∈ l ∧ x.dataId ∉ [o.dataId, o.metaId] := by
  obtain ⟨j, hj⟩ := List.mem_iff_getElem?.mp hm
  rw [List.getElem?_set] at hj
  split_ifs at hj with he hl
  · exact Or.inl (Option.some.inj hj).symm
  · obtain ⟨h1, h2, _⟩ := apart_at h (Ne.symm he) hi hj
    exact Or.inr ⟨List.mem_of_getElem? hj, by simpa using ⟨h1, h2⟩⟩

structure CellsInv (codec : Codec) (s : ObjectState D) : Prop where
  writing : ∀ o ∈ s.writers, Writing s.tree o.writer o.dataId o.metaId o.written
  drawn : ∀ o ∈ s.writers, o.dataId ∈ s.used ∧ o.metaId ∈ s.used ∧
    (o.writer.bucket, o.writer.key) ∈ s.names
  apart : (s.writers.map OpenWriter.ids).Pairwise Apart
  clean : ∀ u ∈ s.used, ∀ n ∈ s.names, Unmentioned u n.1 n.2
  free : ∀ n ∈ s.names, ¬ Reserved n.1 n.2
  present : ∀ b k c, s.cells (b, k) = some c → (b, k) ∈ s.names ∧ Stored codec s.tree b k c
  absent : ∀ b k, ValidName b k → s.cells (b, k) = none → s.tree.files (sidecarPath b k) = none

/-- The paths an operation on one object may touch: data, sidecar, and temporary files
under the identifiers `ids`. -/
def Footprint (bucket key : Str) (ids : List Uuid) (q : Path) : Prop :=
  q = dataPath bucket key ∨ q = sidecarPath bucket key ∨ ∃ p, ∃ u ∈ ids, q = tempPath p u

section Frame

variable {codec : Codec} {s : ObjectState D} {t' : FileTree} {bucket key : Str} {ids : List Uuid}

/-- The tree changed only within the footprint of one object. -/
structure Touches (s : ObjectState D) (t' : FileTree) (bucket key : Str) (ids : List Uuid) :
    Prop where
  valid : ValidName bucket key
  free : ¬ Reserved bucket key
  clean : ∀ u ∈ ids, ∀ n ∈ s.names, Unmentioned u n.1 n.2
  avoids : ∀ o ∈ s.writers, Unmentioned o.dataId bucket key
  agree : ∀ q, ¬ Footprint bucket key ids q → t'.files q = s.tree.files q

/-- Another object's sidecar is not in the footprint. -/
theorem Touches.sidecar_other (h : Touches s t' bucket key ids) {b k : Str} (hv : ValidName b k)
    (hne : (b, k) ≠ (bucket, key)) :
    t'.files (sidecarPath b k) = s.tree.files (sidecarPath b k) := by
  apply h.agree
  rintro (he | he | ⟨p, u, _, he⟩)
  · exact h.free ⟨b, k, hv, he.symm⟩
  · exact hne (Prod.ext_iff.mpr (sidecarPath_inj he))
  · exact sidecarPath_ne_tempPath p u he

/-- Another object's data is not in the footprint. -/
theorem Touches.data_other (hinv : CellsInv codec s) (h : Touches s t' bucket key ids) {b k : Str}
    (hn : (b, k) ∈ s.names) (hne : (b, k) ≠ (bucket, key)) :
    t'.files (dataPath b k) = s.tree.files (dataPath b k) := by
  apply h.agree
  rintro (he | he | ⟨p, u, hu, he⟩)
  · exact hne (Prod.ext_iff.mpr (dataPath_inj he))
  · exact hinv.free _ hn ⟨bucket, key, h.valid, he⟩
  · exact (h.clean u hu _ hn).dataPath_ne p he

theorem Touches.stored_other (hinv : CellsInv codec s) (h : Touches s t' bucket key ids)
    {b k : Str} {c : ObjectInfo × Bytes} (hc : s.cells (b, k) = some c)
    (hne : (b, k) ≠ (bucket, key)) : Stored codec t' b k c := by
  obtain ⟨hn, hv, hd, hb, hs, encoded, he, hside⟩ := hinv.present b k c hc
  exact ⟨hv, by rw [h.data_other hinv hn hne, hd], hb, hs, encoded, he,
    by rw [h.sidecar_other hv hne, hside]⟩

/-- A writer with another identifier keeps its temporary file. -/
theorem Touches.writing_other (hinv : CellsInv codec s) (h : Touches s t' bucket key ids)
    {o : OpenWriter D} (ho : o ∈ s.writers) (hid : o.dataId ∉ ids) :
    Writing t' o.writer o.dataId o.metaId o.written := by
  have hw := hinv.writing o ho
  have hsame : t'.files o.writer.tempPath = s.tree.files o.writer.tempPath := by
    apply h.agree
    rw [hw.tempPath_eq]
    rintro (he | he | ⟨p, u, hu, he⟩)
    · exact (h.avoids o ho).dataPath_ne _ he.symm
    · exact sidecarPath_ne_tempPath _ _ he.symm
    · exact hid (tempPath_inj he ▸ hu)
  exact { hw with stored := by rw [hsame, hw.stored] }

/-- A new content of one cell, with the files to match, keeps the part of the invariant
that is about cells. -/
theorem Touches.cells (hinv : CellsInv codec s) (h : Touches s t' bucket key ids)
    {cells' : Str × Str → Option (ObjectInfo × Bytes)}
    (hother : ∀ n, n ≠ (bucket, key) → cells' n = s.cells n)
    (hsome : ∀ c, cells' (bucket, key) = some c → Stored codec t' bucket key c)
    (hnone : cells' (bucket, key) = none → t'.files (sidecarPath bucket key) = none) :
    (∀ b k c, cells' (b, k) = some c → Stored codec t' b k c) ∧
      ∀ b k, ValidName b k → cells' (b, k) = none → t'.files (sidecarPath b k) = none := by
  constructor
  · intro b k c hc
    by_cases he : (b, k) = (bucket, key)
    · obtain ⟨rfl, rfl⟩ := Prod.mk.inj he
      exact hsome c hc
    · exact h.stored_other hinv (by rwa [hother _ he] at hc) he
  · intro b k hv hc
    by_cases he : (b, k) = (bucket, key)
    · obtain ⟨rfl, rfl⟩ := Prod.mk.inj he
      exact hnone hc
    · rw [h.sidecar_other hv he]
      exact hinv.absent b k hv (by rwa [hother _ he] at hc)

/-- How finishing an upload leaves its own cell. -/
theorem Finished.cell {w : LocalMultipartWriter D} {t₁ : FileTree} {dataId metaId : Uuid}
    {written₁ written : Bytes} {info : ObjectInfo} {r : Except StorageError ObjectInfo × FileTree}
    (hinv : CellsInv codec s) (hw : Writing t₁ w dataId metaId written₁)
    (hnames : ∀ c, s.cells (w.bucket, w.key) = some c → Unmentioned dataId w.bucket w.key ∧
      Unmentioned metaId w.bucket w.key)
    (hsize : info.sizeBytes = written.length) (hbound : written.length ≤ isizeMax)
    (h : Finished codec w written info s.tree r) :
    let cells' := completed s.cells (w.bucket, w.key) written r.1
    (∀ c, cells' (w.bucket, w.key) = some c → Stored codec r.2 w.bucket w.key c) ∧
      (cells' (w.bucket, w.key) = none → r.2.files (sidecarPath w.bucket w.key) = none) := by
  intro cells'
  have hside : sidecarPath w.bucket w.key ≠ w.tempPath ∧
      sidecarPath w.bucket w.key ≠ w.metadataTempPath ∧ sidecarPath w.bucket w.key ≠ w.objectPath := by
    rw [hw.tempPath_eq, hw.metadataTempPath_eq, ← hw.metadataPath_eq]
    refine ⟨?_, ?_, Ne.symm hw.paths_ne.2.2.2.2.2⟩
    · rw [hw.metadataPath_eq]; exact sidecarPath_ne_tempPath _ _
    · rw [hw.metadataPath_eq]; exact sidecarPath_ne_tempPath _ _
  rcases h with ⟨e, hr, ha⟩ | ⟨e, hr, hnone, ha⟩ | ⟨bytes, hr, hv, hd, hs, _⟩
  · have hc : cells' = s.cells := by simp only [cells', hr, completed]
    have hsame : r.2.files (sidecarPath w.bucket w.key) = s.tree.files (sidecarPath w.bucket w.key) :=
      ha _ (by simp [hside.1, hside.2.1])
    rw [hc]
    refine ⟨fun c hcell => ?_, fun hcell => ?_⟩
    · obtain ⟨_, hvalid, hdata, hb, hsz, encoded, he, hsc⟩ := hinv.present _ _ c hcell
      obtain ⟨h1, h2⟩ := hnames c hcell
      have hdsame : r.2.files (dataPath w.bucket w.key) = s.tree.files (dataPath w.bucket w.key) := by
        apply ha
        rw [hw.tempPath_eq, hw.metadataTempPath_eq]
        simp [h1.dataPath_ne, h2.dataPath_ne]
      exact ⟨hvalid, by rw [hdsame, hdata], hb, hsz, encoded, he, by rw [hsame, hsc]⟩
    · rw [hsame]
      exact hinv.absent _ _ hw.valid hcell
  · have hc : cells' = s.cells := by simp only [cells', hr, completed]
    rw [hw.metadataPath_eq] at hnone
    have hsame : r.2.files (sidecarPath w.bucket w.key) = none := by
      rw [ha _ (by simp [hside.1, hside.2.1, hside.2.2]), hnone]
    rw [hc]
    refine ⟨fun c hcell => ?_, fun _ => hsame⟩
    -- A completed object has a sidecar, so the second rename could not fail.
    obtain ⟨_, _, _, _, _, encoded, _, hsc⟩ := hinv.present _ _ c hcell
    rw [hnone] at hsc
    cases hsc
  · have hc : cells' (w.bucket, w.key) = some (info, written) := by
      simp only [cells', hr, completed, Function.update_self]
    rw [hw.objectPath_eq] at hd
    rw [hw.metadataPath_eq] at hs
    rw [hc]
    refine ⟨fun c hcell => ?_, fun hcell => by cases hcell⟩
    obtain rfl := Option.some.inj hcell
    exact ⟨hw.valid, hd, hbound, hsize, bytes, hv, hs⟩

/-- Finishing an upload stays within the footprint of its object. -/
theorem Finished.footprint {w : LocalMultipartWriter D} {t₁ : FileTree} {dataId metaId : Uuid}
    {written₁ written : Bytes} {info : ObjectInfo} {r : Except StorageError ObjectInfo × FileTree}
    {t : FileTree} (hw : Writing t₁ w dataId metaId written₁)
    (h : Finished codec w written info t r) :
    ∀ q, ¬ Footprint w.bucket w.key [dataId, metaId] q → r.2.files q = t.files q := by
  have ha : AgreeOff [w.tempPath, w.metadataTempPath, w.objectPath, w.metadataPath] t r.2 := by
    rcases h with ⟨e, _, ha⟩ | ⟨e, _, _, ha⟩ | ⟨bytes, _, _, _, _, ha⟩
    · exact ha.mono (by simp)
    · exact ha.mono (by simp)
    · exact ha
  intro q hq
  apply ha
  rw [hw.tempPath_eq, hw.metadataTempPath_eq, hw.objectPath_eq, hw.metadataPath_eq]
  simp only [List.mem_cons, List.not_mem_nil, or_false]
  rintro (he | he | he | he)
  · exact hq (Or.inr (Or.inr ⟨_, dataId, by simp, he⟩))
  · exact hq (Or.inr (Or.inr ⟨_, metaId, by simp, he⟩))
  · exact hq (Or.inl he)
  · exact hq (Or.inr (Or.inl he))

/-- The tree changed only at temporary paths under the identifiers `ids`. -/
structure TouchesTemps (s : ObjectState D) (t' : FileTree) (ids : List Uuid) : Prop where
  clean : ∀ u ∈ ids, ∀ n ∈ s.names, Unmentioned u n.1 n.2
  agree : ∀ q, (∀ p, ∀ u ∈ ids, q ≠ tempPath p u) → t'.files q = s.tree.files q

theorem TouchesTemps.present (hinv : CellsInv codec s) (h : TouchesTemps s t' ids) :
    ∀ b k c, s.cells (b, k) = some c → (b, k) ∈ s.names ∧ Stored codec t' b k c := by
  intro b k c hc
  obtain ⟨hn, hv, hd, hb, hs, encoded, he, hside⟩ := hinv.present b k c hc
  have hdata := h.agree _ fun p u hu => (h.clean u hu _ hn).dataPath_ne p
  have hsidecar := h.agree (sidecarPath b k) fun p u _ => sidecarPath_ne_tempPath p u
  exact ⟨hn, hv, by rw [hdata, hd], hb, hs, encoded, he, by rw [hsidecar, hside]⟩

theorem TouchesTemps.absent (hinv : CellsInv codec s) (h : TouchesTemps s t' ids) :
    ∀ b k, ValidName b k → s.cells (b, k) = none → t'.files (sidecarPath b k) = none := by
  intro b k hv hc
  rw [h.agree (sidecarPath b k) fun p u _ => sidecarPath_ne_tempPath p u]
  exact hinv.absent b k hv hc

theorem TouchesTemps.writing (hinv : CellsInv codec s) (h : TouchesTemps s t' ids)
    {o : OpenWriter D} (ho : o ∈ s.writers) (hid : o.dataId ∉ ids) :
    Writing t' o.writer o.dataId o.metaId o.written := by
  have hw := hinv.writing o ho
  have hsame : t'.files o.writer.tempPath = s.tree.files o.writer.tempPath := by
    apply h.agree
    intro p u hu he
    rw [hw.tempPath_eq] at he
    exact hid (tempPath_inj he ▸ hu)
  exact { hw with stored := by rw [hsame, hw.stored] }

/-! ### One operation -/

/-- The names and identifiers of a new upload are as clean as those before. -/
theorem CellsInv.clean_cons (h : CellsInv codec s) {dataId metaId : Uuid}
    (hf : FreshIds s dataId metaId bucket key) (ha : AvoidsIds s bucket key) :
    ∀ u ∈ dataId :: metaId :: s.used, ∀ n ∈ (bucket, key) :: s.names, Unmentioned u n.1 n.2 := by
  have hnew : ∀ u ∈ [dataId, metaId], ∀ n ∈ (bucket, key) :: s.names, Unmentioned u n.1 n.2 := by
    intro u hu n hn
    obtain ⟨_, _, hown, hold⟩ := hf.2 u hu
    rcases List.mem_cons.mp hn with rfl | hn
    · exact hown
    · exact hold n hn
  intro u hu n hn
  rcases List.mem_cons.mp hu with rfl | hu
  · exact hnew _ (by simp) n hn
  rcases List.mem_cons.mp hu with rfl | hu
  · exact hnew _ (by simp) n hn
  rcases List.mem_cons.mp hn with rfl | hn
  · exact ha u hu
  · exact h.clean u hu n hn

theorem CellsInv.free_cons (h : CellsInv codec s) (hr : ¬ Reserved bucket key) :
    ∀ n ∈ (bucket, key) :: s.names, ¬ Reserved n.1 n.2 := by
  intro n hn
  rcases List.mem_cons.mp hn with rfl | hn
  · exact hr
  · exact h.free n hn

/-- The open writers use none of the identifiers just drawn. -/
theorem CellsInv.not_mem_fresh (h : CellsInv codec s) {dataId metaId : Uuid}
    (hf : FreshIds s dataId metaId bucket key) {o : OpenWriter D} (ho : o ∈ s.writers) :
    o.dataId ∉ [dataId, metaId] ∧ o.metaId ∉ [dataId, metaId] :=
  ⟨fun hm => (hf.2 _ hm).1 (h.drawn o ho).1, fun hm => (hf.2 _ hm).1 (h.drawn o ho).2.1⟩

/-- After an upload has finished, the cells with its own content put in match the files. -/
theorem Finished.cells {w : LocalMultipartWriter D} {t₁ : FileTree} {dataId metaId : Uuid}
    {written₁ written : Bytes} {info : ObjectInfo} {r : Except StorageError ObjectInfo × FileTree}
    (hinv : CellsInv codec s) (hw : Writing t₁ w dataId metaId written₁)
    (hown : ∀ u ∈ [dataId, metaId], Unmentioned u w.bucket w.key)
    (hsize : info.sizeBytes = written.length) (hbound : written.length ≤ isizeMax)
    (h : Finished codec w written info s.tree r)
    (ht : Touches s r.2 w.bucket w.key [dataId, metaId]) :
    let cells' := completed s.cells (w.bucket, w.key) written r.1
    (∀ b k c, cells' (b, k) = some c →
      (b, k) ∈ (w.bucket, w.key) :: s.names ∧ Stored codec r.2 b k c) ∧
    ∀ b k, ValidName b k → cells' (b, k) = none → r.2.files (sidecarPath b k) = none := by
  intro cells'
  obtain ⟨hsome, hnone⟩ := h.cell hinv hw
    (fun _ _ => ⟨hown dataId (by simp), hown metaId (by simp)⟩) hsize hbound
  have hother : ∀ n, n ≠ (w.bucket, w.key) → cells' n = s.cells n := by
    intro n hn
    simp only [cells']
    cases r.1 with
    | error _ => rfl
    | ok info => exact Function.update_of_ne hn _ _
  obtain ⟨hstored, habsent⟩ := ht.cells hinv hother hsome hnone
  refine ⟨fun b k c hc => ⟨?_, hstored b k c hc⟩, habsent⟩
  by_cases he : (b, k) = (w.bucket, w.key)
  · exact he ▸ List.mem_cons_self
  · exact List.mem_cons_of_mem _ (hinv.present b k c (by rwa [hother _ he] at hc)).1

theorem CellsInv.drawn_cons (h : CellsInv codec s) (dataId metaId : Uuid) (bucket key : Str) :
    ∀ o ∈ s.writers, o.dataId ∈ dataId :: metaId :: s.used ∧
      o.metaId ∈ dataId :: metaId :: s.used ∧
      (o.writer.bucket, o.writer.key) ∈ (bucket, key) :: s.names := by
  intro o ho
  obtain ⟨h1, h2, h3⟩ := h.drawn o ho
  simp [h1, h2, h3]

/-- Only temporary files under fresh identifiers have changed; the names are recorded. -/
theorem CellsInv.named (h : CellsInv codec s) {dataId metaId : Uuid}
    (hf : FreshIds s dataId metaId bucket key) (ha : AvoidsIds s bucket key)
    (hr : ¬ Reserved bucket key) (ht : TouchesTemps s t' [dataId, metaId]) :
    CellsInv codec { s with
      tree := t', used := dataId :: metaId :: s.used, names := (bucket, key) :: s.names } where
  writing := fun _ ho => ht.writing h ho (h.not_mem_fresh hf ho).1
  drawn := h.drawn_cons dataId metaId bucket key
  apart := h.apart
  clean := h.clean_cons hf ha
  free := h.free_cons hr
  present b k c hc := ⟨List.mem_cons_of_mem _ (ht.present h b k c hc).1, (ht.present h b k c hc).2⟩
  absent b k hv hc := ht.absent h b k hv hc

/-- One more writer, with fresh identifiers. -/
theorem CellsInv.open (h : CellsInv codec s) {o : OpenWriter D}
    (hw : Writing s.tree o.writer o.dataId o.metaId o.written)
    (hd : o.dataId ∈ s.used ∧ o.metaId ∈ s.used ∧ (o.writer.bucket, o.writer.key) ∈ s.names)
    (ha : ∀ o' ∈ s.writers, Apart o.ids o'.ids) :
    CellsInv codec { s with writers := o :: s.writers } := by
  refine { h with writing := ?_, drawn := ?_, apart := ?_ }
  · intro o' ho
    rcases List.mem_cons.mp ho with rfl | ho
    · exact hw
    · exact h.writing o' ho
  · intro o' ho
    rcases List.mem_cons.mp ho with rfl | ho
    · exact hd
    · exact h.drawn o' ho
  · refine List.pairwise_cons.mpr ⟨fun a hm => ?_, h.apart⟩
    obtain ⟨o', ho, rfl⟩ := List.mem_map.mp hm
    exact ha o' ho

theorem CellsInv.put (h : CellsInv codec s) (now : ℤ) {dataId metaId : Uuid}
    {contentType : Option Str} {metadata : ObjectMetadata} {stream : StorageByteStream}
    (hf : FreshIds s dataId metaId bucket key) (ha : AvoidsIds s bucket key)
    (hfit : (concatBody stream).length ≤ s.tree.limits.maxFileSize) (hr : ¬ Reserved bucket key) :
    CellsInv codec (s.step codec now
      (.putObjectStream dataId metaId bucket key contentType metadata stream)) := by
  have hclean : ∀ u ∈ [dataId, metaId], ∀ n ∈ s.names, Unmentioned u n.1 n.2 :=
    fun u hu => (hf.2 u hu).2.2.2
  rcases putObjectStream_spec D codec now dataId metaId bucket key contentType metadata stream s.tree
    hfit with ⟨e, he, hsame⟩ | ⟨w, t₁, info, rfl, rfl, hw, hsize, hbound, hfin⟩
  · simp only [ObjectState.step, he, completed]
    exact h.named hf ha hr ⟨hclean, fun q _ => congrFun hsame q⟩
  · have ht : Touches s _ w.bucket w.key [dataId, metaId] := {
      valid := hw.valid
      free := hr
      clean := hclean
      avoids := fun o ho => ha _ (h.drawn o ho).1
      agree := hfin.footprint hw }
    obtain ⟨hpresent, habsent⟩ := hfin.cells h hw (fun u hu => (hf.2 u hu).2.2.1) hsize hbound ht
    exact ⟨fun o ho => ht.writing_other h ho (h.not_mem_fresh hf ho).1,
      h.drawn_cons dataId metaId w.bucket w.key, h.apart, h.clean_cons hf ha, h.free_cons hr,
      hpresent, habsent⟩

theorem CellsInv.create (h : CellsInv codec s) (now : ℤ) {dataId metaId : Uuid}
    {contentType : Option Str} {metadata : ObjectMetadata}
    (hf : FreshIds s dataId metaId bucket key) (ha : AvoidsIds s bucket key)
    (hr : ¬ Reserved bucket key) :
    CellsInv codec (s.step codec now
      (.createMultipartObject dataId metaId bucket key contentType metadata)) := by
  have hclean : ∀ u ∈ [dataId, metaId], ∀ n ∈ s.names, Unmentioned u n.1 n.2 :=
    fun u hu => (hf.2 u hu).2.2.2
  obtain ⟨_, ⟨e, he, hsame⟩ | ⟨w, hok, hb, hk, hw, hfiles⟩⟩ :=
    createMultipartObject_spec D dataId metaId bucket key contentType metadata now s.tree
  · simp only [ObjectState.step, he]
    exact h.named hf ha hr ⟨hclean, fun q _ => congrFun hsame q⟩
  · have ht : TouchesTemps s _ [dataId, metaId] :=
      ⟨hclean, fun q hq => by
        rw [hfiles, Function.update_of_ne (hw.tempPath_eq ▸ hq _ dataId (by simp))]⟩
    simp only [ObjectState.step, hok]
    refine (h.named hf ha hr ht).open hw (by simp [hb, hk]) fun o ho => ?_
    obtain ⟨h1, h2⟩ := h.not_mem_fresh hf ho
    simp only [List.mem_cons, List.not_mem_nil, or_false, not_or] at h1 h2
    exact ⟨Ne.symm h1.1, Ne.symm h2.1, Ne.symm h1.2, Ne.symm h2.2⟩

/-- The identifiers of an open writer occur in no name. -/
theorem CellsInv.clean_ids (h : CellsInv codec s) {o : OpenWriter D} (ho : o ∈ s.writers) :
    ∀ u ∈ [o.dataId, o.metaId], ∀ n ∈ s.names, Unmentioned u n.1 n.2 := by
  obtain ⟨h1, h2, _⟩ := h.drawn o ho
  intro u hu
  simp only [List.mem_cons, List.not_mem_nil, or_false] at hu
  rcases hu with rfl | rfl
  · exact h.clean _ h1
  · exact h.clean _ h2

theorem CellsInv.chunk (h : CellsInv codec s) (now : ℤ) {i : ℕ} {bytes : Bytes}
    (hfit : ∀ o, s.writers[i]? = some o →
      o.written.length + bytes.length ≤ s.tree.limits.maxFileSize) :
    CellsInv codec (s.step codec now (.writeChunk i bytes)) := by
  cases hi : s.writers[i]? with
  | none => simpa only [ObjectState.step, hi] using h
  | some o =>
    have ho : o ∈ s.writers := List.mem_of_getElem? hi
    have hw := h.writing o ho
    obtain ⟨hr, _, hw', hfiles⟩ := writeChunk_spec hw bytes now (hfit o hi)
    have ht : TouchesTemps s _ [o.dataId, o.metaId] :=
      ⟨h.clean_ids ho, fun q hq => by
        rw [hfiles, Function.update_of_ne (hw.tempPath_eq ▸ hq _ o.dataId (by simp))]⟩
    have hpresent := ht.present h
    have habsent := ht.absent h
    simp only [ObjectState.step, hi, hr]
    refine ⟨?_, ?_, ?_, h.clean, h.free, hpresent, habsent⟩
    · intro o' ho'
      rcases of_mem_set h.apart hi ho' with rfl | ⟨hm, hid⟩
      · exact hw'
      · exact ht.writing h hm hid
    · intro o' ho'
      rcases List.mem_or_eq_of_mem_set ho' with ho' | rfl
      · exact h.drawn o' ho'
      · exact h.drawn o ho
    · exact apart_set h.apart hi rfl

theorem CellsInv.complete (h : CellsInv codec s) (now : ℤ) (i : ℕ) :
    CellsInv codec (s.step codec now (.complete i)) := by
  cases hi : s.writers[i]? with
  | none => simpa only [ObjectState.step, hi] using h
  | some o =>
    have ho : o ∈ s.writers := List.mem_of_getElem? hi
    have hn := (h.drawn o ho).2.2
    have hw := h.writing o ho
    have hfin := complete_spec hw codec now
    have ht : Touches s _ o.writer.bucket o.writer.key [o.dataId, o.metaId] := {
      valid := hw.valid
      free := h.free _ hn
      clean := h.clean_ids ho
      avoids := fun o' ho' => h.clean _ (h.drawn o' ho').1 _ hn
      agree := hfin.footprint hw }
    obtain ⟨hpresent, habsent⟩ := hfin.cells h hw (fun u hu => h.clean_ids ho u hu _ hn)
      (hw.info_eq now).1 hw.bounded ht
    simp only [ObjectState.step, hi]
    refine ⟨?_, ?_, ?_, h.clean, h.free, ?_, habsent⟩
    · intro o' ho'
      obtain ⟨hm, hid⟩ := of_mem_eraseIdx h.apart hi ho'
      exact ht.writing_other h hm hid
    · exact fun o' ho' => h.drawn o' (List.mem_of_mem_eraseIdx ho')
    · exact h.apart.sublist ((List.eraseIdx_sublist ..).map _)
    · intro b k c hc
      obtain ⟨hm, hs⟩ := hpresent b k c hc
      rcases List.mem_cons.mp hm with he | hm
      · exact ⟨he ▸ hn, hs⟩
      · exact ⟨hm, hs⟩

theorem CellsInv.abort (h : CellsInv codec s) (now : ℤ) (i : ℕ) :
    CellsInv codec (s.step codec now (.abort i)) := by
  cases hi : s.writers[i]? with
  | none => simpa only [ObjectState.step, hi] using h
  | some o =>
    have ho : o ∈ s.writers := List.mem_of_getElem? hi
    have hw := h.writing o ho
    have hagree := abort_agreeOff o.writer now s.tree
    rw [hw.tempPath_eq, hw.metadataTempPath_eq] at hagree
    have ht : TouchesTemps s _ [o.dataId, o.metaId] :=
      ⟨h.clean_ids ho, fun q hq => hagree q (by
        simp [hq _ o.dataId (by simp), hq _ o.metaId (by simp)])⟩
    have hpresent := ht.present h
    have habsent := ht.absent h
    simp only [ObjectState.step, hi]
    refine ⟨?_, ?_, ?_, h.clean, h.free, hpresent, habsent⟩
    · intro o' ho'
      obtain ⟨hm, hid⟩ := of_mem_eraseIdx h.apart hi ho'
      exact ht.writing h hm hid
    · exact fun o' ho' => h.drawn o' (List.mem_of_mem_eraseIdx ho')
    · exact h.apart.sublist ((List.eraseIdx_sublist ..).map _)

theorem CellsInv.delete (h : CellsInv codec s) (now : ℤ) (ha : AvoidsIds s bucket key)
    (hr : ¬ Reserved bucket key) :
    CellsInv codec (s.step codec now (.deleteObject bucket key)) := by
  by_cases hv : ValidName bucket key
  swap
  · obtain ⟨e, he⟩ := deleteObject_of_not_valid hv now s.tree
    simpa only [ObjectState.step, he] using h
  obtain ⟨hagree, hok, herr⟩ := deleteObject_spec hv now s.tree
  have ht : Touches s _ bucket key [] := {
    valid := hv
    free := hr
    clean := by simp
    avoids := fun o ho => ha _ (h.drawn o ho).1
    agree := fun q hq => hagree q fun hm => hq (by
      simp only [List.mem_cons, List.not_mem_nil, or_false] at hm
      exact hm.imp id Or.inl) }
  have hwriting := fun o ho => ht.writing_other h (o := o) ho (by simp)
  simp only [ObjectState.step]
  cases hres : (FsM.run now (Local.deleteObject bucket key) s.tree).1 with
  | ok _ =>
    have hother : ∀ n, n ≠ (bucket, key) → Function.update s.cells (bucket, key) none n = s.cells n :=
      fun n hn => Function.update_of_ne hn _ _
    obtain ⟨hstored, habsent⟩ := ht.cells h hother (by simp) (fun _ => hok hres)
    refine ⟨hwriting, h.drawn, h.apart, h.clean, h.free, fun b k c hc => ⟨?_, hstored b k c hc⟩,
      habsent⟩
    by_cases he : (b, k) = (bucket, key)
    · simp only [he, Function.update_self] at hc
      cases hc
    · exact (h.present b k c ((hother _ he).symm.trans hc)).1
  | error e =>
    obtain ⟨hmissing, hside⟩ := herr e hres
    obtain ⟨hstored, habsent⟩ := ht.cells h (fun _ _ => rfl) (fun c hc => by
      -- A completed object has both files, and removing them cannot fail.
      obtain ⟨_, _, hd, _, _, encoded, _, hs⟩ := h.present _ _ c hc
      rcases hmissing with hm | hm
      · rw [hm] at hd; cases hd
      · rw [hm] at hs; cases hs) (fun hc => by rw [hside]; exact h.absent _ _ hv hc)
    exact ⟨hwriting, h.drawn, h.apart, h.clean, h.free,
      fun b k c hc => ⟨(h.present b k c hc).1, hstored b k c hc⟩, habsent⟩

end Frame

theorem cellsInv_start (codec : Codec) (limits : Limits) :
    CellsInv codec (ObjectState.start D limits) where
  writing := by simp [ObjectState.start]
  drawn := by simp [ObjectState.start]
  apart := List.Pairwise.nil
  clean := by simp [ObjectState.start]
  free := by simp [ObjectState.start]
  present := by simp [ObjectState.start]
  absent := by simp [ObjectState.start]

theorem CellsInv.step {codec : Codec} {s : ObjectState D} (h : CellsInv codec s) (now : ℤ)
    {op : ObjectOp} (hf : Faultless s op) (hu : op.Unreserved) :
    CellsInv codec (s.step codec now op) := by
  cases op with
  | putObjectStream dataId metaId bucket key contentType metadata stream =>
    exact h.put now hf.1 hf.2.1 hf.2.2 hu
  | createMultipartObject dataId metaId bucket key contentType metadata =>
    exact h.create now hf.1 hf.2 hu
  | writeChunk i bytes => exact h.chunk now hf
  | complete i => exact h.complete now i
  | abort i => exact h.abort now i
  | deleteObject bucket key => exact h.delete now hf hu

theorem ObjectRun.inv {codec : Codec} {limits : Limits} {s : ObjectState D}
    (h : ObjectRun codec limits ObjectOp.Unreserved s) : CellsInv codec s := by
  induction h with
  | start => exact cellsInv_start codec limits
  | step now op _ hf hu ih => exact ih.step now hf hu

/-! ### Reading the cells -/

/-- The object that an operation may publish or delete. -/
def ObjectOp.target (s : ObjectState D) : ObjectOp → Option (Str × Str)
  | .putObjectStream _ _ bucket key _ _ _ | .deleteObject bucket key => some (bucket, key)
  | .complete i => s.writers[i]?.map fun o => (o.writer.bucket, o.writer.key)
  | .createMultipartObject .. | .writeChunk .. | .abort _ => none

/-- At any time the metadata of the object is `info`, and its whole range collects to `bytes`. -/
def Reads (codec : Codec) (t : FileTree) (bucket key : Str) (info : ObjectInfo) (bytes : Bytes) :
    Prop :=
  ∀ now, (FsM.run now (getObjectMetadata codec bucket key) t).1 = .ok info ∧
    ∃ body, (FsM.run now (getObjectRange codec bucket key 0 info.sizeBytes) t).1 = .ok body ∧
      collectStorageStream body.body = .ok bytes

section Reading

variable {codec : Codec} {s : ObjectState D} {bucket key : Str} {info : ObjectInfo} {bytes : Bytes}

theorem completed_of_ne (cells : Str × Str → Option (ObjectInfo × Bytes)) {name n : Str × Str}
    (bytes : Bytes) (r : Except StorageError ObjectInfo) (hne : n ≠ name) :
    completed cells name bytes r n = cells n := by
  cases r with
  | error e => rfl
  | ok info => exact Function.update_of_ne hne _ _

/-- Only the target's cell changes. -/
theorem cells_step_of_ne (now : ℤ) {op : ObjectOp} {n : Str × Str} (hne : op.target s ≠ some n) :
    (s.step codec now op).cells n = s.cells n := by
  cases op with
  | putObjectStream dataId metaId bucket key contentType metadata stream =>
    exact completed_of_ne _ _ _ fun he => hne (congrArg some he.symm)
  | createMultipartObject dataId metaId bucket key contentType metadata =>
    simp only [ObjectState.step]
    split <;> rfl
  | writeChunk i bytes =>
    simp only [ObjectState.step]
    split <;> rfl
  | complete i =>
    cases hi : s.writers[i]? with
    | none => simp only [ObjectState.step, hi]
    | some o =>
      simp only [ObjectState.step, hi]
      refine completed_of_ne _ _ _ fun he => hne ?_
      simp only [ObjectOp.target, hi, Option.map_some, he]
  | abort i =>
    simp only [ObjectState.step]
    split <;> rfl
  | deleteObject bucket key =>
    simp only [ObjectState.step]
    cases (FsM.run now (Local.deleteObject bucket key) s.tree).1 with
    | ok _ => exact Function.update_of_ne (fun he => hne (congrArg some he.symm)) _ _
    | error _ => rfl

theorem CellsInv.getObjectMetadata_iff (h : CellsInv codec s)
    (hcodec : ∀ info bytes, codec.toVec info = .ok bytes → codec.fromSlice bytes = .ok info)
    (now : ℤ) : (FsM.run now (getObjectMetadata codec bucket key) s.tree).1 = .ok info ↔
      ∃ bytes, s.cells (bucket, key) = some (info, bytes) := by
  rw [getObjectMetadata_eq_ok]
  constructor
  · rintro ⟨hv, encoded, hfile, hdec⟩
    cases hc : s.cells (bucket, key) with
    | none =>
      rw [h.absent bucket key hv hc] at hfile
      cases hfile
    | some c =>
      obtain ⟨_, _, _, _, _, encoded', henc, hfile'⟩ := h.present bucket key c hc
      obtain rfl : encoded' = encoded := Option.some.inj (hfile'.symm.trans hfile)
      obtain rfl : c.1 = info := Except.ok.inj ((hcodec _ _ henc).symm.trans hdec)
      exact ⟨c.2, rfl⟩
  · rintro ⟨bytes, hc⟩
    obtain ⟨_, hv, _, _, _, encoded, henc, hfile⟩ := h.present bucket key _ hc
    exact ⟨hv, encoded, hfile, hcodec _ _ henc⟩

theorem CellsInv.reads_iff (h : CellsInv codec s)
    (hcodec : ∀ info bytes, codec.toVec info = .ok bytes → codec.fromSlice bytes = .ok info) :
    Reads codec s.tree bucket key info bytes ↔ s.cells (bucket, key) = some (info, bytes) := by
  have hrange : ∀ bytes, s.cells (bucket, key) = some (info, bytes) → ∀ now,
      (FsM.run now (getObjectMetadata codec bucket key) s.tree).1 = .ok info ∧
      ∃ body, (FsM.run now (getObjectRange codec bucket key 0 info.sizeBytes) s.tree).1 = .ok body ∧
        collectStorageStream body.body = .ok bytes := by
    intro bytes hc now
    have hm := (h.getObjectMetadata_iff hcodec now).mpr ⟨bytes, hc⟩
    obtain ⟨_, _, hd, hb, hsize, _⟩ := h.present bucket key _ hc
    exact ⟨hm, getObjectRange_whole hm hd hsize hb⟩
  constructor
  · intro hr
    obtain ⟨hm, body, hbody, hcollect⟩ := hr 0
    obtain ⟨bytes', hc⟩ := (h.getObjectMetadata_iff hcodec 0).mp hm
    obtain ⟨_, body', hbody', hcollect'⟩ := hrange bytes' hc 0
    obtain rfl : body = body' := Except.ok.inj (hbody.symm.trans hbody')
    obtain rfl : bytes = bytes' := Except.ok.inj (hcollect.symm.trans hcollect')
    exact hc
  · exact fun hc => hrange bytes hc

end Reading

/-- Streaming objects are independent cells in every run whose operations name no data at a
sidecar's place: the metadata of a name is that of its last completed upload, the range over
the whole object is what was written, and an operation on another name changes neither. -/
theorem streaming_objects_independent (D : Digest) (codec : Codec)
    (hcodec : ∀ info bytes, codec.toVec info = .ok bytes → codec.fromSlice bytes = .ok info)
    (limits : Limits) (s : ObjectState D) (h : ObjectRun codec limits ObjectOp.Unreserved s)
    (bucket key : Str) :
    (∀ now info, (FsM.run now (getObjectMetadata codec bucket key) s.tree).1 = .ok info ↔
      ∃ bytes, s.cells (bucket, key) = some (info, bytes)) ∧
    (∀ info bytes, s.cells (bucket, key) = some (info, bytes) →
      Reads codec s.tree bucket key info bytes) ∧
    ∀ now op, Faultless s op → op.Unreserved → op.target s ≠ some (bucket, key) →
      ∀ info bytes, Reads codec (s.step codec now op).tree bucket key info bytes ↔
        Reads codec s.tree bucket key info bytes := by
  have hinv := h.inv
  refine ⟨fun now info => hinv.getObjectMetadata_iff hcodec now,
    fun info bytes hc => (hinv.reads_iff hcodec).mpr hc, ?_⟩
  intro now op hf hu hne info bytes
  rw [(hinv.step now hf hu).reads_iff hcodec, hinv.reads_iff hcodec, cells_step_of_ne now hne]

/-- Data outside the internal directory is at no sidecar's place. -/
theorem not_reserved_of_bucket {bucket : Str} (key : Str) (h : bucket ≠ internalStorageDir) :
    ¬ Reserved bucket key := by
  rintro ⟨b, k, _, he⟩
  exact h (List.cons.inj he).1

/-- The record of the two bytes 1, 2, completed at the epoch. -/
def sampleInfo : ObjectInfo where
  bucket := "b".toList
  key := "k".toList
  contentType := none
  metadata := []
  sizeBytes := 2
  sha256Hex := "a12871fee210fb8619291eaea194581cbd2531e4b23759d225f6806923f63222".toList
  etag := some "a12871fee210fb8619291eaea194581cbd2531e4b23759d225f6806923f63222".toList
  lastModified := 0

/-- Its JSON text. -/
def sampleJson : Bytes :=
  ("\x7b\"bucket\":\"b\",\"key\":\"k\",\"content_type\":null,\"metadata\":\x7b\x7d," ++
    "\"size_bytes\":2,\"sha256_hex\":" ++
    "\"a12871fee210fb8619291eaea194581cbd2531e4b23759d225f6806923f63222\",\"etag\":" ++
    "\"a12871fee210fb8619291eaea194581cbd2531e4b23759d225f6806923f63222\"," ++
    "\"last_modified\":[1970,1,0,0,0,0,0,0,0]\x7d").toUTF8.toList

/-- The codec on that record. -/
def sampleCodec : Codec where
  toVec info := if info = sampleInfo then .ok sampleJson else .error []
  fromSlice bytes := if bytes = sampleJson then .ok sampleInfo else .error []

theorem sampleCodec_roundtrip (info : ObjectInfo) (bytes : Bytes)
    (h : sampleCodec.toVec info = .ok bytes) : sampleCodec.fromSlice bytes = .ok info := by
  simp only [sampleCodec] at h ⊢
  split_ifs at h with hi
  obtain rfl := Except.ok.inj h
  simp [hi]

/-- An upload of two bytes. -/
def samplePut : ObjectOp :=
  .putObjectStream (sampleUuid 1) (sampleUuid 2) "b".toList "k".toList none []
    ⟨[.ok [1], .ok [2]], none⟩

def afterSamplePut : ObjectState Digest.sha256 :=
  (ObjectState.start Digest.sha256 Limits.widest).step sampleCodec 0 samplePut

theorem objectRun_samplePut {condition : ObjectOp → Prop} (h : condition samplePut) :
    ObjectRun sampleCodec Limits.widest condition afterSamplePut := by
  refine ObjectRun.step 0 samplePut .start ?_ h
  exact ⟨by decide +kernel, by decide +kernel, by decide +kernel⟩

/-- The upload can be read back, also after another object was deleted. -/
theorem streaming_objects_independent_one_put :
    ObjectRun sampleCodec Limits.widest ObjectOp.Unreserved afterSamplePut ∧
      Reads sampleCodec (afterSamplePut.step sampleCodec 1 (.deleteObject "b".toList "j".toList)).tree
        "b".toList "k".toList sampleInfo [1, 2] := by
  have hb : ∀ key, ¬ Reserved "b".toList key := fun key => not_reserved_of_bucket key (by decide)
  have hrun : ObjectRun sampleCodec Limits.widest ObjectOp.Unreserved afterSamplePut :=
    objectRun_samplePut (hb _)
  obtain ⟨_, hreads, hframe⟩ := streaming_objects_independent _ _ sampleCodec_roundtrip _ _ hrun
    "b".toList "k".toList
  refine ⟨hrun, (hframe 1 (.deleteObject "b".toList "j".toList) ?_ (hb _) (by decide) _ _).mpr
    (hreads _ _ (by decide +kernel))⟩
  show AvoidsIds afterSamplePut "b".toList "j".toList
  decide +kernel

/-- Deleting an object of the internal directory removes the sidecar of another object. -/
theorem streaming_objects_not_independent :
    ∃ s : ObjectState Digest.sha256, ObjectRun sampleCodec Limits.widest (fun _ => True) s ∧
      s.cells ("b".toList, "k".toList) = some (sampleInfo, [1, 2]) ∧
      (FsM.run 2 (getObjectMetadata sampleCodec "b".toList "k".toList) s.tree).1 =
        .error (.missingBlob "b/k".toList) := by
  refine ⟨_, (objectRun_samplePut trivial).step 1
    (.deleteObject ".graphql-orm-storage".toList "object-metadata/b/k.metadata.json".toList) ?_
    trivial, ?_, ?_⟩
  · show AvoidsIds afterSamplePut _ _
    decide +kernel
  · decide +kernel
  · decide +kernel

end GraphqlOrmStorage.Local
