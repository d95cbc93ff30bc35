import GraphqlOrmStorage.LocalReadRaces

/-!
# Blobs and objects under one root

The blob with the key `bucket/key` and the data of the object of that bucket and key
are one file, and the sidecars are files that a key can name as well. Only uploads of
objects keep a sidecar in step with the data. A run that mixes both kinds of operations
leaves every record describing its data as long as no operation puts something else over
data that has a record, or a record where it does not describe the data.
-/
namespace GraphqlOrmStorage.Local

open Text Program FileTree

/-! ### Records -/

/-- The sidecar of the object decodes to this record. -/
def Recorded (codec : Codec) (t : FileTree) (bucket key : Str) (info : ObjectInfo) : Prop :=
  ValidName bucket key ∧
    ∃ bytes, t.files (sidecarPath bucket key) = some bytes ∧ codec.fromSlice bytes = .ok info

/-- The data file is there, and the record describes it. -/
def HasData (D : Digest) (t : FileTree) (bucket key : Str) (info : ObjectInfo) : Prop :=
  ∃ bytes, t.files (dataPath bucket key) = some bytes ∧ Describes D info bytes

/-- Every record that `get_object_metadata` returns describes the data. -/
def SidecarsDescribe (D : Digest) (codec : Codec) (t : FileTree) : Prop :=
  ∀ now bucket key info, (FsM.run now (getObjectMetadata codec bucket key) t).1 = .ok info →
    HasData D t bucket key info

/-- What `get_object_range` serves is the part of the described data that it announces. -/
def RangesServed (D : Digest) (codec : Codec) (t : FileTree) : Prop :=
  ∀ now bucket key start stop r,
    (FsM.run now (getObjectRange codec bucket key start stop) t).1 = .ok r →
      ∃ bytes, t.files (dataPath bucket key) = some bytes ∧ Describes D r.object bytes ∧
        firstError r.body.inner = none ∧
        concatBody r.body = (bytes.drop start).take r.contentLength ∧
        (concatBody r.body).length = r.contentLength

theorem sidecarsDescribe_iff {D : Digest} {codec : Codec} {t : FileTree} :
    SidecarsDescribe D codec t ↔
      ∀ bucket key info, Recorded codec t bucket key info → HasData D t bucket key info := by
  constructor
  · intro h bucket key info hrec
    exact h 0 bucket key info (getObjectMetadata_eq_ok.mpr hrec)
  · intro h now bucket key info hm
    exact h bucket key info (getObjectMetadata_eq_ok.mp hm)

/-- Whatever a range read returns, its record is the one in the sidecar. -/
theorem getObjectRange_recorded {codec : Codec} {t : FileTree} {now : ℤ} {bucket key : Str}
    {start stop : ℕ} {r : ObjectRangeBody}
    (h : (FsM.run now (getObjectRange codec bucket key start stop) t).1 = .ok r) :
    start ≤ stop ∧ ∃ info, (FsM.run now (getObjectMetadata codec bucket key) t).1 = .ok info := by
  by_cases hle : start ≤ stop
  · refine ⟨hle, ?_⟩
    cases hm : (FsM.run now (getObjectMetadata codec bucket key) t).1 with
    | error e =>
      obtain ⟨e', he⟩ := getObjectRange_error start stop hm
      rw [he] at h
      cases h
    | ok info => exact ⟨info, rfl⟩
  · simp [getObjectRange, Nat.not_le.mp hle] at h

/-- A stream of chunks without an error delivers these chunks. -/
theorem chunks_map_ok (l : List Bytes) :
    firstError (l.map Except.ok : List (Except StorageError Bytes)) = none ∧
      okChunks (l.map Except.ok : List (Except StorageError Bytes)) = l := by
  induction l with
  | nil => exact ⟨rfl, rfl⟩
  | cons c l ih => simpa [firstError, okChunks] using ih

theorem SidecarsDescribe.rangesServed {D : Digest} {codec : Codec} {t : FileTree}
    (h : SidecarsDescribe D codec t) : RangesServed D codec t := by
  intro now bucket key start stop r hr
  obtain ⟨hle, info, hm⟩ := getObjectRange_recorded hr
  obtain ⟨bytes, hdata, hdesc⟩ := h now bucket key info hm
  refine ⟨bytes, hdata, ?_⟩
  rcases getObjectRange_of_files hm hdata hle with ⟨_, e, he⟩ | ⟨hstart, _, hrun⟩
  · rw [he] at hr
    cases hr
  · rw [hrun] at hr
    obtain rfl := Except.ok.inj hr
    obtain ⟨hno, hchunks⟩ := chunks_map_ok (readChunks ((bytes.drop start).take
      (min stop info.sizeBytes - start)))
    refine ⟨hdesc, hno, ?_, ?_⟩
    · simp only [concatBody, hchunks, flatten_readChunks]
    · have hsize := hdesc.1
      simp only [concatBody, hchunks, flatten_readChunks, List.length_take, List.length_drop]
      omega

/-! ### Runs -/

/-- An operation of either store; a blob operation draws one identifier. -/
inductive StoreOp where
  | blob (op : BlobOp) (uuid : Uuid)
  | object (op : ObjectOp)

variable {D : Digest}

/-- One operation at time `now`. -/
def ObjectState.stepStore (codec : Codec) (now : ℤ) (s : ObjectState D) : StoreOp → ObjectState D
  | .blob op uuid => { s with tree := ((⟨op, uuid, now⟩ : BlobEvent).exec D s.tree).2 }
  | .object op => s.step codec now op

/-- The identifiers of the open writers. -/
def openIds (s : ObjectState D) : List Uuid :=
  s.writers.flatMap fun o => [o.dataId, o.metaId]

/-- No name on the path contains the identifier of an open writer. -/
def AvoidsOpen (s : ObjectState D) (path : Path) : Prop :=
  ∀ u ∈ openIds s, ∀ c ∈ path, ¬ u.toStr <:+: c

instance (s : ObjectState D) (path : Path) : Decidable (AvoidsOpen s path) :=
  inferInstanceAs (Decidable (∀ u ∈ openIds s, ∀ c ∈ path, ¬ u.toStr <:+: c))

/-- The identifiers are new, and occur neither in a file name nor in the bucket and the key. -/
def NewIds (s : ObjectState D) (dataId metaId : Uuid) (bucket key : Str) : Prop :=
  dataId ≠ metaId ∧ ∀ u ∈ [dataId, metaId],
    u ∉ openIds s ∧ FreshUuid s.tree u ∧ Unmentioned u bucket key

instance (s : ObjectState D) (dataId metaId : Uuid) (bucket key : Str) :
    Decidable (NewIds s dataId metaId bucket key) := inferInstanceAs (Decidable (_ ∧ _))

/-- The key that a blob operation writes to. -/
def BlobOp.targetKey : BlobOp → Str
  | .put key _ _ | .putIfNotExists key _ _ | .copy _ key | .delete key => key

/-- Identifiers are new, no key names the file of an open writer, and what is written to an
object fits into a file. -/
def Undisturbed (s : ObjectState D) : StoreOp → Prop
  | .blob op uuid => FreshUuid s.tree uuid ∧ AvoidsOpen s (op.targetKey.splitOn '/')
  | .object (.putObjectStream dataId metaId bucket key _ _ stream) =>
    NewIds s dataId metaId bucket key ∧ AvoidsOpen s (dataPath bucket key) ∧
      (concatBody stream).length ≤ s.tree.limits.maxFileSize
  | .object (.createMultipartObject dataId metaId bucket key _ _) =>
    NewIds s dataId metaId bucket key ∧ AvoidsOpen s (dataPath bucket key)
  | .object (.writeChunk i bytes) => ∀ o, s.writers[i]? = some o →
      o.written.length + bytes.length ≤ s.tree.limits.maxFileSize
  | .object (.complete _) | .object (.abort _) => True
  | .object (.deleteObject bucket key) => AvoidsOpen s (dataPath bucket key)

/-- What the operation, if it succeeds, leaves at which path. -/
def BlobOp.Writes (t : FileTree) : BlobOp → Path → Option Bytes → Prop
  | .put key body _, path, content => path = key.splitOn '/' ∧
      ∃ b, body.body = .ok b ∧ content = some b
  | .putIfNotExists key body _, path, content => path = key.splitOn '/' ∧ t.files path = none ∧
      ∃ b, body.body = .ok b ∧ content = some b
  | .copy src dst, path, content => path = dst.splitOn '/' ∧
      ∃ b, t.files (src.splitOn '/') = some b ∧ content = some b
  | .delete key, path, content => path = key.splitOn '/' ∧ content = none

/-- Where the path is the data of an object with a record, the record describes the content. -/
def DataFits (D : Digest) (codec : Codec) (t : FileTree) (path : Path) (content : Option Bytes) :
    Prop :=
  ∀ bucket key info, path = dataPath bucket key → Recorded codec t bucket key info →
    ∃ bytes, content = some bytes ∧ Describes D info bytes

/-- Where the path is the sidecar of an object and the content a record, the data is there and
the record describes it. -/
def SidecarFits (D : Digest) (codec : Codec) (t : FileTree) (path : Path)
    (content : Option Bytes) : Prop :=
  ∀ bucket key info bytes, ValidName bucket key → path = sidecarPath bucket key →
    content = some bytes → codec.fromSlice bytes = .ok info → HasData D t bucket key info

/-- The record of an object with these bytes that is completed at time `now`. -/
def recordOf (D : Digest) (now : ℤ) (bucket key : Str) (contentType : Option Str)
    (metadata : ObjectMetadata) (bytes : Bytes) : ObjectInfo :=
  ⟨bucket, key, contentType, metadata, bytes.length, sha256Hex D bytes,
    some (sha256Hex D bytes), now⟩

/-- The two files of an upload are in the way of no other object. -/
def UploadSpares (D : Digest) (codec : Codec) (t : FileTree) (bytes : Bytes) (info : ObjectInfo) :
    Prop :=
  SidecarFits D codec t (dataPath info.bucket info.key) (some bytes) ∧
    ∀ encoded, codec.toVec info = .ok encoded →
      DataFits D codec t (sidecarPath info.bucket info.key) (some encoded)

/-- The operation replaces the data of a recorded object only by data that the record
describes, and puts a record only where it describes the data. -/
def KeepsDescribed (codec : Codec) (now : ℤ) (s : ObjectState D) : StoreOp → Prop
  | .blob op _ => ∀ path content, op.Writes s.tree path content →
      DataFits D codec s.tree path content ∧ SidecarFits D codec s.tree path content
  | .object (.putObjectStream _ _ bucket key contentType metadata stream) =>
    firstError stream.inner = none → UploadSpares D codec s.tree (concatBody stream)
      (recordOf D now bucket key contentType metadata (concatBody stream))
  | .object (.complete i) => ∀ o, s.writers[i]? = some o →
      UploadSpares D codec s.tree o.written (o.writer.info now)
  | .object (.deleteObject bucket key) =>
    DataFits D codec s.tree (sidecarPath bucket key) none
  | .object (.createMultipartObject ..) | .object (.writeChunk ..) | .object (.abort _) => True

/-- Sequential runs from an empty root whose operations all meet a condition on the state. -/
inductive StoreRun (codec : Codec) (limits : Limits)
    (condition : ℤ → ObjectState D → StoreOp → Prop) : ObjectState D → Prop
  | start : StoreRun codec limits condition (ObjectState.start D limits)
  | step {s : ObjectState D} (now : ℤ) (op : StoreOp) : StoreRun codec limits condition s →
      Undisturbed s op → condition now s op →
      StoreRun codec limits condition (s.stepStore codec now op)

/-! ### The invariant -/

structure StoreInv (codec : Codec) (s : ObjectState D) : Prop where
  writing : ∀ o ∈ s.writers, Writing s.tree o.writer o.dataId o.metaId o.written
  apart : (s.writers.map OpenWriter.ids).Pairwise Apart
  clean : ∀ o ∈ s.writers, AvoidsOpen s (dataPath o.writer.bucket o.writer.key)
  hidden : ∀ bucket key info, Recorded codec s.tree bucket key info →
    AvoidsOpen s (dataPath bucket key)
  described : ∀ bucket key info, Recorded codec s.tree bucket key info →
    HasData D s.tree bucket key info

/-- The tree changed at the written paths and at temporary paths under the identifiers. -/
structure Effect (codec : Codec) (s : ObjectState D) (t' : FileTree) (written : List Path)
    (ids : List Uuid) : Prop where
  agree : ∀ q, q ∉ written → (∀ p, ∀ u ∈ ids, q ≠ tempPath p u) → t'.files q = s.tree.files q
  temps : ∀ q ∈ written, ∀ u ∈ openIds s, ∀ p, q ≠ tempPath p u
  sidecars : ∀ bucket key, sidecarPath bucket key ∈ written → AvoidsOpen s (dataPath bucket key)
  unread : ∀ u ∈ ids, ∀ bucket key info, Recorded codec s.tree bucket key info →
    Unmentioned u bucket key
  described : ∀ bucket key info, Recorded codec t' bucket key info →
    sidecarPath bucket key ∈ written ∨ dataPath bucket key ∈ written →
      HasData D t' bucket key info

section Effects

variable {codec : Codec} {s : ObjectState D} {t' : FileTree} {written : List Path}
  {ids : List Uuid} {bucket key : Str} {info : ObjectInfo} {dataId metaId : Uuid}

theorem mem_openIds {u : Uuid} : u ∈ openIds s ↔ ∃ o ∈ s.writers, u = o.dataId ∨ u = o.metaId := by
  simp [openIds]

/-- Every name of the data path is part of a name of the sidecar path. -/
theorem unmentioned_of_sidecar {u : Uuid} (h : ∀ c ∈ sidecarPath bucket key, ¬ u.toStr <:+: c) :
    Unmentioned u bucket key := by
  intro c hc hin
  have hne := splitOn_ne_nil key
  rcases List.mem_cons.mp hc with rfl | hc
  · exact h c (by simp [sidecarPath]) hin
  · rw [← List.dropLast_append_getLast hne] at hc
    rcases List.mem_append.mp hc with hc | hc
    · exact h c (by simp [sidecarPath, hc]) hin
    · obtain rfl := List.mem_singleton.mp hc
      refine h _ (List.mem_cons_of_mem _ (List.mem_cons_of_mem _ (List.mem_cons_of_mem _
        (List.mem_append_right _ (List.mem_singleton.mpr rfl))))) ?_
      rw [List.getLast?_eq_some_getLast hne, Option.getD_some]
      exact hin.trans (List.prefix_append _ _).isInfix

theorem AvoidsOpen.of_sidecar (h : AvoidsOpen s (sidecarPath bucket key)) :
    AvoidsOpen s (dataPath bucket key) := fun u hu => unmentioned_of_sidecar (h u hu)

/-- A path that mentions no identifier of an open writer is not its temporary path. -/
theorem AvoidsOpen.ne_tempPath {q : Path} (h : AvoidsOpen s q) {u : Uuid} (hu : u ∈ openIds s)
    (p : Path) : q ≠ tempPath p u := by
  intro he
  have hmem : tempName (p.getLast?.getD []) u ∈ q := by
    rw [he]
    exact List.mem_append_right _ (List.mem_singleton.mpr rfl)
  exact h u hu _ hmem (infix_tempName _ u)

/-- A record that was there before, or one at a written path. -/
theorem Effect.recorded (h : Effect codec s t' written ids)
    (hrec : Recorded codec t' bucket key info) :
    Recorded codec s.tree bucket key info ∨ sidecarPath bucket key ∈ written := by
  by_cases hw : sidecarPath bucket key ∈ written
  · exact Or.inr hw
  · left
    obtain ⟨hv, bytes, hb, hdec⟩ := hrec
    rw [h.agree _ hw fun p u _ => sidecarPath_ne_tempPath p u] at hb
    exact ⟨hv, bytes, hb, hdec⟩

theorem Effect.keeps_hidden (hinv : StoreInv codec s) (h : Effect codec s t' written ids)
    (hrec : Recorded codec t' bucket key info) : AvoidsOpen s (dataPath bucket key) := by
  rcases h.recorded hrec with hold | hw
  · exact hinv.hidden bucket key info hold
  · exact h.sidecars bucket key hw

theorem Effect.keeps_described (hinv : StoreInv codec s) (h : Effect codec s t' written ids)
    (hrec : Recorded codec t' bucket key info) : HasData D t' bucket key info := by
  by_cases hw : sidecarPath bucket key ∈ written ∨ dataPath bucket key ∈ written
  · exact h.described bucket key info hrec hw
  · rcases h.recorded hrec with hold | hside
    · obtain ⟨bytes, hb, hdesc⟩ := hinv.described bucket key info hold
      have hsame : t'.files (dataPath bucket key) = s.tree.files (dataPath bucket key) :=
        h.agree _ (fun hm => hw (Or.inr hm)) fun p u hu =>
          (h.unread u hu bucket key info hold).dataPath_ne p
      exact ⟨bytes, hsame.trans hb, hdesc⟩
    · exact absurd (Or.inl hside) hw

/-- A writer with another identifier keeps its temporary file. -/
theorem Effect.keeps_writing (hinv : StoreInv codec s) (h : Effect codec s t' written ids)
    {o : OpenWriter D} (ho : o ∈ s.writers) (hid : o.dataId ∉ ids) :
    Writing t' o.writer o.dataId o.metaId o.written := by
  have hw := hinv.writing o ho
  have hopen : o.dataId ∈ openIds s := mem_openIds.mpr ⟨o, ho, Or.inl rfl⟩
  have hsame : t'.files o.writer.tempPath = s.tree.files o.writer.tempPath := by
    rw [hw.tempPath_eq]
    apply h.agree
    · intro hm
      exact h.temps _ hm _ hopen _ rfl
    · intro p u hu he
      exact hid (tempPath_inj he ▸ hu)
  exact { hw with stored := by rw [hsame, hw.stored] }

/-- An effect keeps the invariant for writers that have the names and identifiers of old ones. -/
theorem Effect.inv {s' : ObjectState D} (hinv : StoreInv codec s)
    (h : Effect codec s s'.tree written ids)
    (hwriting : ∀ o ∈ s'.writers, Writing s'.tree o.writer o.dataId o.metaId o.written)
    (hapart : (s'.writers.map OpenWriter.ids).Pairwise Apart)
    (hold : ∀ o ∈ s'.writers, ∃ o' ∈ s.writers, o.ids = o'.ids ∧
      dataPath o.writer.bucket o.writer.key = dataPath o'.writer.bucket o'.writer.key) :
    StoreInv codec s' := by
  have hids : ∀ u ∈ openIds s', u ∈ openIds s := by
    intro u hu
    obtain ⟨o, ho, hor⟩ := mem_openIds.mp hu
    obtain ⟨o', ho', hid, _⟩ := hold o ho
    obtain ⟨h1, h2⟩ := Prod.mk.inj hid
    exact mem_openIds.mpr ⟨o', ho', by rwa [← h1, ← h2]⟩
  have havoids : ∀ q, AvoidsOpen s q → AvoidsOpen s' q := fun q hq u hu => hq u (hids u hu)
  refine ⟨hwriting, hapart, ?_, ?_, fun _ _ _ hrec => h.keeps_described hinv hrec⟩
  · intro o ho
    obtain ⟨o', ho', _, hpath⟩ := hold o ho
    rw [hpath]
    exact havoids _ (hinv.clean o' ho')
  · exact fun _ _ _ hrec => havoids _ (h.keeps_hidden hinv hrec)

/-- An effect that concerns no open writer. -/
theorem Effect.inv_same {s' : ObjectState D} (hinv : StoreInv codec s)
    (h : Effect codec s s'.tree written ids) (hwriters : s'.writers = s.writers)
    (hids : ∀ o ∈ s.writers, o.dataId ∉ ids) : StoreInv codec s' := by
  refine h.inv hinv ?_ ?_ ?_
  · intro o ho
    rw [hwriters] at ho
    exact h.keeps_writing hinv ho (hids o ho)
  · rw [hwriters]
    exact hinv.apart
  · intro o ho
    rw [hwriters] at ho
    exact ⟨o, ho, rfl, rfl⟩

/-- Only temporary files have changed. -/
theorem effect_temps (hunread : ∀ u ∈ ids, ∀ bucket key info,
      Recorded codec s.tree bucket key info → Unmentioned u bucket key)
    (hagree : ∀ q, (∀ p, ∀ u ∈ ids, q ≠ tempPath p u) → t'.files q = s.tree.files q) :
    Effect codec s t' [] ids where
  agree := fun q _ hq => hagree q hq
  temps := by simp
  sidecars := by simp
  unread := hunread
  described := by simp

theorem effect_of_files (hfiles : t'.files = s.tree.files) : Effect codec s t' [] [] :=
  effect_temps (by simp) fun q _ => congrFun hfiles q

/-! ### Blob operations -/

/-- A blob operation changes nothing, or it leaves what it writes. -/
theorem BlobEvent.exec_writes (D : Digest) (e : BlobEvent) {t : FileTree}
    (hu : FreshUuid t e.uuid) : (e.exec D t).2.files = t.files ∨
      ∃ path content, e.op.Writes t path content ∧
        (e.exec D t).2.files = Function.update t.files path content := by
  obtain ⟨op, u, now⟩ := e
  cases op with
  | put key body options =>
    rcases putBlob_spec D u key body options now t (hu.tempPath _) with
      ⟨_, _, hf, _⟩ | ⟨b, _, hb, _, hf, _⟩
    · exact Or.inl hf
    · exact Or.inr ⟨_, _, ⟨rfl, b, hb, rfl⟩, hf⟩
  | putIfNotExists key body options =>
    rcases putBlobIfNotExists_spec D u key body options now t (hu.tempPath _) with
      ⟨_, hf, _⟩ | ⟨b, _, hb, hnone, _, hf, _⟩
    · exact Or.inl hf
    · exact Or.inr ⟨_, _, ⟨rfl, hnone, b, hb, rfl⟩, hf⟩
  | copy src dst =>
    rcases copyBlob_spec u src dst now t (hu.tempPath _) with
      ⟨_, _, hf, _⟩ | ⟨b, _, _, hb, _, hf, _⟩
    · exact Or.inl hf
    · exact Or.inr ⟨_, _, ⟨rfl, b, hb, rfl⟩, hf⟩
  | delete key =>
    rcases deleteBlob_spec key now t with ⟨_, he⟩ | ⟨_, hf, _, _⟩
    · exact Or.inl (congrArg (fun r => r.2.files) he)
    · exact Or.inr ⟨_, _, ⟨rfl, rfl⟩, hf⟩

theorem BlobOp.Writes.path_eq {op : BlobOp} {t : FileTree} {path : Path} {content : Option Bytes}
    (h : op.Writes t path content) : path = op.targetKey.splitOn '/' := by
  cases op with
  | put => exact h.1
  | putIfNotExists => exact h.1
  | copy => exact h.1
  | delete => exact h.1

/-- A single write that fits. -/
theorem effect_update {path : Path} {content : Option Bytes} (havoids : AvoidsOpen s path)
    (hdata : DataFits D codec s.tree path content)
    (hside : SidecarFits D codec s.tree path content)
    (hfiles : t'.files = Function.update s.tree.files path content) :
    Effect codec s t' [path] [] where
  agree := by
    intro q hq _
    rw [hfiles, Function.update_of_ne (by simpa using hq)]
  temps := by
    intro q hq u hu p
    rw [List.mem_singleton.mp hq]
    exact havoids.ne_tempPath hu p
  sidecars := by
    intro b k hm
    rw [← List.mem_singleton.mp hm] at havoids
    exact havoids.of_sidecar
  unread := by simp
  described := by
    intro b k info hrec hw
    obtain ⟨hv, bytes, hb, hdec⟩ := hrec
    rw [hfiles] at hb
    have hne : sidecarPath b k ≠ dataPath b k := sidecarPath_ne_dataPath
    simp only [List.mem_singleton] at hw
    by_cases he : sidecarPath b k = path
    · rw [he, Function.update_self] at hb
      obtain ⟨data, hd, hdesc⟩ := hside b k info bytes hv he.symm hb hdec
      refine ⟨data, ?_, hdesc⟩
      rw [hfiles, Function.update_of_ne (by rw [← he]; exact Ne.symm hne), hd]
    · have hpath : dataPath b k = path := hw.resolve_left he
      rw [Function.update_of_ne he] at hb
      obtain ⟨data, hc, hdesc⟩ := hdata b k info hpath.symm ⟨hv, bytes, hb, hdec⟩
      refine ⟨data, ?_, hdesc⟩
      rw [hfiles, hpath, Function.update_self, hc]

theorem StoreInv.blob (h : StoreInv codec s) (now : ℤ) {op : BlobOp} {uuid : Uuid}
    (hu : Undisturbed s (.blob op uuid)) (hk : KeepsDescribed codec now s (.blob op uuid)) :
    StoreInv codec (s.stepStore codec now (.blob op uuid)) := by
  rcases BlobEvent.exec_writes D ⟨op, uuid, now⟩ hu.1 with hf | ⟨path, content, hwrites, hf⟩
  · exact Effect.inv_same h (effect_of_files hf) rfl (by simp)
  · obtain ⟨hdata, hside⟩ := hk path content hwrites
    have havoids : AvoidsOpen s path := by
      rw [hwrites.path_eq]
      exact hu.2
    exact Effect.inv_same h (effect_update havoids hdata hside hf) rfl (by simp)

/-! ### Finishing an upload -/

/-- A new identifier occurs in no name of an object whose data file is there. -/
theorem unmentioned_of_fresh {t : FileTree} {u : Uuid} (hu : FreshUuid t u) {bytes : Bytes}
    (hb : t.files (dataPath bucket key) = some bytes) : Unmentioned u bucket key := by
  intro c hc hin
  rw [files_of_lookup_none (hu.files_none hc hin)] at hb
  cases hb

/-- Nor in the name of an object that is being written. -/
theorem unmentioned_of_writing {t : FileTree} {u dataId metaId : Uuid}
    {w : LocalMultipartWriter D} {bytes : Bytes} (hu : FreshUuid t u)
    (hw : Writing t w dataId metaId bytes) : Unmentioned u w.bucket w.key := by
  intro c hc hin
  have hne : dataPath w.bucket w.key ≠ [] := by simp [dataPath]
  have hstored := hw.stored
  rw [hw.tempPath_eq] at hstored
  rw [← List.dropLast_append_getLast hne] at hc
  rcases List.mem_append.mp hc with hc | hc
  · have hmem : c ∈ tempPath (dataPath w.bucket w.key) dataId := List.mem_append_left _ hc
    rw [files_of_lookup_none (hu.files_none hmem hin)] at hstored
    cases hstored
  · obtain rfl := List.mem_singleton.mp hc
    have htemp : u.toStr <:+: tempName ((dataPath w.bucket w.key).getLast?.getD []) dataId := by
      rw [List.getLast?_eq_some_getLast hne, Option.getD_some]
      exact hin.trans (List.prefix_append _ _).isInfix
    have hmem : tempName ((dataPath w.bucket w.key).getLast?.getD []) dataId ∈
        tempPath (dataPath w.bucket w.key) dataId :=
      List.mem_append_right _ (List.mem_singleton.mpr rfl)
    rw [files_of_lookup_none (hu.files_none hmem htemp)] at hstored
    cases hstored

theorem Writing.info_eq_recordOf {t : FileTree} {w : LocalMultipartWriter D} {dataId metaId : Uuid}
    {bytes : Bytes} (h : Writing t w dataId metaId bytes) (now : ℤ) :
    w.info now = recordOf D now w.bucket w.key w.contentType w.metadata bytes := by
  obtain ⟨hsize, hsha⟩ := h.info_eq now
  have hcell : w.info now = ⟨w.bucket, w.key, w.contentType, w.metadata, (w.info now).sizeBytes,
      (w.info now).sha256Hex, some (w.info now).sha256Hex, now⟩ := rfl
  rw [hcell, hsize, hsha]
  rfl

/-- What `complete` leaves at the data path, however it ends. -/
theorem complete_data {t : FileTree} {w : LocalMultipartWriter D} {dataId metaId : Uuid}
    {bytes : Bytes} (h : Writing t w dataId metaId bytes) (codec : Codec) (now : ℤ) :
    let r := FsM.run now (w.complete codec now) t
    r.2.files w.objectPath = t.files w.objectPath ∨ r.2.files w.objectPath = some bytes := by
  obtain ⟨ne_to, _, _, ne_mo, _, _⟩ := h.paths_ne
  rcases complete_ends h codec now with ⟨_, _, ha⟩ | ⟨_, _, _, hdata, _⟩ | ⟨_, _, _, hdata, _⟩
  · exact Or.inl (ha _ (by simp [Ne.symm ne_to, Ne.symm ne_mo]))
  · exact Or.inr hdata
  · exact Or.inr hdata

/-- How finishing an upload of these bytes under this record can leave the files. -/
def Uploaded (codec : Codec) (w : LocalMultipartWriter D) (bytes : Bytes) (info : ObjectInfo)
    (t : FileTree) (r : Except StorageError ObjectInfo × FileTree) : Prop :=
  Finished codec w bytes info t r ∧
    (r.2.files w.objectPath = t.files w.objectPath ∨ r.2.files w.objectPath = some bytes)

theorem complete_uploaded {t : FileTree} {w : LocalMultipartWriter D} {dataId metaId : Uuid}
    {bytes : Bytes} (h : Writing t w dataId metaId bytes) (codec : Codec) (now : ℤ) :
    Uploaded codec w bytes (w.info now) t (FsM.run now (w.complete codec now) t) :=
  ⟨complete_spec h codec now, complete_data h codec now⟩

/-- The chunk loop leaves the temporary files at most, or finishes an upload of the whole body. -/
theorem streamChunks_uploaded (codec : Codec) (now : ℤ) (l : List (Except StorageError Bytes))
    {t : FileTree} {w : LocalMultipartWriter D} {dataId metaId : Uuid} {bytes : Bytes}
    (h : Writing t w dataId metaId bytes)
    (hfit : (bytes ++ (okChunks l).flatten).length ≤ t.limits.maxFileSize) :
    let r := FsM.run now (streamChunks codec now l w) t
    AgreeOff [w.tempPath, w.metadataTempPath] t r.2 ∨
      firstError l = none ∧ Uploaded codec w (bytes ++ (okChunks l).flatten)
        (recordOf D now w.bucket w.key w.contentType w.metadata (bytes ++ (okChunks l).flatten))
        t r := by
  induction l generalizing t w bytes with
  | nil =>
    right
    simp only [okChunks, List.flatten_nil, List.append_nil, ← h.info_eq_recordOf now]
    exact ⟨rfl, complete_uploaded h codec now⟩
  | cons x l ih =>
    cases x with
    | error e =>
      left
      simp only [streamChunks, Prog.bind_eq_bind, FsM.run_bind]
      exact abort_agreeOff w now t
    | ok chunk =>
      have hfit₁ : bytes.length + chunk.length ≤ t.limits.maxFileSize := by
        simp only [okChunks, List.flatten_cons, List.length_append] at hfit
        omega
      obtain ⟨hr, hl, hw, hf⟩ := writeChunk_spec h chunk now hfit₁
      have hcat : bytes ++ (okChunks (.ok chunk :: l)).flatten =
          bytes ++ chunk ++ (okChunks l).flatten := by
        simp [okChunks]
      have hone : AgreeOff [w.tempPath] t (FsM.run now (w.writeChunk chunk) t).2 :=
        agreeOff_of_update hf
      have hobj : w.objectPath ∉ [w.tempPath] := by
        simpa using Ne.symm h.paths_ne.1
      rw [hcat] at hfit ⊢
      simp only [streamChunks, Prog.bind_eq_bind, FsM.run_bind, hr]
      rcases ih hw (by rw [hl]; exact hfit) with ha | ⟨hno, hfin, hdata⟩
      · exact Or.inl ((hone.mono (by simp)).trans ha)
      · right
        refine ⟨by simpa [firstError] using hno, ?_, ?_⟩
        · exact Finished.of_agreeOff (Ne.symm h.paths_ne.2.1) hone hfin
        · rw [← hone _ hobj]
          exact hdata

/-- A new writer has what it was opened with. -/
theorem createMultipartObject_options (D : Digest) (dataId metaId : Uuid) (bucket key : Str)
    (contentType : Option Str) (metadata : ObjectMetadata) (now : ℤ) (t : FileTree)
    {w : LocalMultipartWriter D}
    (h : (FsM.run now
      (createMultipartObject D dataId metaId bucket key contentType metadata) t).1 = .ok w) :
    w.contentType = contentType ∧ w.metadata = metadata := by
  by_cases hv : ValidName bucket key
  swap
  · obtain ⟨e, he⟩ := objectPathFor_of_not_valid hv
    simp [createMultipartObject, he] at h
  have hd : dataPath bucket key ≠ [] := by simp [dataPath]
  have hs : sidecarPath bucket key ≠ [] := by simp [sidecarPath]
  simp only [createMultipartObject, objectPathFor_of_valid hv, objectMetadataPathFor_of_valid hv,
    Prog.bind_eq_bind, FsM.run_bind] at h
  generalize FsM.run now (createParentDir (dataPath bucket key)) t = r₁ at h
  obtain ⟨r₁ | r₁, t₁⟩ := r₁
  · cases h
  simp only [FsM.run_bind] at h
  generalize FsM.run now (createParentDir (sidecarPath bucket key)) t₁ = r₂ at h
  obtain ⟨r₂ | r₂, t₂⟩ := r₂
  · cases h
  simp only [tempPathFor_eq hd, tempPathFor_eq hs, FsM.run_bind, Fs.run_createFile] at h
  generalize t₂.createFile (tempPath (dataPath bucket key) dataId) now = r₃ at h
  obtain ⟨r₃ | r₃, t₃⟩ := r₃
  · cases h
  · obtain rfl := Except.ok.inj h
    exact ⟨rfl, rfl⟩

/-- `put_object_stream` touches no file, or it ends as an upload can end. -/
theorem putObjectStream_uploaded (D : Digest) (codec : Codec) (now : ℤ) (dataId metaId : Uuid)
    (bucket key : Str) (contentType : Option Str) (metadata : ObjectMetadata)
    (stream : StorageByteStream) (t : FileTree)
    (hfit : (concatBody stream).length ≤ t.limits.maxFileSize) :
    let r := FsM.run now
      (putObjectStream D codec now dataId metaId bucket key contentType metadata stream) t
    r.2.files = t.files ∨ ∃ w : LocalMultipartWriter D, w.bucket = bucket ∧ w.key = key ∧
      Opened w dataId metaId ∧
      (AgreeOff [w.tempPath, w.metadataTempPath] t r.2 ∨
        firstError stream.inner = none ∧ Uploaded codec w (concatBody stream)
          (recordOf D now bucket key contentType metadata (concatBody stream)) t r) := by
  intro r
  simp only [r, putObjectStream, Prog.bind_eq_bind, FsM.run_bind]
  obtain ⟨hlimits, hcreate⟩ :=
    createMultipartObject_spec D dataId metaId bucket key contentType metadata now t
  have hoptions := fun w => createMultipartObject_options D dataId metaId bucket key contentType
    metadata now t (w := w)
  generalize FsM.run now
    (createMultipartObject D dataId metaId bucket key contentType metadata) t = c
    at hlimits hcreate hoptions ⊢
  obtain ⟨res, t₁⟩ := c
  rcases hcreate with ⟨e, rfl, hf⟩ | ⟨w, rfl, rfl, rfl, hw, hf⟩
  · exact Or.inl hf
  · obtain ⟨rfl, rfl⟩ := hoptions w rfl
    right
    refine ⟨w, rfl, rfl, hw.opened, ?_⟩
    have hone : AgreeOff [w.tempPath] t t₁ := agreeOff_of_update hf
    have hobj : w.objectPath ∉ [w.tempPath] := by
      simpa using Ne.symm hw.paths_ne.1
    rcases streamChunks_uploaded codec now stream.inner hw
      (by rw [hlimits]; simpa [concatBody] using hfit) with ha | ⟨hno, hfin, hdata⟩
    · exact Or.inl ((hone.mono (by simp)).trans ha)
    · right
      refine ⟨hno, ?_, ?_⟩
      · exact Finished.of_agreeOff (Ne.symm hw.paths_ne.2.1) hone hfin
      · rw [← hone _ hobj]
        exact hdata

/-- The data of one object is not where the sidecar of a second is whose own data is where the
sidecar of the first is: they would each be deeper than the other. -/
theorem dataPath_ne_of_reserved {bucket' key' : Str}
    (h : sidecarPath bucket' key' = dataPath bucket key) :
    dataPath bucket' key' ≠ sidecarPath bucket key := by
  intro he
  have h₁ := congrArg List.length h
  have h₂ := congrArg List.length he
  rw [length_sidecarPath, length_dataPath] at h₁
  rw [length_sidecarPath, length_dataPath] at h₂
  omega

/-- The two paths of an object that avoids the open writers are none of their temporary files,
and no object whose sidecar is there is named by them either. -/
theorem AvoidsOpen.object (h : AvoidsOpen s (dataPath bucket key)) {q : Path}
    (hq : q ∈ [dataPath bucket key, sidecarPath bucket key]) :
    (∀ u ∈ openIds s, ∀ p, q ≠ tempPath p u) ∧
      ∀ b k, sidecarPath b k = q → AvoidsOpen s (dataPath b k) := by
  simp only [List.mem_cons, List.not_mem_nil, or_false] at hq
  rcases hq with rfl | rfl
  · refine ⟨fun u hu p => h.ne_tempPath hu p, fun b k he => ?_⟩
    rw [← he] at h
    exact h.of_sidecar
  · refine ⟨fun u _ p => sidecarPath_ne_tempPath p u, fun b k he => ?_⟩
    obtain ⟨rfl, rfl⟩ := sidecarPath_inj he
    exact h

section Uploads

variable {w : LocalMultipartWriter D} {bytes : Bytes}
  {r : Except StorageError ObjectInfo × FileTree}

/-- Off the two files of its object an upload changes temporary files only. -/
theorem Uploaded.agree (hw : Opened w dataId metaId) (h : Uploaded codec w bytes info s.tree r) :
    ∀ q, q ∉ [dataPath w.bucket w.key, sidecarPath w.bucket w.key] →
      (∀ p, ∀ u ∈ [dataId, metaId], q ≠ tempPath p u) → r.2.files q = s.tree.files q := by
  intro q hq hne
  have ha : AgreeOff [w.tempPath, w.metadataTempPath, w.objectPath, w.metadataPath] s.tree r.2 := by
    rcases h.1 with ⟨_, _, ha⟩ | ⟨_, _, _, ha⟩ | ⟨_, _, _, _, _, ha⟩
    · exact ha.mono (by simp)
    · exact ha.mono (by simp)
    · exact ha
  apply ha
  simp only [List.mem_cons, List.not_mem_nil, or_false, not_or] at hq ⊢
  rw [hw.tempPath_eq, hw.metadataTempPath_eq, hw.objectPath_eq, hw.metadataPath_eq]
  exact ⟨hne _ dataId (by simp), hne _ metaId (by simp), hq.1, hq.2⟩

/-- An object whose sidecar is the data file of the upload still has its data. -/
theorem Uploaded.described_reserved (hinv : StoreInv codec s) (hw : Opened w dataId metaId)
    (hown : ∀ u ∈ [dataId, metaId], Unmentioned u w.bucket w.key)
    (hfits : SidecarFits D codec s.tree (dataPath w.bucket w.key) (some bytes))
    (h : Uploaded codec w bytes info s.tree r) {b k : Str} {i : ObjectInfo}
    (hrec : Recorded codec r.2 b k i) (hres : sidecarPath b k = dataPath w.bucket w.key) :
    HasData D r.2 b k i := by
  obtain ⟨hv, content, hc, hdec⟩ := hrec
  have hold : HasData D s.tree b k i := by
    have hdata := h.2
    rw [hw.objectPath_eq, ← hres, hc] at hdata
    rcases hdata with hsame | hnew
    · exact hinv.described b k i ⟨hv, content, hsame.symm, hdec⟩
    · exact hfits b k i content hv hres.symm hnew.symm hdec
  obtain ⟨data, hd, hdesc⟩ := hold
  refine ⟨data, ?_, hdesc⟩
  rw [← hd]
  apply h.agree hw
  · have hne : dataPath b k ≠ dataPath w.bucket w.key := by
      rw [← hres]
      exact Ne.symm sidecarPath_ne_dataPath
    simp [hne, dataPath_ne_of_reserved hres]
  · intro p u hu
    refine Unmentioned.dataPath_ne (unmentioned_of_sidecar fun c hmem => ?_) p
    rw [hres] at hmem
    exact hown u hu c hmem

/-- What an upload that got as far as publishing leaves. -/
theorem Uploaded.described (hinv : StoreInv codec s)
    (hcodec : ∀ info bytes, codec.toVec info = .ok bytes → codec.fromSlice bytes = .ok info)
    (hw : Opened w dataId metaId) (hbucket : info.bucket = w.bucket) (hkey : info.key = w.key)
    (hdesc : Describes D info bytes)
    (hown : ∀ u ∈ [dataId, metaId], Unmentioned u w.bucket w.key)
    (hfits : UploadSpares D codec s.tree bytes info) (h : Uploaded codec w bytes info s.tree r)
    (hlate : ¬ AgreeOff [w.tempPath, w.metadataTempPath] s.tree r.2) (b k : Str) (i : ObjectInfo)
    (hrec : Recorded codec r.2 b k i)
    (hpath : sidecarPath b k ∈ [dataPath w.bucket w.key, sidecarPath w.bucket w.key] ∨
      dataPath b k ∈ [dataPath w.bucket w.key, sidecarPath w.bucket w.key]) :
    HasData D r.2 b k i := by
  obtain ⟨hsidecar, hdata⟩ := hfits
  rw [hbucket, hkey] at hsidecar hdata
  by_cases hres : sidecarPath b k = dataPath w.bucket w.key
  · exact h.described_reserved hinv hw hown hsidecar hrec hres
  obtain ⟨hv, content, hc, hdec⟩ := hrec
  rcases h.1 with ⟨_, _, ha⟩ | ⟨_, _, hnone, ha⟩ | ⟨encoded, _, htoVec, hd, hs, _⟩
  · exact absurd ha hlate
  · -- There is no sidecar of this object, before or after.
    have hsame : r.2.files (sidecarPath w.bucket w.key) = none := by
      rw [← hw.metadataPath_eq, ha _ ?_, hnone]
      obtain ⟨_, ne_tm, _, _, ne_mm, ne_om⟩ := hw.paths_ne
      simp [Ne.symm ne_tm, Ne.symm ne_mm, Ne.symm ne_om]
    have hother : sidecarPath b k ≠ sidecarPath w.bucket w.key := by
      intro he
      rw [he, hsame] at hc
      cases hc
    have hold : Recorded codec s.tree b k i := by
      refine ⟨hv, content, ?_, hdec⟩
      rw [← hc]
      symm
      exact h.agree hw _ (by simp [hres, hother]) fun p u _ => sidecarPath_ne_tempPath p u
    obtain ⟨data, hold, _⟩ := hinv.described b k i hold
    have hne : dataPath b k ≠ dataPath w.bucket w.key := by
      intro he
      obtain ⟨rfl, rfl⟩ := dataPath_inj he
      exact hother rfl
    simp only [List.mem_cons, List.not_mem_nil, or_false, hres, hother, hne, false_or] at hpath
    rw [hpath, ← hw.metadataPath_eq, hnone] at hold
    cases hold
  · rw [hw.objectPath_eq] at hd
    rw [hw.metadataPath_eq] at hs
    by_cases hself : sidecarPath b k = sidecarPath w.bucket w.key
    · obtain ⟨rfl, rfl⟩ := sidecarPath_inj hself
      rw [hs] at hc
      obtain rfl := Option.some.inj hc
      rw [hcodec info encoded htoVec] at hdec
      obtain rfl := Except.ok.inj hdec
      exact ⟨bytes, hd, hdesc⟩
    · have hold : Recorded codec s.tree b k i := by
        refine ⟨hv, content, ?_, hdec⟩
        rw [← hc]
        symm
        exact h.agree hw _ (by simp [hres, hself]) fun p u _ => sidecarPath_ne_tempPath p u
      have hne : dataPath b k ≠ dataPath w.bucket w.key := by
        intro he
        obtain ⟨rfl, rfl⟩ := dataPath_inj he
        exact hself rfl
      simp only [List.mem_cons, List.not_mem_nil, or_false, hres, hself, hne, false_or] at hpath
      obtain ⟨data, hsome, hdesc'⟩ := hdata encoded htoVec b k i hpath.symm hold
      refine ⟨data, ?_, hdesc'⟩
      rw [hpath, hs, hsome]

theorem Uploaded.effect (hinv : StoreInv codec s)
    (hcodec : ∀ info bytes, codec.toVec info = .ok bytes → codec.fromSlice bytes = .ok info)
    (hw : Opened w dataId metaId) (hbucket : info.bucket = w.bucket) (hkey : info.key = w.key)
    (hdesc : Describes D info bytes) (havoids : AvoidsOpen s (dataPath w.bucket w.key))
    (hown : ∀ u ∈ [dataId, metaId], Unmentioned u w.bucket w.key)
    (hunread : ∀ u ∈ [dataId, metaId], ∀ bucket key info,
      Recorded codec s.tree bucket key info → Unmentioned u bucket key)
    (hfits : UploadSpares D codec s.tree bytes info) (h : Uploaded codec w bytes info s.tree r)
    (hlate : ¬ AgreeOff [w.tempPath, w.metadataTempPath] s.tree r.2) :
    Effect codec s r.2 [dataPath w.bucket w.key, sidecarPath w.bucket w.key] [dataId, metaId] where
  agree := h.agree hw
  temps := fun _ hq => (havoids.object hq).1
  sidecars := fun b k hq => (havoids.object hq).2 b k rfl
  unread := hunread
  described := h.described hinv hcodec hw hbucket hkey hdesc hown hfits hlate

end Uploads

/-! ### Object operations -/

/-- A new identifier occurs in no object that has a record. -/
theorem StoreInv.unread_fresh (hinv : StoreInv codec s) {u : Uuid} (hu : FreshUuid s.tree u)
    (hrec : Recorded codec s.tree bucket key info) : Unmentioned u bucket key := by
  obtain ⟨bytes, hb, _⟩ := hinv.described bucket key info hrec
  exact unmentioned_of_fresh hu hb

/-- Nor does the identifier of an open writer. -/
theorem StoreInv.unread_open (hinv : StoreInv codec s) {o : OpenWriter D} (ho : o ∈ s.writers) :
    ∀ u ∈ [o.dataId, o.metaId], ∀ bucket key info, Recorded codec s.tree bucket key info →
      Unmentioned u bucket key := by
  intro u hu bucket key info hrec
  refine hinv.hidden bucket key info hrec u (mem_openIds.mpr ⟨o, ho, ?_⟩)
  simpa using hu

theorem NewIds.not_mem (h : NewIds s dataId metaId bucket key) {o : OpenWriter D}
    (ho : o ∈ s.writers) : o.dataId ∉ [dataId, metaId] ∧ o.metaId ∉ [dataId, metaId] :=
  ⟨fun hm => (h.2 _ hm).1 (mem_openIds.mpr ⟨o, ho, Or.inl rfl⟩),
    fun hm => (h.2 _ hm).1 (mem_openIds.mpr ⟨o, ho, Or.inr rfl⟩)⟩

/-- An effect under the identifiers of one writer, after which that writer is closed. -/
theorem Effect.inv_erase (hinv : StoreInv codec s) {i : ℕ} {o : OpenWriter D}
    (hi : s.writers[i]? = some o) {s' : ObjectState D}
    (h : Effect codec s s'.tree written [o.dataId, o.metaId])
    (hwriters : s'.writers = s.writers.eraseIdx i) : StoreInv codec s' := by
  refine h.inv hinv ?_ ?_ ?_
  · intro o' ho'
    rw [hwriters] at ho'
    obtain ⟨hm, hid⟩ := of_mem_eraseIdx hinv.apart hi ho'
    exact h.keeps_writing hinv hm hid
  · rw [hwriters]
    exact hinv.apart.sublist ((List.eraseIdx_sublist ..).map _)
  · intro o' ho'
    rw [hwriters] at ho'
    exact ⟨o', List.mem_of_mem_eraseIdx ho', rfl, rfl⟩

theorem StoreInv.chunk (h : StoreInv codec s) (now : ℤ) {i : ℕ} {bytes : Bytes}
    (hfit : Undisturbed s (.object (.writeChunk i bytes))) :
    StoreInv codec (s.step codec now (.writeChunk i bytes)) := by
  cases hi : s.writers[i]? with
  | none => simpa only [ObjectState.step, hi] using h
  | some o =>
    have ho : o ∈ s.writers := List.mem_of_getElem? hi
    have hw := h.writing o ho
    obtain ⟨hr, _, hw', hfiles⟩ := writeChunk_spec hw bytes now (hfit o hi)
    have heffect : Effect codec s (FsM.run now (o.writer.writeChunk bytes) s.tree).2 []
        [o.dataId, o.metaId] := by
      refine effect_temps (h.unread_open ho) fun q hq => ?_
      rw [hfiles, Function.update_of_ne (hw.tempPath_eq ▸ hq _ o.dataId (by simp))]
    have hstep : Effect codec s (s.step codec now (.writeChunk i bytes)).tree []
        [o.dataId, o.metaId] := by
      simpa only [ObjectState.step, hi] using heffect
    refine hstep.inv h ?_ ?_ ?_
    · simp only [ObjectState.step, hi, hr]
      intro o' ho'
      rcases of_mem_set h.apart hi ho' with rfl | ⟨hm, hid⟩
      · exact hw'
      · exact heffect.keeps_writing h hm hid
    · simp only [ObjectState.step, hi, hr]
      exact apart_set h.apart hi rfl
    · simp only [ObjectState.step, hi, hr]
      intro o' ho'
      rcases List.mem_or_eq_of_mem_set ho' with ho' | rfl
      · exact ⟨o', ho', rfl, rfl⟩
      · exact ⟨o, ho, rfl, rfl⟩

theorem StoreInv.abort (h : StoreInv codec s) (now : ℤ) (i : ℕ) :
    StoreInv codec (s.step codec now (.abort i)) := by
  cases hi : s.writers[i]? with
  | none => simpa only [ObjectState.step, hi] using h
  | some o =>
    have ho : o ∈ s.writers := List.mem_of_getElem? hi
    have hw := h.writing o ho
    have hagree := abort_agreeOff o.writer now s.tree
    rw [hw.tempPath_eq, hw.metadataTempPath_eq] at hagree
    have heffect : Effect codec s (FsM.run now o.writer.abort s.tree).2 [] [o.dataId, o.metaId] :=
      effect_temps (h.unread_open ho) fun q hq => hagree q (by
        simp [hq _ o.dataId (by simp), hq _ o.metaId (by simp)])
    simp only [ObjectState.step, hi]
    exact Effect.inv_erase h hi heffect rfl

/-- How an upload leaves the files, be it one that got as far as publishing or not. -/
theorem exists_upload_effect {w : LocalMultipartWriter D} {bytes : Bytes}
    {r : Except StorageError ObjectInfo × FileTree} (hinv : StoreInv codec s)
    (hcodec : ∀ info bytes, codec.toVec info = .ok bytes → codec.fromSlice bytes = .ok info)
    (hw : Opened w dataId metaId) (hbucket : info.bucket = w.bucket) (hkey : info.key = w.key)
    (hdesc : Describes D info bytes) (havoids : AvoidsOpen s (dataPath w.bucket w.key))
    (hown : ∀ u ∈ [dataId, metaId], Unmentioned u w.bucket w.key)
    (hunread : ∀ u ∈ [dataId, metaId], ∀ bucket key info,
      Recorded codec s.tree bucket key info → Unmentioned u bucket key)
    (h : AgreeOff [w.tempPath, w.metadataTempPath] s.tree r.2 ∨
      UploadSpares D codec s.tree bytes info ∧ Uploaded codec w bytes info s.tree r) :
    ∃ written, Effect codec s r.2 written [dataId, metaId] := by
  by_cases hlate : AgreeOff [w.tempPath, w.metadataTempPath] s.tree r.2
  · refine ⟨[], effect_temps hunread fun q hq => hlate q ?_⟩
    rw [hw.tempPath_eq, hw.metadataTempPath_eq]
    simp [hq _ dataId (by simp), hq _ metaId (by simp)]
  · obtain ⟨hfits, hup⟩ := h.resolve_left hlate
    exact ⟨_, hup.effect hinv hcodec hw hbucket hkey hdesc havoids hown hunread hfits hlate⟩

theorem StoreInv.complete (h : StoreInv codec s)
    (hcodec : ∀ info bytes, codec.toVec info = .ok bytes → codec.fromSlice bytes = .ok info)
    (now : ℤ) {i : ℕ} (hk : KeepsDescribed codec now s (.object (.complete i))) :
    StoreInv codec (s.step codec now (.complete i)) := by
  cases hi : s.writers[i]? with
  | none => simpa only [ObjectState.step, hi] using h
  | some o =>
    have ho : o ∈ s.writers := List.mem_of_getElem? hi
    have hw := h.writing o ho
    have hown : ∀ u ∈ [o.dataId, o.metaId], Unmentioned u o.writer.bucket o.writer.key :=
      fun u hu => h.clean o ho u (mem_openIds.mpr ⟨o, ho, by simpa using hu⟩)
    obtain ⟨written, heffect⟩ := exists_upload_effect h hcodec hw.opened rfl rfl (hw.info_eq now)
      (h.clean o ho) hown (h.unread_open ho) (Or.inr ⟨hk o hi, complete_uploaded hw codec now⟩)
    simp only [ObjectState.step, hi]
    exact Effect.inv_erase h hi heffect rfl

theorem StoreInv.put (h : StoreInv codec s)
    (hcodec : ∀ info bytes, codec.toVec info = .ok bytes → codec.fromSlice bytes = .ok info)
    (now : ℤ) {contentType : Option Str} {metadata : ObjectMetadata} {stream : StorageByteStream}
    (hu : Undisturbed s
      (.object (.putObjectStream dataId metaId bucket key contentType metadata stream)))
    (hk : KeepsDescribed codec now s
      (.object (.putObjectStream dataId metaId bucket key contentType metadata stream))) :
    StoreInv codec (s.step codec now
      (.putObjectStream dataId metaId bucket key contentType metadata stream)) := by
  obtain ⟨hnew, havoids, hfit⟩ := hu
  have hids : ∀ o ∈ s.writers, o.dataId ∉ [dataId, metaId] := fun o ho => (hnew.not_mem ho).1
  rcases putObjectStream_uploaded D codec now dataId metaId bucket key contentType metadata stream
    s.tree hfit with hf | ⟨w, hb, hk', hw, hup⟩
  · exact Effect.inv_same h (effect_of_files hf) rfl (by simp)
  · have hor := hup.imp_right fun hdone => And.intro (hk hdone.1) hdone.2
    rw [← hb, ← hk'] at havoids
    obtain ⟨written, heffect⟩ := exists_upload_effect h hcodec hw hb.symm hk'.symm ⟨rfl, rfl⟩
      havoids (fun u hu => by rw [hb, hk']; exact (hnew.2 u hu).2.2)
      (fun u hu _ _ _ hrec => h.unread_fresh (hnew.2 u hu).2.1 hrec) hor
    exact Effect.inv_same h heffect rfl hids

/-- One more writer, with new identifiers. -/
theorem StoreInv.open {s' : ObjectState D} (h : StoreInv codec s') {o : OpenWriter D}
    (hw : Writing s'.tree o.writer o.dataId o.metaId o.written)
    (hapart : ∀ o' ∈ s'.writers, Apart o.ids o'.ids)
    (havoids : AvoidsOpen s' (dataPath o.writer.bucket o.writer.key))
    (hnew : ∀ u ∈ [o.dataId, o.metaId], Unmentioned u o.writer.bucket o.writer.key ∧
      (∀ o' ∈ s'.writers, Unmentioned u o'.writer.bucket o'.writer.key) ∧
      ∀ bucket key info, Recorded codec s'.tree bucket key info → Unmentioned u bucket key) :
    StoreInv codec { s' with writers := o :: s'.writers } := by
  have hmem : ∀ u ∈ openIds { s' with writers := o :: s'.writers },
      u ∈ [o.dataId, o.metaId] ∨ u ∈ openIds s' := by
    intro u hu
    simpa [openIds, or_assoc] using hu
  refine ⟨?_, ?_, ?_, ?_, h.described⟩
  · intro o' ho'
    rcases List.mem_cons.mp ho' with rfl | ho'
    · exact hw
    · exact h.writing o' ho'
  · refine List.pairwise_cons.mpr ⟨fun a hm => ?_, h.apart⟩
    obtain ⟨o', ho', rfl⟩ := List.mem_map.mp hm
    exact hapart o' ho'
  · intro o' ho' u hu
    rcases List.mem_cons.mp ho' with rfl | ho'
    · rcases hmem u hu with hn | hold
      · exact (hnew u hn).1
      · exact havoids u hold
    · rcases hmem u hu with hn | hold
      · exact (hnew u hn).2.1 o' ho'
      · exact h.clean o' ho' u hold
  · intro b k i hrec u hu
    rcases hmem u hu with hn | hold
    · exact (hnew u hn).2.2 b k i hrec
    · exact h.hidden b k i hrec u hold

theorem StoreInv.create (h : StoreInv codec s) (now : ℤ) {contentType : Option Str}
    {metadata : ObjectMetadata} (hu : Undisturbed s
      (.object (.createMultipartObject dataId metaId bucket key contentType metadata))) :
    StoreInv codec (s.step codec now
      (.createMultipartObject dataId metaId bucket key contentType metadata)) := by
  obtain ⟨hnew, havoids⟩ := hu
  have hunread : ∀ u ∈ [dataId, metaId], ∀ bucket key info,
      Recorded codec s.tree bucket key info → Unmentioned u bucket key :=
    fun u hu _ _ _ hrec => h.unread_fresh (hnew.2 u hu).2.1 hrec
  have hids : ∀ o ∈ s.writers, o.dataId ∉ [dataId, metaId] := fun o ho => (hnew.not_mem ho).1
  obtain ⟨_, ⟨e, he, hsame⟩ | ⟨w, hok, hb, hk, hw, hfiles⟩⟩ :=
    createMultipartObject_spec D dataId metaId bucket key contentType metadata now s.tree
  · simp only [ObjectState.step, he]
    exact Effect.inv_same h (effect_of_files hsame) rfl (by simp)
  · have heffect : Effect codec s (FsM.run now
        (Local.createMultipartObject D dataId metaId bucket key contentType metadata) s.tree).2 []
        [dataId, metaId] := by
      refine effect_temps hunread fun q hq => ?_
      rw [hfiles, Function.update_of_ne (hw.tempPath_eq ▸ hq _ dataId (by simp))]
    let s' : ObjectState D := { s with
      tree := (FsM.run now
        (Local.createMultipartObject D dataId metaId bucket key contentType metadata) s.tree).2
      used := dataId :: metaId :: s.used
      names := (bucket, key) :: s.names }
    have hinv : StoreInv codec s' := Effect.inv_same h heffect rfl hids
    simp only [ObjectState.step, hok]
    refine hinv.open hw ?_ ?_ ?_
    · intro o ho
      obtain ⟨h1, h2⟩ := hnew.not_mem ho
      simp only [List.mem_cons, List.not_mem_nil, or_false, not_or] at h1 h2
      exact ⟨Ne.symm h1.1, Ne.symm h2.1, Ne.symm h1.2, Ne.symm h2.2⟩
    · rw [hb, hk]
      exact havoids
    · intro u hu
      refine ⟨by rw [hb, hk]; exact (hnew.2 u hu).2.2, fun o ho => ?_, fun b k i hrec => ?_⟩
      · exact unmentioned_of_writing (hnew.2 u hu).2.1 (h.writing o ho)
      · rcases heffect.recorded hrec with hold | hm
        · exact hunread u hu b k i hold
        · cases hm

/-- After `delete_object` no file is at the data path, however it ends. -/
theorem deleteObject_data (hv : ValidName bucket key) (now : ℤ) (t : FileTree) :
    (FsM.run now (deleteObject bucket key) t).2.files (dataPath bucket key) = none := by
  have hne : dataPath bucket key ≠ sidecarPath bucket key := Ne.symm sidecarPath_ne_dataPath
  simp only [deleteObject, objectPathFor_of_valid hv, objectMetadataPathFor_of_valid hv,
    Prog.bind_eq_bind, FsM.run_bind]
  obtain ⟨hf₁, _, _⟩ := removeIfPresent_spec (dataPath bucket key) now t
  generalize FsM.run now (removeIfPresent (dataPath bucket key)) t = r₁ at hf₁ ⊢
  obtain ⟨e | _, t₁⟩ := r₁
  · show t₁.files (dataPath bucket key) = none
    rw [hf₁, Function.update_self]
  · obtain ⟨hf₂, _, _⟩ := removeIfPresent_spec (sidecarPath bucket key) now t₁
    show (FsM.run now (removeIfPresent (sidecarPath bucket key)) t₁).2.files _ = none
    rw [hf₂, Function.update_of_ne hne, hf₁, Function.update_self]

theorem StoreInv.delete (h : StoreInv codec s) (now : ℤ)
    (hu : Undisturbed s (.object (.deleteObject bucket key)))
    (hk : KeepsDescribed codec now s (.object (.deleteObject bucket key))) :
    StoreInv codec (s.step codec now (.deleteObject bucket key)) := by
  by_cases hv : ValidName bucket key
  swap
  · obtain ⟨e, he⟩ := deleteObject_of_not_valid hv now s.tree
    refine Effect.inv_same h (effect_of_files ?_) rfl (by simp)
    simp only [ObjectState.step, he]
  obtain ⟨hagree, hok, herr⟩ := deleteObject_spec hv now s.tree
  have hdata := deleteObject_data hv now s.tree
  have havoids : AvoidsOpen s (dataPath bucket key) := hu
  have hnone : DataFits D codec s.tree (sidecarPath bucket key) none := hk
  have heffect : Effect codec s (FsM.run now (Local.deleteObject bucket key) s.tree).2
      [dataPath bucket key, sidecarPath bucket key] [] := {
    agree := fun q hq _ => hagree q hq
    temps := fun _ hq => (havoids.object hq).1
    sidecars := fun b k hq => (havoids.object hq).2 b k rfl
    unread := by simp
    described := by
      intro b k i hrec hpath
      exfalso
      obtain ⟨hv', content, hc, hdec⟩ := hrec
      have hres : sidecarPath b k ≠ dataPath bucket key := by
        intro he
        rw [he, hdata] at hc
        cases hc
      have hother : sidecarPath b k ≠ sidecarPath bucket key := by
        intro he
        obtain ⟨rfl, rfl⟩ := sidecarPath_inj he
        cases hr : (FsM.run now (Local.deleteObject b k) s.tree).1 with
        | ok _ =>
          rw [hok hr] at hc
          cases hc
        | error e =>
          -- Removing the files of an object that has both cannot fail.
          obtain ⟨hmissing, hsame⟩ := herr e hr
          rw [hsame] at hc
          obtain ⟨bytes, hb, _⟩ := h.described b k i ⟨hv', content, hc, hdec⟩
          rcases hmissing with hm | hm
          · rw [hm] at hb
            cases hb
          · rw [hm] at hc
            cases hc
      have hne : dataPath b k ≠ dataPath bucket key := by
        intro he
        obtain ⟨rfl, rfl⟩ := dataPath_inj he
        exact hother rfl
      simp only [List.mem_cons, List.not_mem_nil, or_false, hres, hother, hne, false_or] at hpath
      rw [hagree _ (by simp [hres, hother])] at hc
      obtain ⟨bytes, hsome, _⟩ := hnone b k i hpath.symm ⟨hv', content, hc, hdec⟩
      cases hsome }
  exact Effect.inv_same h heffect rfl (by simp)

end Effects

theorem storeInv_start (codec : Codec) (limits : Limits) :
    StoreInv codec (ObjectState.start D limits) where
  writing := by simp [ObjectState.start]
  apart := List.Pairwise.nil
  clean := by simp [ObjectState.start]
  hidden := by simp [ObjectState.start, Recorded]
  described := by simp [ObjectState.start, Recorded]

theorem StoreInv.step {codec : Codec}
    (hcodec : ∀ info bytes, codec.toVec info = .ok bytes → codec.fromSlice bytes = .ok info)
    {s : ObjectState D} (h : StoreInv codec s) (now : ℤ) {op : StoreOp} (hu : Undisturbed s op)
    (hk : KeepsDescribed codec now s op) : StoreInv codec (s.stepStore codec now op) := by
  cases op with
  | blob op uuid => exact h.blob now hu hk
  | object op =>
    cases op with
    | putObjectStream => exact h.put hcodec now hu hk
    | createMultipartObject => exact h.create now hu
    | writeChunk => exact h.chunk now hu
    | complete => exact h.complete hcodec now hk
    | abort i => exact h.abort now i
    | deleteObject => exact h.delete now hu hk

theorem StoreRun.inv {codec : Codec} {limits : Limits}
    (hcodec : ∀ info bytes, codec.toVec info = .ok bytes → codec.fromSlice bytes = .ok info)
    {s : ObjectState D} (h : StoreRun codec limits (KeepsDescribed codec) s) :
    StoreInv codec s := by
  induction h with
  | start => exact storeInv_start codec limits
  | step now op _ hu hk ih => exact ih.step hcodec now hu hk

/-- In every run whose operations keep to the condition, a record always describes the data,
and a range read serves the part of it that it announces. -/
theorem sidecars_describe_data (D : Digest) (codec : Codec)
    (hcodec : ∀ info bytes, codec.toVec info = .ok bytes → codec.fromSlice bytes = .ok info)
    (limits : Limits) (s : ObjectState D) (h : StoreRun codec limits (KeepsDescribed codec) s) :
    SidecarsDescribe D codec s.tree ∧ RangesServed D codec s.tree := by
  have hdesc : SidecarsDescribe D codec s.tree := sidecarsDescribe_iff.mpr (h.inv hcodec).described
  exact ⟨hdesc, hdesc.rangesServed⟩

/-- Outside the internal directory no path is a sidecar's. -/
theorem sidecarFits_of_head {D : Digest} {codec : Codec} {t : FileTree} {path : Path}
    (h : path.head? ≠ some internalStorageDir) (content : Option Bytes) :
    SidecarFits D codec t path content := by
  intro bucket key info bytes _ hpath
  rw [hpath] at h
  exact absurd rfl h

/-- A blob that is put at this key after the object of key `k`. -/
def sampleBlob (key : Str) : StoreOp :=
  .blob (.put key ⟨[.ok [3]], none⟩ ⟨none⟩) (sampleUuid 3)

theorem storeRun_samplePut {condition : ℤ → ObjectState Digest.sha256 → StoreOp → Prop}
    (h : condition 0 (ObjectState.start Digest.sha256 Limits.widest) (.object samplePut)) :
    StoreRun sampleCodec Limits.widest condition afterSamplePut := by
  refine StoreRun.step 0 (.object samplePut) .start ?_ h
  exact ⟨by decide +kernel, by decide +kernel, by decide +kernel⟩

/-- An object, and a blob at another key of its bucket. -/
theorem sidecars_describe_data_put_blob :
    SidecarsDescribe Digest.sha256 sampleCodec
        (afterSamplePut.stepStore sampleCodec 1 (sampleBlob "b/j".toList)).tree ∧
      RangesServed Digest.sha256 sampleCodec
        (afterSamplePut.stepStore sampleCodec 1 (sampleBlob "b/j".toList)).tree := by
  have hput : KeepsDescribed sampleCodec 0 (ObjectState.start Digest.sha256 Limits.widest)
      (.object samplePut) := by
    refine fun _ => ⟨sidecarFits_of_head (by decide) _, fun encoded _ bucket key info _ hrec => ?_⟩
    obtain ⟨_, bytes, hb, _⟩ := hrec
    cases (files_empty Limits.widest _).symm.trans hb
  have hblob : KeepsDescribed sampleCodec 1 afterSamplePut (sampleBlob "b/j".toList) := by
    intro path content hwrites
    have hpath : path = dataPath "b".toList "j".toList := hwrites.path_eq.trans (by decide)
    subst hpath
    refine ⟨fun bucket key info he hrec => ?_, sidecarFits_of_head (by decide) _⟩
    obtain ⟨hb, hk⟩ := dataPath_inj he
    subst hb hk
    obtain ⟨_, bytes, hbytes, _⟩ := hrec
    have hnone : afterSamplePut.tree.files (sidecarPath "b".toList "j".toList) = none := by
      decide +kernel
    cases hnone.symm.trans hbytes
  refine sidecars_describe_data _ _ sampleCodec_roundtrip Limits.widest _
    ((storeRun_samplePut hput).step 1 (sampleBlob "b/j".toList) ?_ hblob)
  exact ⟨by decide +kernel, by decide +kernel⟩

/-- A blob that is put over the data of an object contradicts the object's record. -/
theorem sidecar_contradicts_data : ∃ s : ObjectState Digest.sha256,
    StoreRun sampleCodec Limits.widest (fun _ _ _ => True) s ∧
      ¬ SidecarsDescribe Digest.sha256 sampleCodec s.tree := by
  refine ⟨_, (storeRun_samplePut trivial).step 1 (sampleBlob "b/k".toList)
    ⟨by decide +kernel, by decide +kernel⟩ trivial, fun h => ?_⟩
  obtain ⟨bytes, hdata, hsize, _⟩ := h 2 "b".toList "k".toList sampleInfo (by decide +kernel)
  have hnew : (afterSamplePut.stepStore sampleCodec 1 (sampleBlob "b/k".toList)).tree.files
      (dataPath "b".toList "k".toList) = some [3] := by decide +kernel
  obtain rfl := Option.some.inj (hnew.symm.trans hdata)
  exact absurd hsize (by decide)

end GraphqlOrmStorage.Local
