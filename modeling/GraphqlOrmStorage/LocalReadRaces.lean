import GraphqlOrmStorage.LocalBlobRaces

/-!
# Reads that race with writers

`get_blob` opens the file of a key and then asks for the metadata of the path;
`get_object_range` reads the sidecar and then opens the data. Each of the two looks at
the path twice, and a writer may publish between them. What was opened is not changed by
writers, which publish by renaming. The reads are right in every interleaving in which no
writer publishes, between the two steps, something that the first of them does not
describe, and in which a sidecar is read only while it describes the data.
-/
namespace GraphqlOrmStorage.Local

open Text Program Program.Prog FileTree

/-! ### Reading a blob -/

/-- How far `get_blob` has come: it has opened a file with this content, and then asked for
the length of what is at the path. -/
inductive BlobReadStage where
  | start
  | opened (content : Bytes)
  | closed (content : Bytes) (size : ℕ)
  | ended

namespace BlobReadStage

def advance (q : BlobReadStage) : (c : FsCall) → FsCall.Reply c → BlobReadStage
  | .openFile _, .ok (.file b _) => .opened b
  | .openFile _, _ => .ended
  | .metadata _, .ok node => match q with
    | .opened b => .closed b (nodeLen node)
    | q => q
  | .metadata _, .error _ => .ended
  | _, _ => q

def Issues (path : Path) (q : BlobReadStage) (c : FsCall) : Prop :=
  match q with
  | .start => c = .openFile path
  | .opened _ | .ended => c = .metadata path
  | .closed _ _ => False

end BlobReadStage

def blobReadDiscipline (path : Path) : Discipline Fs BlobReadStage where
  allowed := BlobReadStage.Issues path
  next := BlobReadStage.advance

/-- What a successful read has: the bytes that were opened, and the length found later. -/
def BlobRead (q : BlobReadStage) (r : Except StorageError BlobBody) : Prop :=
  ∀ body m bytes, r = .ok body → body.metadata = some m →
    collectStorageStream body.body = .ok bytes →
      ∃ size, q = .closed bytes size ∧ m.sizeBytes = some size

theorem collect_readerStream {path : Path} {node : Node} {bytes : Bytes}
    (h : collectStorageStream ⟨readerStream path node, none⟩ = .ok bytes) :
    ∃ m, node = .file bytes m := by
  cases node with
  | dir => simp [collectStorageStream, readerStream, collectChunks] at h
  | file b m =>
    simp only [collectStorageStream, readerStream, collectChunks_map_ok, flatten_readChunks,
      List.nil_append, Option.getD_none, isizeMax] at h
    exact ⟨m, by simpa using h⟩

theorem headBlob_follows {key : Str} (hv : ValidKey key) {q : BlobReadStage}
    (hq : (blobReadDiscipline (key.splitOn '/')).allowed q (.metadata (key.splitOn '/'))) :
    Follows (blobReadDiscipline (key.splitOn '/'))
      (fun q' r => ∀ m, r = .ok (some m) → ∃ node, m.sizeBytes = some (nodeLen node) ∧
        q' = q.advance (.metadata (key.splitOn '/')) (.ok node)) q (headBlob key) := by
  simp only [headBlob, pathFor_of_valid hv]
  refine ⟨hq, fun r => ?_⟩
  rcases r with source | node
  · cases source <;> exact fun m h => by cases h
  · intro m h
    obtain rfl := Option.some.inj (Except.ok.inj h)
    exact ⟨node, rfl, rfl⟩

theorem getBlob_reads (key : Str) :
    Follows (blobReadDiscipline (key.splitOn '/')) BlobRead .start (getBlob key) := by
  by_cases hv : ValidKey key
  swap
  · rw [getBlob, pathFor_of_not_valid hv]
    exact fun body m bytes h => by cases h
  simp only [getBlob, pathFor_of_valid hv]
  refine ⟨rfl, fun r => ?_⟩
  rcases r with source | node
  · cases source <;> exact fun body m bytes h => by cases h
  have hallowed : (blobReadDiscipline (key.splitOn '/')).allowed
      ((blobReadDiscipline (key.splitOn '/')).next .start (.openFile (key.splitOn '/')) (.ok node))
      (.metadata (key.splitOn '/')) := by
    cases node <;> rfl
  refine (headBlob_follows hv hallowed).bind fun q r hr => ?_
  cases r with
  | error e => exact fun body m bytes h => by cases h
  | ok metadata =>
    intro body m bytes h hm hbytes
    obtain rfl := Except.ok.inj h
    obtain ⟨modified, rfl⟩ := collect_readerStream hbytes
    obtain ⟨node', hsize, hq⟩ := hr m (congrArg Except.ok hm)
    exact ⟨nodeLen node', hq, hsize⟩

abbrev BlobReadThread :=
  Thread Fs (BlobReadStage ⊕ BlobPhase) (Except StorageError BlobBody ⊕ BlobReply)

/-- A `get_blob` of the key before its first step. -/
def readerThread (key : Str) : BlobReadThread :=
  ⟨.inl .start, (getBlob key).bind fun r => .ret (.inl r)⟩

/-- A writer before its first step. -/
def writerThread (D : Digest) (call : BlobCall) : BlobReadThread :=
  ⟨.inr ⟨call, .idle⟩, (call.prog D).bind fun r => .ret (.inr r)⟩

def blobReadersWriters (key : Str) : Discipline Fs (BlobReadStage ⊕ BlobPhase) :=
  (blobReadDiscipline (key.splitOn '/')).sum blobDiscipline

/-- The call puts a file of this length, or nothing, at the path. -/
def PutsLength (path : Path) (n : ℕ) (t : FileTree) : FsCall → Prop
  | .rename src dst | .hardLink src dst => dst = path → ∀ b ∈ t.files src, b.length = n
  | _ => True

instance (path : Path) (n : ℕ) (t : FileTree) : (c : FsCall) → Decidable (PutsLength path n t c)
  | .rename src dst | .hardLink src dst =>
    inferInstanceAs (Decidable (dst = path → ∀ b ∈ t.files src, b.length = n))
  | .createDirAll _ | .createFile _ | .append _ _ | .flush _ | .writeFile _ _ | .removeFile _
  | .copyFile _ _ | .openFile _ | .metadata _ | .readFile _ | .readDir _ => isTrue trivial

/-- The call keeps the length that a `get_blob` between its two steps has opened. -/
def KeepsOpened (key : Str) (t : FileTree) (c : FsCall) : BlobReadStage ⊕ BlobPhase → Prop
  | .inl (.opened b) => PutsLength (key.splitOn '/') b.length t c
  | _ => True

instance (key : Str) (t : FileTree) (c : FsCall) :
    (q : BlobReadStage ⊕ BlobPhase) → Decidable (KeepsOpened key t c q)
  | .inl (.opened b) => inferInstanceAs (Decidable (PutsLength (key.splitOn '/') b.length t c))
  | .inl .start | .inl (.closed _ _) | .inl .ended | .inr _ => isTrue trivial

/-- Between the two steps of a `get_blob`, only files of the length that it has opened are
published. -/
def LengthKept (key : Str) (t : FileTree) (others : List BlobReadThread) (th : BlobReadThread) :
    Prop :=
  match th.prog with
  | .call c _ => ∀ o ∈ others, KeepsOpened key t c o.phase
  | .ret _ => True

instance (key : Str) (t : FileTree) (others : List BlobReadThread) :
    (th : BlobReadThread) → Decidable (LengthKept key t others th)
  | ⟨_, .call c _⟩ => inferInstanceAs (Decidable (∀ o ∈ others, KeepsOpened key t c o.phase))
  | ⟨_, .ret _⟩ => isTrue trivial

section BlobSteps

variable {key : Str} {t t' : FileTree}

/-- What matters at the path of the key between the two steps: it is no directory, and a file
there has this length. -/
def HasLength (key : Str) (n : ℕ) (t : FileTree) : Prop :=
  t.isDir (key.splitOn '/') = false ∧ ∀ b, t.files (key.splitOn '/') = some b → b.length = n

theorem HasLength.of_same {n : ℕ} (h : HasLength key n t)
    (hf : t'.files (key.splitOn '/') = t.files (key.splitOn '/')) (hd : SameDirs t t') :
    HasLength key n t' := by
  obtain ⟨hdir, hlength⟩ := h
  exact ⟨by rw [hd.1, hdir], by rwa [hf]⟩

/-- A step that changes the files at one other path. -/
theorem HasLength.of_update {n : ℕ} (h : HasLength key n t) {p : Path} {content : Option Bytes}
    (hne : key.splitOn '/' ≠ p) (hf : t'.files = Function.update t.files p content)
    (hd : SameDirs t t') : HasLength key n t' :=
  h.of_same (by rw [hf, Function.update_of_ne hne]) hd

/-- A writer of the key keeps the length, unless it publishes a file of another length. -/
theorem HasLength.step {n : ℕ} {q : BlobPhase} {c : FsCall} {r : FsCall.Reply c}
    (h : HasLength key n t) (hp : q.call.path = key.splitOn '/') (hi : q.Issues c)
    (ha : Answers t c r t') (hputs : PutsLength (key.splitOn '/') n t c) : HasLength key n t' := by
  obtain ⟨now, _, rfl⟩ := ha
  have hne : key.splitOn '/' ≠ [] := splitOn_ne_nil key
  have htemp : key.splitOn '/' ≠ q.call.temp := by
    rw [← hp]
    exact (tempPath_ne (splitOn_ne_nil _) _).symm
  have hpublish : ∀ {t' : FileTree} {src : Path} {b : Bytes}, t.files src = some b →
      b.length = n → t'.files (key.splitOn '/') = some b → SameDirs t t' → HasLength key n t' := by
    intro t' src b _ hb hf hd
    refine ⟨by rw [hd.1, h.1], fun b' hb' => ?_⟩
    rw [hf] at hb'
    exact Option.some.inj hb' ▸ hb
  rcases hi with rfl | hi
  · obtain ⟨hf, hd⟩ := removeFile_files t q.call.temp
    exact h.of_update htemp hf hd
  obtain ⟨call, stage⟩ := q
  cases stage with
  | linked => cases hi
  | idle =>
    rcases hi with rfl | ⟨body, _, rfl⟩ | ⟨src, dst, _, _, rfl⟩ | ⟨key', _, rfl⟩
    · -- The directories that are made are above the path.
      obtain ⟨hf, _, hd⟩ := t.createDirsFrom_frame [] call.path.dropLast
      refine ⟨?_, ?_⟩
      · by_contra hdir
        rw [Bool.not_eq_false] at hdir
        rcases hd _ hdir with hdir | ⟨hpre, _⟩
        · rw [h.1] at hdir
          cases hdir
        · have hlength := hpre.length_le
          rw [show call.path = key.splitOn '/' from hp] at hlength
          have := List.length_pos_iff.mpr hne
          simp only [List.nil_append, List.length_dropLast] at hlength
          omega
      · show ∀ b, (t.createDirAll call.path.dropLast).2.files (key.splitOn '/') = some b → _
        rw [show (t.createDirAll call.path.dropLast).2.files = t.files from hf]
        exact h.2
    · by_cases hc : t.CanPlace call.temp
      · obtain ⟨_, hf, hd⟩ := createFile_of_canPlace hc now
        exact h.of_update htemp hf hd
      · simpa only [FileTree.handle, createFile_of_not_canPlace hc] using h
    · cases hr : (t.copyFile (src.splitOn '/') call.temp now).1 with
      | error e => simpa only [FileTree.handle, copyFile_error hr] using h
      | ok n' =>
        obtain ⟨⟨content, hf⟩, hd⟩ := copyFile_files hr
        exact h.of_update htemp hf hd
    · obtain ⟨hf, hd⟩ := removeFile_files t call.path
      refine ⟨by rw [FileTree.handle, hd.1, h.1], fun b hb => ?_⟩
      rw [FileTree.handle, hf, show call.path = key.splitOn '/' from hp, Function.update_self] at hb
      cases hb
  | filling written =>
    rcases hi with ⟨b, rfl⟩ | ⟨body, _, _, rfl⟩
    · cases hf : t.files call.temp with
      | none => simpa only [FileTree.handle, FileTree.append, hf] using h
      | some old =>
        obtain ⟨hf', hd⟩ := append_files hf b now
        exact h.of_update htemp hf' hd
    · exact h
  | full =>
    rcases hi with rfl | ⟨key', body, options, _, _, rfl⟩
    · cases hr : (t.rename call.temp call.path).1 with
      | error e => simpa only [FileTree.handle, rename_error hr] using h
      | ok _ =>
        obtain ⟨b, hb, hc⟩ := rename_ok hr
        obtain ⟨_, hf, hd⟩ := rename_of_canPlace hb hc (tempPath_ne (splitOn_ne_nil _) _)
        refine hpublish hb (hputs hp b hb) ?_ hd
        rw [FileTree.handle, hf, Function.update_of_ne htemp,
          show call.path = key.splitOn '/' from hp, Function.update_self]
    · cases hr : (t.hardLink call.temp call.path).1 with
      | error e => simpa only [FileTree.handle, hardLink_error hr] using h
      | ok _ =>
        obtain ⟨b, hb, hc, hn⟩ := hardLink_ok hr
        obtain ⟨_, hf, hd⟩ := hardLink_of_canPlace hb hc hn
        refine hpublish hb (hputs hp b hb) ?_ hd
        rw [FileTree.handle, hf, show call.path = key.splitOn '/' from hp, Function.update_self]

/-- What each phase knows: writers write the key; after the open, the length of what is at the
path is that of what was opened; and so is the length that was found. -/
def BlobReadHolds (key : Str) (t : FileTree) : BlobReadStage ⊕ BlobPhase → Prop
  | .inl (.opened b) => HasLength key b.length t
  | .inl (.closed b size) => size = b.length
  | .inl _ => True
  | .inr q => q.call.path = key.splitOn '/'

/-- A step of the reader itself. -/
theorem blobReader_step {q : BlobReadStage} {c : FsCall} {r : FsCall.Reply c}
    (h : BlobReadHolds key t (.inl q)) (hi : q.Issues (key.splitOn '/') c) (ha : Answers t c r t') :
    t' = t ∧ BlobReadHolds key t (.inl (q.advance c r)) := by
  obtain ⟨now, rfl, rfl⟩ := ha
  cases q with
  | closed b size => cases hi
  | start =>
    obtain rfl : c = _ := hi
    refine ⟨rfl, ?_⟩
    show BlobReadHolds key t
      (.inl (BlobReadStage.advance .start (.openFile (key.splitOn '/'))
        (t.metadata (key.splitOn '/'))))
    cases hr : t.metadata (key.splitOn '/') with
    | error e => trivial
    | ok node =>
      have hl := metadata_eq_ok.mp hr
      cases node with
      | dir => trivial
      | file b m =>
        refine ⟨by simp [isDir, hl], fun b' hb => ?_⟩
        rw [files_eq_some.mpr ⟨m, hl⟩] at hb
        exact congrArg List.length (Option.some.inj hb).symm
  | ended =>
    obtain rfl : c = _ := hi
    refine ⟨rfl, ?_⟩
    show BlobReadHolds key t
      (.inl (BlobReadStage.advance .ended (.metadata (key.splitOn '/'))
        (t.metadata (key.splitOn '/'))))
    cases t.metadata (key.splitOn '/') <;> trivial
  | opened b =>
    obtain rfl : c = _ := hi
    refine ⟨rfl, ?_⟩
    show BlobReadHolds key t
      (.inl (BlobReadStage.advance (.opened b) (.metadata (key.splitOn '/'))
        (t.metadata (key.splitOn '/'))))
    cases hr : t.metadata (key.splitOn '/') with
    | error e => trivial
    | ok node =>
      have hl := metadata_eq_ok.mp hr
      cases node with
      | dir =>
        obtain ⟨hdir, _⟩ : HasLength key b.length t := h
        rw [isDir_iff.mpr hl] at hdir
        cases hdir
      | file b' m => exact h.2 b' (files_eq_some.mpr ⟨m, hl⟩)

theorem blobReadHolds_step {others : List BlobReadThread} {q : BlobReadStage ⊕ BlobPhase}
    {c : FsCall} {r : FsCall.Reply c} (h : BlobReadHolds key t q)
    (hi : (blobReadersWriters key).allowed q c)
    {k : FsCall.Reply c → FsM (Except StorageError BlobBody ⊕ BlobReply)}
    (hkept : LengthKept key t others ⟨q, .call c k⟩) (ha : Answers t c r t') :
    BlobReadHolds key t' ((blobReadersWriters key).next q c r) ∧
      ∀ o ∈ others, BlobReadHolds key t o.phase → BlobReadHolds key t' o.phase := by
  cases q with
  | inl q =>
    obtain ⟨rfl, hnext⟩ := blobReader_step h hi ha
    exact ⟨hnext, fun _ _ ho => ho⟩
  | inr q =>
    refine ⟨?_, fun o hm ho => ?_⟩
    · show (q.advance c r).call.path = key.splitOn '/'
      rw [q.advance_call]
      exact h
    · have hlength := hkept o hm
      revert ho hlength
      rcases o.phase with (_ | b | ⟨b, size⟩ | _) | o
      · exact fun _ _ => trivial
      · exact fun ho hlength => HasLength.step ho h hi ha hlength
      · exact fun ho _ => ho
      · exact fun _ _ => trivial
      · exact fun ho _ => ho

end BlobSteps

theorem getBlob_one_version (D : Digest) (key : Str) (calls : List BlobCall)
    (hkey : ∀ call ∈ calls, call.op.target = key) (t₀ t : FileTree) (pool : List BlobReadThread)
    (hr : Reach (blobReadersWriters key).next Answers (LengthKept key)
      (t₀, readerThread key :: calls.map (writerThread D)) (t, pool))
    {th : BlobReadThread} (hth : th ∈ pool) {body : BlobBody} {m : BlobMetadata} {bytes : Bytes}
    (hprog : th.prog = .ret (.inl (.ok body))) (hm : body.metadata = some m)
    (hbytes : collectStorageStream body.body = .ok bytes) :
    th.phase = .inl (.closed bytes bytes.length) ∧ m.sizeBytes = some bytes.length := by
  have hstart : Disciplined (blobReadersWriters key) (sumPost BlobRead BlobReturned)
      (readerThread key :: calls.map (writerThread D)) := by
    intro th hth
    rcases List.mem_cons.mp hth with rfl | hth
    · exact (getBlob_reads key).inl
    · obtain ⟨call, _, rfl⟩ := List.mem_map.mp hth
      exact (blobCall_follows D call).inr
  have hinit : ∀ th ∈ readerThread key :: calls.map (writerThread D),
      BlobReadHolds key t₀ th.phase := by
    intro th hth
    rcases List.mem_cons.mp hth with rfl | hth
    · trivial
    · obtain ⟨call, hc, rfl⟩ := List.mem_map.mp hth
      exact congrArg (List.splitOn '/') (hkey call hc)
  obtain ⟨hdisc, hinv⟩ := Reach.each (BlobReadHolds key)
    (fun s s' others q c k r h hi hg ha => blobReadHolds_step h hi hg ha) hr hstart hinit
  have hpost := hdisc th hth
  have hphase := hinv th hth
  rw [hprog] at hpost
  cases hq : th.phase with
  | inr q =>
    rw [hq] at hpost
    exact hpost.elim
  | inl q =>
    rw [hq] at hpost hphase
    obtain ⟨size, rfl, hsize⟩ := hpost body m bytes rfl hm hbytes
    obtain rfl : size = bytes.length := hphase
    exact ⟨rfl, hsize⟩

/-! ### Reading a range of an object -/

/-- The record gives the length and the checksum of the bytes. -/
def Describes (D : Digest) (info : ObjectInfo) (b : Bytes) : Prop :=
  info.sizeBytes = b.length ∧ info.sha256Hex = sha256Hex D b

instance (D : Digest) (info : ObjectInfo) (b : Bytes) : Decidable (Describes D info b) :=
  inferInstanceAs (Decidable (_ ∧ _))

/-- How far `get_object_range` has come: it has read this record, and then opened a data file
with this content, or a directory. -/
inductive ObjectReadStage where
  | start
  | read (info : ObjectInfo)
  | closed (info : ObjectInfo) (content : Bytes)
  | dir
  | ended

namespace ObjectReadStage

def advance (codec : Codec) (q : ObjectReadStage) :
    (c : FsCall) → FsCall.Reply c → ObjectReadStage
  | .readFile _, .ok encoded => match codec.fromSlice encoded with
    | .ok info => .read info
    | .error _ => .ended
  | .readFile _, .error _ => .ended
  | .openFile _, .ok (.file b _) => match q with
    | .read info => .closed info b
    | q => q
  | .openFile _, .ok .dir => .dir
  | .openFile _, .error _ => .ended
  | _, _ => q

def Issues (bucket key : Str) (q : ObjectReadStage) (c : FsCall) : Prop :=
  match q with
  | .start => c = .readFile (sidecarPath bucket key)
  | .read _ => c = .openFile (dataPath bucket key)
  | .closed _ _ | .dir | .ended => False

end ObjectReadStage

def objectReadDiscipline (codec : Codec) (bucket key : Str) : Discipline Fs ObjectReadStage where
  allowed := ObjectReadStage.Issues bucket key
  next := ObjectReadStage.advance codec

/-- What a successful range read delivers: the part of the opened file up to the recorded size. -/
def RangeRead (start stop : ℕ) (q : ObjectReadStage) (r : Except StorageError ObjectRangeBody) :
    Prop :=
  ∀ body bytes, r = .ok body → collectStorageStream body.body = .ok bytes → q = .dir ∨
    ∃ b, q = .closed body.object b ∧ start ≤ body.object.sizeBytes ∧
      body.contentLength = min stop body.object.sizeBytes - start ∧
      bytes = (b.drop start).take body.contentLength

theorem collect_rangeStream {path : Path} {start length : ℕ} {b bytes : Bytes} {m : ℤ}
    (h : collectStorageStream ⟨rangeStream path start length (.file b m), some length⟩ =
      .ok bytes) :
    bytes = (b.drop start).take length := by
  simp only [collectStorageStream, rangeStream, collectChunks_map_ok, flatten_readChunks,
    List.nil_append] at h
  split_ifs at h
  exact (Except.ok.inj h).symm

variable {codec : Codec} {bucket key : Str}

/-- The metadata call reads the sidecar and returns the record that it encodes. -/
theorem getObjectMetadata_reads (hv : ValidName bucket key) :
    Follows (objectReadDiscipline codec bucket key)
      (fun q r => ∀ info, r = .ok info → q = .read info) .start
      (getObjectMetadata codec bucket key) := by
  simp only [getObjectMetadata, objectMetadataPathFor_of_valid hv]
  refine follows_perform (I := Fs) rfl fun r => ?_
  rcases r with source | encoded
  · cases source <;> exact fun info h => by cases h
  · cases hdecoded : codec.fromSlice encoded with
    | error source =>
      simp only [hdecoded]
      exact fun info h => by cases h
    | ok object =>
      have hread : ObjectReadStage.advance codec .start (.readFile (sidecarPath bucket key))
          (.ok encoded) = .read object := by
        simp only [ObjectReadStage.advance, hdecoded]
      simp only [hdecoded]
      intro info h
      rw [← Except.ok.inj h]
      exact hread

theorem getObjectRange_reads (start stop : ℕ) :
    Follows (objectReadDiscipline codec bucket key) (RangeRead start stop) .start
      (getObjectRange codec bucket key start stop) := by
  have herror : ∀ q e, RangeRead start stop q (.error e) := fun q e body bytes h => by cases h
  unfold getObjectRange
  split_ifs with hrange
  · exact herror _ _
  by_cases hv : ValidName bucket key
  swap
  · obtain ⟨e, he⟩ := objectMetadataPathFor_of_not_valid hv
    simp only [getObjectMetadata, he]
    exact herror _ _
  refine (getObjectMetadata_reads hv).bind fun q r hq => ?_
  cases r with
  | error e => exact herror _ _
  | ok object =>
    obtain rfl : q = .read object := hq object rfl
    simp only [objectPathFor_of_valid hv]
    split_ifs with hsize
    · exact herror _ _
    refine ⟨rfl, fun r => ?_⟩
    rcases r with source | node
    · cases source <;> exact herror _ _
    · cases seekStart start with
      | error source => exact herror _ _
      | ok _ =>
        intro body bytes h hbytes
        obtain rfl := Except.ok.inj h
        cases node with
        | dir => exact Or.inl rfl
        | file b m =>
          exact Or.inr ⟨b, rfl, Nat.not_lt.mp hsize, rfl, collect_rangeStream hbytes⟩

abbrev ObjectReadThread (D : Digest) := Thread Fs (ObjectReadStage ⊕ RacePhase D)
  (Except StorageError ObjectRangeBody ⊕ Except StorageError Unit)

section ObjectSteps

variable {D : Digest} {t₀ t t' : FileTree}

/-- A `get_object_range` before its first step. -/
def rangeThread (D : Digest) (codec : Codec) (bucket key : Str) (start stop : ℕ) :
    ObjectReadThread D :=
  ⟨.inl .start, (getObjectRange codec bucket key start stop).bind fun r => .ret (.inl r)⟩

/-- A completion or deletion before its first step. -/
def racingThread (codec : Codec) (bucket key : Str) (call : RaceCall D) : ObjectReadThread D :=
  ⟨.inr ⟨call, .preparing⟩, (call.prog codec bucket key).bind fun r => .ret (.inr r)⟩

def objectReadersWriters (D : Digest) (codec : Codec) (bucket key : Str) :
    Discipline Fs (ObjectReadStage ⊕ RacePhase D) :=
  (objectReadDiscipline codec bucket key).sum (raceDiscipline codec bucket key D)

/-- The data path is no directory, and a data file is described by the record. -/
def DataDescribed (D : Digest) (bucket key : Str) (info : ObjectInfo) (t : FileTree) : Prop :=
  t.isDir (dataPath bucket key) = false ∧
    ∀ b ∈ t.files (dataPath bucket key), Describes D info b

instance (D : Digest) (bucket key : Str) (info : ObjectInfo) (t : FileTree) :
    Decidable (DataDescribed D bucket key info t) := inferInstanceAs (Decidable (_ ∧ _))

/-- The sidecar, if it can be read, describes the data. -/
def SidecarDescribes (D : Digest) (codec : Codec) (bucket key : Str) (t : FileTree) : Prop :=
  ∀ encoded ∈ t.files (sidecarPath bucket key), match codec.fromSlice encoded with
    | .ok info => DataDescribed D bucket key info t
    | .error _ => True

instance (D : Digest) (codec : Codec) (bucket key : Str) (t : FileTree) :
    Decidable (SidecarDescribes D codec bucket key t) :=
  have : ∀ encoded, Decidable (match codec.fromSlice encoded with
      | .ok info => DataDescribed D bucket key info t
      | .error _ => True) := fun encoded => by split <;> infer_instance
  inferInstanceAs (Decidable (∀ encoded ∈ t.files (sidecarPath bucket key), _))

/-- The call puts only data that the record describes at the data path. -/
def PutsDescribed (D : Digest) (bucket key : Str) (info : ObjectInfo) (t : FileTree) :
    FsCall → Prop
  | .rename src dst => dst = dataPath bucket key → ∀ b ∈ t.files src, Describes D info b
  | _ => True

instance (D : Digest) (bucket key : Str) (info : ObjectInfo) (t : FileTree) :
    (c : FsCall) → Decidable (PutsDescribed D bucket key info t c)
  | .rename src dst =>
    inferInstanceAs (Decidable (dst = dataPath bucket key → ∀ b ∈ t.files src, Describes D info b))
  | .createDirAll _ | .createFile _ | .append _ _ | .flush _ | .writeFile _ _ | .removeFile _
  | .hardLink _ _ | .copyFile _ _ | .openFile _ | .metadata _ | .readFile _ | .readDir _ =>
    isTrue trivial

/-- The call keeps the record right that a `get_object_range` between its two steps has read. -/
def KeepsRecord (bucket key : Str) (t : FileTree) (c : FsCall) :
    ObjectReadStage ⊕ RacePhase D → Prop
  | .inl (.read info) => PutsDescribed D bucket key info t c
  | _ => True

instance (bucket key : Str) (t : FileTree) (c : FsCall) :
    (q : ObjectReadStage ⊕ RacePhase D) → Decidable (KeepsRecord bucket key t c q)
  | .inl (.read info) => inferInstanceAs (Decidable (PutsDescribed D bucket key info t c))
  | .inl .start | .inl (.closed _ _) | .inl .dir | .inl .ended | .inr _ => isTrue trivial

/-- A `get_object_range` takes its first step only where the sidecar describes the data. -/
def ReadsDescribed (codec : Codec) (bucket key : Str) (t : FileTree) :
    ObjectReadStage ⊕ RacePhase D → Prop
  | .inl .start => SidecarDescribes D codec bucket key t
  | _ => True

instance (codec : Codec) (bucket key : Str) (t : FileTree) :
    (q : ObjectReadStage ⊕ RacePhase D) → Decidable (ReadsDescribed codec bucket key t q)
  | .inl .start => inferInstanceAs (Decidable (SidecarDescribes D codec bucket key t))
  | .inl (.read _) | .inl (.closed _ _) | .inl .dir | .inl .ended | .inr _ => isTrue trivial

/-- The sidecar is read only while it describes the data, and until the data is opened no
completion publishes data that the record does not describe. -/
def DescriptionKept (codec : Codec) (bucket key : Str) (t : FileTree)
    (others : List (ObjectReadThread D)) (th : ObjectReadThread D) : Prop :=
  ReadsDescribed codec bucket key t th.phase ∧ match th.prog with
    | .call c _ => ∀ o ∈ others, KeepsRecord bucket key t c o.phase
    | .ret _ => True

instance (codec : Codec) (bucket key : Str) (t : FileTree) (others : List (ObjectReadThread D)) :
    (th : ObjectReadThread D) → Decidable (DescriptionKept codec bucket key t others th)
  | ⟨q, .call c _⟩ => inferInstanceAs (Decidable (ReadsDescribed codec bucket key t q ∧
      ∀ o ∈ others, KeepsRecord bucket key t c o.phase))
  | ⟨q, .ret _⟩ => inferInstanceAs (Decidable (ReadsDescribed codec bucket key t q ∧ True))

theorem DataDescribed.of_same {info : ObjectInfo} (h : DataDescribed D bucket key info t)
    (hf : t'.files (dataPath bucket key) = t.files (dataPath bucket key)) (hd : SameDirs t t') :
    DataDescribed D bucket key info t' := by
  obtain ⟨hdir, hdata⟩ := h
  exact ⟨by rw [hd.1, hdir], by rwa [hf]⟩

/-- A completion or deletion keeps the description, unless it publishes other data. -/
theorem DataDescribed.step {info : ObjectInfo} {q : RacePhase D} {c : FsCall}
    {r : FsCall.Reply c} (h : DataDescribed D bucket key info t) (hj : Joins bucket key t₀ q.call)
    (hi : q.Issues codec bucket key c) (ha : Answers t c r t')
    (hputs : PutsDescribed D bucket key info t c) : DataDescribed D bucket key info t' := by
  obtain ⟨now, _, rfl⟩ := ha
  have hremove : ∀ p, DataDescribed D bucket key info (t.removeFile p).2 := by
    intro p
    obtain ⟨hf, hd⟩ := removeFile_files t p
    refine ⟨by rw [hd.1, h.1], fun b hb => ?_⟩
    rw [hf] at hb
    by_cases he : dataPath bucket key = p
    · rw [he, Function.update_self] at hb
      cases hb
    · rw [Function.update_of_ne he] at hb
      exact h.2 b hb
  have hrename : ∀ src dst, src ≠ dst → dataPath bucket key ≠ src →
      (dst = dataPath bucket key → ∀ b ∈ t.files src, Describes D info b) →
      DataDescribed D bucket key info (t.rename src dst).2 := by
    intro src dst hne hsrc hdst
    cases hr : (t.rename src dst).1 with
    | error e => rwa [rename_error hr]
    | ok _ =>
      obtain ⟨b, hb, hc⟩ := rename_ok hr
      obtain ⟨_, hf, hd⟩ := rename_of_canPlace hb hc hne
      refine ⟨by rw [hd.1, h.1], fun b' hb' => ?_⟩
      rw [hf, Function.update_of_ne hsrc] at hb'
      by_cases he : dataPath bucket key = dst
      · rw [he, Function.update_self] at hb'
        exact hdst he.symm b' (hb.trans hb')
      · rw [Function.update_of_ne he] at hb'
        exact h.2 b' hb'
  obtain ⟨call, stage⟩ := q
  cases call with
  | delete =>
    cases stage with
    | preparing =>
      obtain rfl : c = _ := hi
      exact hremove _
    | published =>
      obtain rfl : c = _ := hi
      exact hremove _
    | encoded => exact absurd hi id
    | done => exact absurd hi id
    | failed => exact absurd hi id
  | complete o stamp =>
    obtain ⟨rfl, rfl, hw⟩ := hj
    obtain ⟨ne_to, ne_tm, ne_tt, ne_mo, ne_mm, ne_om⟩ := hw.paths_ne
    rw [hw.objectPath_eq] at ne_to ne_mo ne_om
    cases stage with
    | done => exact absurd hi id
    | preparing =>
      rcases hi with rfl | ⟨bytes, _, rfl⟩
      · exact h
      · exact h.of_same ((writeFile_spec t _ bytes now).1 _ (by simpa using ne_mo.symm))
          (writeFile_sameDirs t _ bytes now)
    | encoded =>
      obtain rfl : c = _ := hi
      rw [hw.objectPath_eq] at hputs ⊢
      exact hrename _ _ ne_to ne_to.symm hputs
    | published =>
      obtain rfl : c = _ := hi
      exact hrename _ _ ne_mm ne_mo.symm fun he => absurd (hw.metadataPath_eq ▸ he)
        sidecarPath_ne_dataPath
    | failed =>
      rcases hi with rfl | rfl
      · exact hremove _
      · exact hremove _

/-- What each phase knows: a record that was read describes the data at the path, and then the
data that was opened. -/
def ObjectReadHolds (bucket key : Str) (t₀ t : FileTree) : ObjectReadStage ⊕ RacePhase D → Prop
  | .inl (.read info) => DataDescribed D bucket key info t
  | .inl (.closed info b) => Describes D info b
  | .inl .dir => False
  | .inl _ => True
  | .inr q => Joins bucket key t₀ q.call

/-- A step of the reader itself. -/
theorem objectReader_step {q : ObjectReadStage} {c : FsCall} {r : FsCall.Reply c}
    (h : ObjectReadHolds (D := D) bucket key t₀ t (.inl q)) (hi : q.Issues bucket key c)
    (hdescribes : q = .start → SidecarDescribes D codec bucket key t) (ha : Answers t c r t') :
    t' = t ∧ ObjectReadHolds (D := D) bucket key t₀ t (.inl (q.advance codec c r)) := by
  obtain ⟨now, rfl, rfl⟩ := ha
  cases q with
  | closed info b => cases hi
  | dir => cases hi
  | ended => cases hi
  | start =>
    obtain rfl : c = _ := hi
    refine ⟨rfl, ?_⟩
    show ObjectReadHolds bucket key t₀ t (.inl (ObjectReadStage.advance codec .start
      (.readFile (sidecarPath bucket key)) (t.readFile (sidecarPath bucket key))))
    cases hr : t.readFile (sidecarPath bucket key) with
    | error e => trivial
    | ok encoded =>
      have hmatch := hdescribes rfl encoded (readFile_eq_ok.mp hr)
      simp only [ObjectReadStage.advance]
      cases hd : codec.fromSlice encoded with
      | error source => trivial
      | ok info =>
        rw [hd] at hmatch
        exact hmatch
  | read info =>
    obtain rfl : c = _ := hi
    refine ⟨rfl, ?_⟩
    show ObjectReadHolds bucket key t₀ t (.inl (ObjectReadStage.advance codec (.read info)
      (.openFile (dataPath bucket key)) (t.metadata (dataPath bucket key))))
    obtain ⟨hdir, hdata⟩ : DataDescribed D bucket key info t := h
    cases hr : t.metadata (dataPath bucket key) with
    | error e => trivial
    | ok node =>
      have hl := metadata_eq_ok.mp hr
      cases node with
      | dir =>
        rw [isDir_iff.mpr hl] at hdir
        cases hdir
      | file b m => exact hdata b (files_eq_some.mpr ⟨m, hl⟩)

theorem objectReadHolds_step {others : List (ObjectReadThread D)}
    {q : ObjectReadStage ⊕ RacePhase D} {c : FsCall} {r : FsCall.Reply c}
    (h : ObjectReadHolds bucket key t₀ t q)
    (hi : (objectReadersWriters D codec bucket key).allowed q c)
    {k : FsCall.Reply c → FsM (Except StorageError ObjectRangeBody ⊕ Except StorageError Unit)}
    (hkept : DescriptionKept codec bucket key t others ⟨q, .call c k⟩) (ha : Answers t c r t') :
    ObjectReadHolds bucket key t₀ t' ((objectReadersWriters D codec bucket key).next q c r) ∧
      ∀ o ∈ others, ObjectReadHolds bucket key t₀ t o.phase →
        ObjectReadHolds bucket key t₀ t' o.phase := by
  obtain ⟨hstart, hothers⟩ := hkept
  cases q with
  | inl q =>
    obtain ⟨rfl, hnext⟩ := objectReader_step h hi (fun hq => by subst hq; exact hstart) ha
    exact ⟨hnext, fun _ _ ho => ho⟩
  | inr q =>
    refine ⟨?_, fun o hm ho => ?_⟩
    · show Joins bucket key t₀ (q.advance bucket key c r).call
      rw [advance_call]
      exact h
    · have hputs := hothers o hm
      revert ho hputs
      rcases o.phase with (_ | info | ⟨info, b⟩ | _ | _) | o
      · exact fun _ _ => trivial
      · exact fun ho hputs => DataDescribed.step ho h hi ha hputs
      · exact fun ho _ => ho
      · exact fun ho _ => ho
      · exact fun _ _ => trivial
      · exact fun ho _ => ho

end ObjectSteps

theorem getObjectRange_one_version (D : Digest) (codec : Codec) (bucket key : Str) (start stop : ℕ)
    (calls : List (RaceCall D)) (t₀ t : FileTree) (pool : List (ObjectReadThread D))
    (hc : Contenders bucket key t₀ calls)
    (hr : Reach (objectReadersWriters D codec bucket key).next Answers
      (DescriptionKept codec bucket key) (t₀, rangeThread D codec bucket key start stop ::
        calls.map (racingThread codec bucket key)) (t, pool))
    {th : ObjectReadThread D} (hth : th ∈ pool) {body : ObjectRangeBody} {bytes : Bytes}
    (hprog : th.prog = .ret (.inl (.ok body)))
    (hbytes : collectStorageStream body.body = .ok bytes) :
    ∃ b, th.phase = .inl (.closed body.object b) ∧ Describes D body.object b ∧
      bytes = (b.drop start).take body.contentLength ∧ bytes.length = body.contentLength := by
  have hstart : Disciplined (objectReadersWriters D codec bucket key)
      (sumPost (RangeRead start stop) Returned)
      (rangeThread D codec bucket key start stop :: calls.map (racingThread codec bucket key)) := by
    intro th hth
    rcases List.mem_cons.mp hth with rfl | hth
    · exact (getObjectRange_reads start stop).inl
    · obtain ⟨call, hm, rfl⟩ := List.mem_map.mp hth
      exact (hc.follows hm).inr
  have hinit : ∀ th ∈ rangeThread D codec bucket key start stop ::
      calls.map (racingThread codec bucket key), ObjectReadHolds bucket key t₀ t₀ th.phase := by
    intro th hth
    rcases List.mem_cons.mp hth with rfl | hth
    · trivial
    · obtain ⟨call, hm, rfl⟩ := List.mem_map.mp hth
      exact hc.joins hm
  obtain ⟨hdisc, hinv⟩ := Reach.each (ObjectReadHolds bucket key t₀)
    (fun s s' others q c k r h hi hg ha => objectReadHolds_step h hi hg ha) hr hstart hinit
  have hpost := hdisc th hth
  have hphase := hinv th hth
  rw [hprog] at hpost
  cases hq : th.phase with
  | inr q =>
    rw [hq] at hpost
    exact hpost.elim
  | inl q =>
    rw [hq] at hpost hphase
    rcases hpost body bytes rfl hbytes with rfl | ⟨b, rfl, hle, hlength, hb⟩
    · exact hphase.elim
    · have hdescribes : Describes D body.object b := hphase
      refine ⟨b, rfl, hdescribes, hb, ?_⟩
      rw [hb, List.length_take, List.length_drop, hlength, hdescribes.1]
      omega

/-- A blob read returns the size of the bytes it delivers in every interleaving with writers of
the key in which, between its two steps, only files of the length it has opened are published.
A range read returns the record of the data it delivers a part of, and the length of that
part, in every interleaving in which the sidecar is read only while it describes the data, and
data that the record does not describe is not published before the data is opened. -/
theorem local_reads_one_version (D : Digest) (key : Str) (t₀ t : FileTree) :
    (∀ (calls : List BlobCall) (pool : List BlobReadThread),
      (∀ call ∈ calls, call.op.target = key) →
      Reach (blobReadersWriters key).next Answers (LengthKept key)
        (t₀, readerThread key :: calls.map (writerThread D)) (t, pool) →
      ∀ th ∈ pool, ∀ body m bytes, th.prog = .ret (.inl (.ok body)) → body.metadata = some m →
        collectStorageStream body.body = .ok bytes →
          th.phase = .inl (.closed bytes bytes.length) ∧ m.sizeBytes = some bytes.length) ∧
    ∀ (codec : Codec) (bucket : Str) (start stop : ℕ) (calls : List (RaceCall D))
      (pool : List (ObjectReadThread D)), Contenders bucket key t₀ calls →
      Reach (objectReadersWriters D codec bucket key).next Answers
        (DescriptionKept codec bucket key) (t₀, rangeThread D codec bucket key start stop ::
          calls.map (racingThread codec bucket key)) (t, pool) →
      ∀ th ∈ pool, ∀ body bytes, th.prog = .ret (.inl (.ok body)) →
        collectStorageStream body.body = .ok bytes →
        ∃ b, th.phase = .inl (.closed body.object b) ∧ Describes D body.object b ∧
          bytes = (b.drop start).take body.contentLength ∧ bytes.length = body.contentLength :=
  ⟨fun calls pool hkey hr _ hth _ _ _ hprog hm hbytes =>
    getBlob_one_version D key calls hkey t₀ t pool hr hth hprog hm hbytes,
    fun codec bucket start stop calls pool hc hr _ hth _ _ hprog hbytes =>
      getObjectRange_one_version D codec bucket key start stop calls t₀ t pool hc hr hth hprog
        hbytes⟩

/-- What a finished `get_blob` delivers: the bytes, and the size its metadata give. -/
def delivered (th : BlobReadThread) : Option (Bytes × ℕ) :=
  match th.prog with
  | .ret (.inl (.ok body)) => match collectStorageStream body.body, body.metadata with
    | .ok bytes, some m => m.sizeBytes.map (bytes, ·)
    | _, _ => none
  | _ => none

theorem delivered_eq_some {th : BlobReadThread} {bytes : Bytes} {n : ℕ}
    (h : delivered th = some (bytes, n)) :
    ∃ body m, th.prog = .ret (.inl (.ok body)) ∧ body.metadata = some m ∧
      collectStorageStream body.body = .ok bytes ∧ m.sizeBytes = some n := by
  unfold delivered at h
  split at h
  · rename_i body hprog
    split at h
    · rename_i b m hb hm
      obtain ⟨size, hsize, heq⟩ := Option.map_eq_some_iff.mp h
      obtain ⟨rfl, rfl⟩ := Prod.mk.inj heq
      exact ⟨body, m, hprog, hm, hb, hsize⟩
    · cases h
  · cases h

/-- What a finished `get_object_range` delivers: the record and the bytes. -/
def deliveredRange {D : Digest} (th : ObjectReadThread D) : Option (ObjectInfo × Bytes) :=
  match th.prog with
  | .ret (.inl (.ok body)) => match collectStorageStream body.body with
    | .ok bytes => some (body.object, bytes)
    | .error _ => none
  | _ => none

theorem deliveredRange_eq_some {D : Digest} {th : ObjectReadThread D} {info : ObjectInfo}
    {bytes : Bytes} (h : deliveredRange th = some (info, bytes)) :
    ∃ body, th.prog = .ret (.inl (.ok body)) ∧ body.object = info ∧
      collectStorageStream body.body = .ok bytes := by
  unfold deliveredRange at h
  split at h
  · rename_i body hprog
    split at h
    · rename_i b hb
      obtain ⟨rfl, rfl⟩ := Prod.mk.inj (Option.some.inj h)
      exact ⟨body, hprog, rfl, hb⟩
    · cases h
  · cases h

/-- The key `k` holds one byte. -/
def oneByteTree : FileTree :=
  (FsM.run 0 (putBlob Digest.sha256 (sampleUuid 0) "k".toList (.fromBytes [1]) ⟨none⟩)
    (FileTree.empty Limits.widest)).2

/-- A writer that replaces it with this body. -/
def replacing (body : Bytes) : List BlobCall :=
  [⟨.put "k".toList (.fromBytes body) ⟨none⟩, sampleUuid 1⟩]

/-- The writer fills its file, the key is opened, the writer publishes, and the reader looks up
the metadata. -/
def sampleBlobReadRace (body : Bytes) : FileTree × List BlobReadThread :=
  runSchedule (blobReadersWriters "k".toList).next (FileTree.handle 0)
    (oneByteTree, readerThread "k".toList :: (replacing body).map (writerThread Digest.sha256))
    [1, 1, 1, 1, 0, 1, 0]

/-- The record is read, the data is opened, and the object is deleted. -/
def sampleRangeRace : FileTree × List (ObjectReadThread Digest.sha256) :=
  runSchedule (objectReadersWriters Digest.sha256 sampleCodec "b".toList "k".toList).next
    (FileTree.handle 0)
    (afterSamplePut.tree, rangeThread Digest.sha256 sampleCodec "b".toList "k".toList 1 2 ::
      [RaceCall.delete].map (racingThread sampleCodec "b".toList "k".toList))
    [0, 0, 1, 1]

/-- A byte replaced by another one between the two steps of a `get_blob`, and an object deleted
during a `get_object_range`. -/
theorem local_reads_one_version_replaced :
    (∃ t pool, Reach (blobReadersWriters "k".toList).next Answers (LengthKept "k".toList)
      (oneByteTree, readerThread "k".toList :: (replacing [2]).map (writerThread Digest.sha256))
        (t, pool) ∧ t.files ["k".toList] = some [2] ∧
      ∃ th ∈ pool, th.phase = .inl (.closed [1] 1)) ∧
    ∃ t pool, Reach (objectReadersWriters Digest.sha256 sampleCodec "b".toList "k".toList).next
      Answers (DescriptionKept sampleCodec "b".toList "k".toList)
      (afterSamplePut.tree, rangeThread Digest.sha256 sampleCodec "b".toList "k".toList 1 2 ::
        [RaceCall.delete].map (racingThread sampleCodec "b".toList "k".toList)) (t, pool) ∧
      t.files (dataPath "b".toList "k".toList) = none ∧
      ∃ th ∈ pool, ∃ b, th.phase = .inl (.closed sampleInfo b) ∧
        Describes Digest.sha256 sampleInfo b ∧ [2] = (b.drop 1).take 1 := by
  constructor
  · have hreach : Reach (blobReadersWriters "k".toList).next Answers (LengthKept "k".toList)
        (oneByteTree, readerThread "k".toList :: (replacing [2]).map (writerThread Digest.sha256))
        (sampleBlobReadRace [2]) :=
      runSchedule_reach (fun _ _ => ⟨0, rfl, rfl⟩) (by decide +kernel)
    obtain ⟨hfile, hread⟩ : (sampleBlobReadRace [2]).1.files ["k".toList] = some [2] ∧
        ∃ th ∈ (sampleBlobReadRace [2]).2, delivered th = some ([1], 1) := by
      decide +kernel
    generalize sampleBlobReadRace [2] = x at hreach hfile hread
    obtain ⟨t, pool⟩ := x
    obtain ⟨th, hth, hd⟩ := hread
    obtain ⟨body, m, hprog, hm, hbytes, _⟩ := delivered_eq_some hd
    exact ⟨t, pool, hreach, hfile, th, hth, ((local_reads_one_version _ _ _ _).1
      _ _ (by decide) hreach th hth body m _ hprog hm hbytes).1⟩
  · have hreach : Reach
        (objectReadersWriters Digest.sha256 sampleCodec "b".toList "k".toList).next
        Answers (DescriptionKept sampleCodec "b".toList "k".toList)
        (afterSamplePut.tree, rangeThread Digest.sha256 sampleCodec "b".toList "k".toList 1 2 ::
          [RaceCall.delete].map (racingThread sampleCodec "b".toList "k".toList))
        sampleRangeRace :=
      runSchedule_reach (fun _ _ => ⟨0, rfl, rfl⟩) (by decide +kernel)
    obtain ⟨hfile, hread⟩ :
        sampleRangeRace.1.files (dataPath "b".toList "k".toList) = none ∧
        ∃ th ∈ sampleRangeRace.2, deliveredRange th = some (sampleInfo, [2]) := by
      decide +kernel
    have hrun : ObjectRun sampleCodec Limits.widest ObjectOp.Unreserved afterSamplePut :=
      objectRun_samplePut (not_reserved_of_bucket _ (by decide))
    have hcontenders : Contenders "b".toList "k".toList afterSamplePut.tree
        ([RaceCall.delete] : List (RaceCall Digest.sha256)) :=
      hrun.inv.contenders (by decide) (by decide +kernel) 0 1
    generalize sampleRangeRace = x at hreach hfile hread
    obtain ⟨t, pool⟩ := x
    obtain ⟨th, hth, hd⟩ := hread
    obtain ⟨body, hprog, hobject, hbytes⟩ := deliveredRange_eq_some hd
    obtain ⟨b, hphase, hdescribes, hpart, hlength⟩ := (local_reads_one_version _ _ _ _).2
      _ _ _ _ _ _ hcontenders hreach th hth body _ hprog hbytes
    rw [hobject] at hphase hdescribes
    rw [← hlength] at hpart
    exact ⟨t, pool, hreach, hfile, th, hth, b, hphase, hdescribes, hpart⟩

/-- A byte replaced by two bytes between the two steps of a `get_blob`: it returns the old byte
with the new size. -/
theorem local_reads_two_versions :
    ∃ t pool, Reach (blobReadersWriters "k".toList).next Answers (fun _ _ _ => True)
      (oneByteTree, readerThread "k".toList :: (replacing [1, 2]).map (writerThread Digest.sha256))
        (t, pool) ∧
      ∃ th ∈ pool, ∃ body m, th.prog = .ret (.inl (.ok body)) ∧ body.metadata = some m ∧
        collectStorageStream body.body = .ok [1] ∧ m.sizeBytes = some 2 := by
  have hreach : Reach (blobReadersWriters "k".toList).next Answers (fun _ _ _ => True)
      (oneByteTree, readerThread "k".toList :: (replacing [1, 2]).map (writerThread Digest.sha256))
      (sampleBlobReadRace [1, 2]) :=
    runSchedule_reach (fun _ _ => ⟨0, rfl, rfl⟩) (by decide +kernel)
  have hread : ∃ th ∈ (sampleBlobReadRace [1, 2]).2, delivered th = some ([1], 2) := by
    decide +kernel
  generalize sampleBlobReadRace [1, 2] = x at hreach hread
  obtain ⟨t, pool⟩ := x
  obtain ⟨th, hth, hd⟩ := hread
  exact ⟨t, pool, hreach, th, hth, delivered_eq_some hd⟩

end GraphqlOrmStorage.Local
