import GraphqlOrmStorage.LocalObjectCells
import GraphqlOrmStorage.Ranges

/-!
# Object ranges as a player reads them

A range response of the local object store carries its length four times: in the
content length, in the bounds of the range, in the size hint of the body and in
the body itself. They agree for every range of a completed object, and ranges
that follow one another up to the end of the object make up the whole of it.
-/
namespace GraphqlOrmStorage.Local

open Text Program FileTree Ranges

/-- `ObjectContentRange::len`; the subtraction wraps in a release build. -/
def ObjectContentRange.len (r : ObjectContentRange) : ℕ := (r.stop + 2 ^ 64 - r.start) % 2 ^ 64

/-- A client that reads one range after another and joins the bodies. -/
def readRanges (codec : Codec) (bucket key : Str) : ℕ → List ℕ → FsM (Except Stop Bytes)
  | _, [] => return .ok []
  | start, stop :: rest => do
    match ← getObjectRange codec bucket key start stop with
    | .error e => return .error (.error e)
    | .ok body =>
      match collectStorageStream body.body with
      | .error stopped => return .error stopped
      | .ok bytes =>
        match ← readRanges codec bucket key stop rest with
        | .error stopped => return .error stopped
        | .ok more => return .ok (bytes ++ more)

/-- All that a response to the range from `start` to `stop` says about the content. -/
structure RangeAnswer (object : ObjectInfo) (content : Bytes) (start stop : ℕ)
    (body : ObjectRangeBody) : Prop where
  object_eq : body.object = object
  collects : collectStorageStream body.body = .ok (slice content start stop)
  start_eq : body.range.start = start
  stop_eq : body.range.stop = min stop content.length
  total_eq : body.range.totalSize = content.length
  ordered : body.range.start ≤ body.range.stop
  len_eq : body.range.len = body.contentLength
  hint_eq : body.body.sizeHint = some body.contentLength
  length_eq : (slice content start stop).length = body.contentLength

/-- The object is completed: its sidecar tells the size of its data file. The length
of a file is a signed 64-bit number. -/
structure Completed (codec : Codec) (now : ℤ) (t : FileTree) (bucket key : Str)
    (object : ObjectInfo) (content : Bytes) : Prop where
  sidecar : (FsM.run now (getObjectMetadata codec bucket key) t).1 = .ok object
  data : t.files (dataPath bucket key) = some content
  size_eq : object.sizeBytes = content.length
  fits : content.length ≤ isizeMax

section Ranges

variable {codec : Codec} {now : ℤ} {t : FileTree} {bucket key : Str} {object : ObjectInfo}
  {content : Bytes}

/-- The two refusals, each before anything of the content is read. -/
lemma getObjectRange_refuses (h : Completed codec now t bucket key object content)
    {start stop : ℕ} (hbad : stop < start ∨ content.length < start) :
    ∃ condition, (FsM.run now (getObjectRange codec bucket key start stop) t).1 =
      .error (.preconditionFailed (objectName bucket key) condition) := by
  unfold getObjectRange
  by_cases hlt : stop < start
  · rw [if_pos hlt]
    exact ⟨_, rfl⟩
  · have hsize : object.sizeBytes < start := by
      rw [h.size_eq]
      omega
    rw [if_neg hlt]
    simp only [Prog.bind_eq_bind, FsM.run_bind, h.sidecar, if_pos hsize]
    exact ⟨_, rfl⟩

/-- Every other range is answered, and the answer agrees with itself. -/
lemma getObjectRange_answers (h : Completed codec now t bucket key object content)
    {start stop : ℕ} (hle : start ≤ stop) (hin : start ≤ content.length) :
    ∃ body, (FsM.run now (getObjectRange codec bucket key start stop) t).1 = .ok body ∧
      RangeAnswer object content start stop body := by
  have hmax : content.length < 2 ^ 63 := Nat.lt_of_le_pred (by decide) h.fits
  have hsize := h.size_eq
  have hslice : slice content start (min stop content.length) = slice content start stop := by
    rw [slice, slice, Nat.min_assoc, Nat.min_self]
  obtain hbad | hok := getObjectRange_of_files h.sidecar h.data hle
  · omega
  · obtain ⟨-, -, hrun⟩ := hok
    refine ⟨_, hrun, ?_⟩
    have hlen : (slice content start stop).length = min stop content.length - start := by
      rw [length_slice]
      omega
    constructor
    · rfl
    · have hsmall : ¬ isizeMax < min stop content.length - start := by
        simp only [isizeMax]
        omega
      simp only [collectStorageStream, hsize, Option.getD_some, if_neg hsmall,
        collectChunks_map_ok, flatten_readChunks, List.nil_append]
      rw [← slice_eq, hslice]
    · rfl
    · exact congrArg (min stop) hsize
    · exact hsize
    · show start ≤ min stop object.sizeBytes
      omega
    · show (min stop object.sizeBytes + 2 ^ 64 - start) % 2 ^ 64 = min stop object.sizeBytes - start
      omega
    · rfl
    · rw [hlen, hsize]

/-- Reading changes nothing. -/
lemma getObjectRange_tree (codec : Codec) (now : ℤ) (t : FileTree) (bucket key : Str)
    (start stop : ℕ) : (FsM.run now (getObjectRange codec bucket key start stop) t).2 = t := by
  unfold getObjectRange
  by_cases hlt : stop < start
  · rw [if_pos hlt]
    rfl
  · rw [if_neg hlt]
    simp only [Prog.bind_eq_bind, FsM.run_bind, getObjectMetadata_tree]
    cases hm : (FsM.run now (getObjectMetadata codec bucket key) t).1 with
    | error e => rfl
    | ok object =>
      by_cases hsize : object.sizeBytes < start
      · simp only [if_pos hsize]
        rfl
      · simp only [if_neg hsize]
        cases hp : objectPathFor bucket key with
        | error e => rfl
        | ok path =>
          simp only [FsM.run_bind, Fs.run_openFile]
          cases hopen : t.metadata path with
          | error e => cases e <;> rfl
          | ok node => cases hseek : seekStart start <;> rfl

/-- Ranges that follow one another from `start` on, the last of them up to the end,
are joined to the rest of the content. -/
lemma readRanges_rest (h : Completed codec now t bucket key object content) (points : List ℕ)
    {start last : ℕ} (hin : start ≤ content.length)
    (hpoints : ∀ p ∈ points, p ≤ content.length) (hlast : content.length ≤ last)
    (hsorted : (start :: points).Pairwise (· ≤ ·)) :
    FsM.run now (readRanges codec bucket key start (points ++ [last])) t =
      (.ok (content.drop start), t) := by
  -- One range, and then what is left from its end on.
  have first {start stop : ℕ} (hle : start ≤ stop) (hin : start ≤ content.length) :
      ∃ body, FsM.run now (getObjectRange codec bucket key start stop) t = (.ok body, t) ∧
        collectStorageStream body.body = .ok (slice content start stop) := by
    obtain ⟨body, hrun, hanswer⟩ := getObjectRange_answers h hle hin
    exact ⟨body, Prod.ext hrun (getObjectRange_tree codec now t bucket key start stop),
      hanswer.collects⟩
  induction points generalizing start with
  | nil =>
    obtain ⟨body, hrun, hcollect⟩ := first (show start ≤ last by omega) hin
    have hslice : slice content start last = content.drop start := by
      rw [slice_eq, List.take_of_length_le]
      rw [List.length_drop]
      omega
    simp only [List.nil_append, readRanges, Prog.bind_eq_bind, FsM.run_bind, hrun, hcollect, hslice]
    simp
  | cons p points ih =>
    have hp : p ≤ content.length := hpoints p (by simp)
    have hle : start ≤ p := (List.pairwise_cons.mp hsorted).1 p (by simp)
    obtain ⟨body, hrun, hcollect⟩ := first hle hin
    have hrest := ih hp (fun q hq => hpoints q (by simp [hq])) (List.pairwise_cons.mp hsorted).2
    have hjoin : slice content start p ++ content.drop p = content.drop start := by
      rw [slice_eq]
      conv_rhs => rw [← List.take_append_drop (p - start) (content.drop start), List.drop_drop,
        Nat.add_sub_cancel' hle]
    simp only [List.cons_append, readRanges, Prog.bind_eq_bind, FsM.run_bind, hrun, hcollect, hrest]
    simp [hjoin]

/-- For a completed object, a range is refused exactly when it is reversed or starts
beyond the object; every other response agrees with itself and with the content; and
consecutive ranges that cover the object make up its content. -/
theorem object_ranges_consistent (h : Completed codec now t bucket key object content) :
    (∀ start stop : ℕ,
      ((∃ key' condition, (FsM.run now (getObjectRange codec bucket key start stop) t).1 =
          .error (.preconditionFailed key' condition)) ↔
        stop < start ∨ content.length < start) ∧
      (¬ (stop < start ∨ content.length < start) →
        ∃ body, (FsM.run now (getObjectRange codec bucket key start stop) t).1 = .ok body ∧
          RangeAnswer object content start stop body)) ∧
    ∀ (points : List ℕ) (last : ℕ), (0 :: points).Pairwise (· ≤ ·) →
      (∀ p ∈ points, p ≤ content.length) → content.length ≤ last →
      (FsM.run now (readRanges codec bucket key 0 (points ++ [last])) t).1 = .ok content := by
  constructor
  · intro start stop
    have hanswer : ¬ (stop < start ∨ content.length < start) →
        ∃ body, (FsM.run now (getObjectRange codec bucket key start stop) t).1 = .ok body ∧
          RangeAnswer object content start stop body := by
      intro hgood
      exact getObjectRange_answers h (by omega) (by omega)
    refine ⟨?_, hanswer⟩
    constructor
    · intro hrefused
      obtain ⟨key', condition, hrun⟩ := hrefused
      by_contra hgood
      obtain ⟨body, hok, -⟩ := hanswer hgood
      rw [hok] at hrun
      cases hrun
    · intro hbad
      obtain ⟨condition, hrun⟩ := getObjectRange_refuses h hbad
      exact ⟨_, condition, hrun⟩
  · intro points last hsorted hpoints hlast
    rw [readRanges_rest h points (Nat.zero_le _) hpoints hlast hsorted]
    rfl

/-- In every reachable state the objects are completed ones. -/
theorem completed_of_cells {D : Digest} {s : ObjectState D} (hinv : CellsInv codec s)
    (hcodec : ∀ info bytes, codec.toVec info = .ok bytes → codec.fromSlice bytes = .ok info)
    (hc : s.cells (bucket, key) = some (object, content)) :
    Completed codec now s.tree bucket key object content := by
  obtain ⟨-, -, hdata, hfits, hsize, -⟩ := hinv.present bucket key _ hc
  exact ⟨(hinv.getObjectMetadata_iff hcodec now).mpr ⟨content, hc⟩, hdata, hsize, hfits⟩

end Ranges

/-- An object of two bytes, read in three ranges. -/
theorem object_ranges_consistent_two_bytes :
    (FsM.run 0 (readRanges sampleCodec "b".toList "k".toList 0 [1, 1, 5]) afterSamplePut.tree).1 =
      .ok [1, 2] := by
  have hinv : CellsInv sampleCodec afterSamplePut :=
    (objectRun_samplePut (not_reserved_of_bucket _ (by decide))).inv
  have hdone : Completed sampleCodec 0 afterSamplePut.tree "b".toList "k".toList sampleInfo [1, 2] :=
    completed_of_cells hinv sampleCodec_roundtrip (by decide +kernel)
  exact (object_ranges_consistent hdone).2 [1, 1] 5 (by decide) (by decide) (by decide)

end GraphqlOrmStorage.Local
