import GraphqlOrmStorage.Types

/-!
# The range trimmer

`ranged_storage_stream` cuts a range out of a stream that is already open: chunks
before the range are dropped, the first and the last one that meet it are
trimmed, and the input is not read further once the range is complete. Machine
arithmetic and slicing are checked here, so that a subtraction below zero or an
index outside of its chunk would show as a panic among the items.
-/
namespace GraphqlOrmStorage.RangedStream

variable {α σ : Type}

/-- `stream::try_unfold`, polled at most `fuel` times: the items up to the end or to the first
error. -/
def tryUnfold (f : σ → Except Stop (Option (α × σ))) : ℕ → σ → List (Except Stop α)
  | 0, _ => [.error .outOfFuel]
  | fuel + 1, s =>
    match f s with
    | .error stop => [.error stop]
    | .ok none => []
    | .ok (some (a, s)) => .ok a :: tryUnfold f fuel s

/-- `u64` subtraction. -/
def checkedSub (a b : ℕ) : Except Stop ℕ := if b ≤ a then .ok (a - b) else .error .panic

/-- `usize` addition. -/
def checkedAdd (a b : ℕ) : Except Stop ℕ := if a + b ≤ u64Max then .ok (a + b) else .error .panic

/-- `usize::try_from` of a `u64`; both have 64 bits. -/
def usizeTryFrom (n : ℕ) : Option ℕ := if n ≤ u64Max then some n else none

/-- `u64::try_from` of a length, or the largest `u64`. -/
def chunkLen (chunk : Bytes) : ℕ := if chunk.length ≤ u64Max then chunk.length else u64Max

/-- `Bytes::slice`. -/
def sliceChunk (chunk : Bytes) (start stop : ℕ) : Except Stop Bytes :=
  if start ≤ stop ∧ stop ≤ chunk.length then .ok ((chunk.take stop).drop start)
  else .error .panic

/-- What the unfold carries from item to item. -/
structure RangeState where
  inner : List (Except StorageError Bytes)
  skip : ℕ
  remaining : ℕ

/-- The inner loop: the next chunk that meets the range, trimmed. -/
def nextInRange : List (Except StorageError Bytes) → ℕ → ℕ →
    Except Stop (Option (Bytes × RangeState))
  | [], _, _ => .ok none
  | .error e :: _, _, _ => .error (.error e)
  | .ok chunk :: inner, skip, remaining =>
    if chunkLen chunk ≤ skip then
      match checkedSub skip (chunkLen chunk) with
      | .error stop => .error stop
      | .ok skip => nextInRange inner skip remaining
    else
      match usizeTryFrom skip with
      | none => .error (.error (.preconditionFailed []
          "range start cannot fit in memory".toList))
      | some start => do
        let takeLen := min (← checkedSub (chunkLen chunk) skip) remaining
        match usizeTryFrom takeLen with
        | none => .error (.error (.preconditionFailed []
            "range length cannot fit in memory".toList))
        | some length =>
          let output ← sliceChunk chunk start (← checkedAdd start length)
          let remaining ← checkedSub remaining takeLen
          return some (output, ⟨inner, 0, remaining⟩)

/-- The closure of the unfold. -/
def nextItem (s : RangeState) : Except Stop (Option (Bytes × RangeState)) :=
  if s.remaining = 0 then .ok none else nextInRange s.inner s.skip s.remaining

/-- The resulting stream. -/
structure RangedBody where
  items : List (Except Stop Bytes)
  sizeHint : Option ℕ

/-- `ranged_storage_stream`. Each item takes a chunk of the input, which bounds the polls. -/
def rangedStorageStream (body : StorageByteStream) (skip length : ℕ) : RangedBody where
  items := tryUnfold nextItem (body.inner.length + 1) ⟨body.inner, skip, length⟩
  sizeHint := body.sizeHint.map fun hint => min (hint - skip) length

/-! ### One item -/

theorem chunkLen_eq {chunk : Bytes} (h : chunk.length ≤ u64Max) : chunkLen chunk = chunk.length :=
  if_pos h

/-- A chunk before the range is dropped. -/
theorem nextInRange_before {chunk : Bytes} {inner : List (Except StorageError Bytes)}
    {skip remaining : ℕ} (hchunk : chunk.length ≤ u64Max) (h : chunk.length ≤ skip) :
    nextInRange (.ok chunk :: inner) skip remaining =
      nextInRange inner (skip - chunk.length) remaining := by
  simp only [nextInRange, chunkLen_eq hchunk, if_pos h, checkedSub]

/-- A chunk that reaches into the range is trimmed at both ends. -/
theorem nextInRange_meets {chunk : Bytes} {inner : List (Except StorageError Bytes)}
    {skip remaining : ℕ} (hchunk : chunk.length ≤ u64Max) (h : skip < chunk.length) :
    nextInRange (.ok chunk :: inner) skip remaining =
      .ok (some ((chunk.drop skip).take (min (chunk.length - skip) remaining),
        ⟨inner, 0, remaining - min (chunk.length - skip) remaining⟩)) := by
  have htake : min (chunk.length - skip) remaining ≤ chunk.length - skip := min_le_left ..
  have hrem : min (chunk.length - skip) remaining ≤ remaining := min_le_right ..
  have hsub : checkedSub chunk.length skip = .ok (chunk.length - skip) := if_pos h.le
  have hstart : usizeTryFrom skip = some skip := if_pos (by omega)
  have hlen : usizeTryFrom (min (chunk.length - skip) remaining) =
      some (min (chunk.length - skip) remaining) := if_pos (by omega)
  have hadd : checkedAdd skip (min (chunk.length - skip) remaining) =
      .ok (skip + min (chunk.length - skip) remaining) := if_pos (by omega)
  have hslice : sliceChunk chunk skip (skip + min (chunk.length - skip) remaining) =
      .ok ((chunk.drop skip).take (min (chunk.length - skip) remaining)) := by
    rw [sliceChunk, if_pos (by omega), List.take_drop]
  have hleft : checkedSub remaining (min (chunk.length - skip) remaining) =
      .ok (remaining - min (chunk.length - skip) remaining) := if_pos hrem
  simp only [nextInRange, chunkLen_eq hchunk, if_neg (Nat.not_le.mpr h), hstart, hsub, hlen, hadd,
    hslice, hleft, bind, Except.bind, pure, Except.pure]

/-! ### All items -/

/-- The chunks that the trimmer sees, up to the first error, have lengths in `u64`. -/
def ChunksFit (inner : List (Except StorageError Bytes)) : Prop :=
  ∀ chunk ∈ okChunks inner, chunk.length ≤ u64Max

/-- How an input that ends after `read` bytes ends a range: with the error of the input, where
the range is still incomplete. -/
def ending (inner : List (Except StorageError Bytes)) (skip length : ℕ) : List (Except Stop Bytes) :=
  match firstError inner with
  | none => []
  | some e =>
    if 0 < length ∧ (okChunks inner).flatten.length < skip + length then [.error (.error e)] else []

/-- The items are chunks of the slice, none of them empty, and then the ending. -/
def Slices (items : List (Except Stop Bytes)) (inner : List (Except StorageError Bytes))
    (skip length : ℕ) : Prop :=
  ∃ chunks : List Bytes, (∀ chunk ∈ chunks, chunk ≠ []) ∧
    chunks.flatten = ((okChunks inner).flatten.drop skip).take length ∧
    items = chunks.map .ok ++ ending inner skip length

variable {inner : List (Except StorageError Bytes)} {skip length fuel : ℕ}

/-- A complete range ends without reading the input. -/
theorem slices_zero (inner : List (Except StorageError Bytes)) (skip fuel : ℕ) :
    Slices (tryUnfold nextItem (fuel + 1) ⟨inner, skip, 0⟩) inner skip 0 := by
  refine ⟨[], by simp, by simp, ?_⟩
  cases h : firstError inner <;> simp [tryUnfold, nextItem, ending, h]

/-- Dropping a chunk before the range shifts the range. -/
theorem slices_cons_before {items : List (Except Stop Bytes)} {chunk : Bytes}
    (h : chunk.length ≤ skip) (hs : Slices items inner (skip - chunk.length) length) :
    Slices items (.ok chunk :: inner) skip length := by
  obtain ⟨chunks, hne, hflat, hitems⟩ := hs
  refine ⟨chunks, hne, ?_, ?_⟩
  · rw [hflat, okChunks, List.flatten_cons, List.drop_append, List.drop_eq_nil_of_le h,
      List.nil_append]
  · have hsum : (okChunks inner).flatten.length < skip - chunk.length + length ↔
        chunk.length + (okChunks inner).flatten.length < skip + length := by omega
    simp only [hitems, ending, firstError, okChunks, List.flatten_cons, List.length_append, hsum]

/-- A trimmed chunk, and behind it the rest of the range. -/
theorem slices_cons_meets {items : List (Except Stop Bytes)} {chunk : Bytes}
    (h : skip < chunk.length) (hlength : length ≠ 0)
    (hs : Slices items inner 0 (length - min (chunk.length - skip) length)) :
    Slices (.ok ((chunk.drop skip).take (min (chunk.length - skip) length)) :: items)
      (.ok chunk :: inner) skip length := by
  obtain ⟨chunks, hne, hflat, hitems⟩ := hs
  refine ⟨(chunk.drop skip).take (min (chunk.length - skip) length) :: chunks, ?_, ?_, ?_⟩
  · intro c hc
    cases List.mem_cons.mp hc with
    | inl hc =>
      rw [hc, ← List.length_pos_iff, List.length_take, List.length_drop]
      omega
    | inr hc => exact hne c hc
  · rw [List.flatten_cons, hflat, okChunks, List.flatten_cons, List.drop_zero,
      List.drop_append_of_le_length h.le, List.take_append, List.length_drop]
    congr 1
    · rw [List.take_eq_take_iff, List.length_drop]
      omega
    · congr 1
      omega
  · have hsum : 0 < length - min (chunk.length - skip) length ∧
        (okChunks inner).flatten.length < 0 + (length - min (chunk.length - skip) length) ↔
          0 < length ∧ chunk.length + (okChunks inner).flatten.length < skip + length := by omega
    simp only [hitems, ending, firstError, okChunks, List.flatten_cons, List.length_append, hsum,
      List.map_cons, List.cons_append]

/-- By induction on the input; each chunk is dropped, or starts the rest of the range. -/
theorem tryUnfold_slices (hchunks : ChunksFit inner) (hfuel : inner.length < fuel) :
    Slices (tryUnfold nextItem fuel ⟨inner, skip, length⟩) inner skip length := by
  induction inner generalizing skip length fuel with
  | nil =>
    obtain ⟨fuel, rfl⟩ := Nat.exists_eq_add_one_of_ne_zero (Nat.ne_of_gt hfuel)
    refine ⟨[], by simp, by simp [okChunks], ?_⟩
    by_cases hlength : length = 0 <;>
      simp [tryUnfold, nextItem, nextInRange, ending, firstError, hlength]
  | cons item inner ih =>
    obtain ⟨fuel, rfl⟩ := Nat.exists_eq_add_one_of_ne_zero (Nat.ne_of_gt (Nat.zero_lt_of_lt hfuel))
    by_cases hlength : length = 0
    · rw [hlength]
      exact slices_zero _ _ _
    · cases item with
      | error e =>
        refine ⟨[], by simp, by simp [okChunks], ?_⟩
        have hpos : 0 < length := Nat.pos_of_ne_zero hlength
        simp [tryUnfold, nextItem, nextInRange, ending, firstError, okChunks, hlength, hpos]
      | ok chunk =>
        have hchunk : chunk.length ≤ u64Max := hchunks chunk (by simp [okChunks])
        have hrest : ChunksFit inner := fun c hc => hchunks c (by simp [okChunks, hc])
        rw [List.length_cons] at hfuel
        by_cases hbefore : chunk.length ≤ skip
        · have hnext : nextItem ⟨.ok chunk :: inner, skip, length⟩ =
              nextItem ⟨inner, skip - chunk.length, length⟩ := by
            simp only [nextItem, if_neg hlength, nextInRange_before hchunk hbefore]
          have hunfold : tryUnfold nextItem (fuel + 1) ⟨.ok chunk :: inner, skip, length⟩ =
              tryUnfold nextItem (fuel + 1) ⟨inner, skip - chunk.length, length⟩ := by
            simp only [tryUnfold, hnext]
          rw [hunfold]
          exact slices_cons_before hbefore (ih hrest (by omega))
        · have hmeets : skip < chunk.length := Nat.lt_of_not_le hbefore
          have hnext : nextItem ⟨.ok chunk :: inner, skip, length⟩ = _ :=
            (if_neg hlength).trans (nextInRange_meets hchunk hmeets)
          simp only [tryUnfold, hnext]
          exact slices_cons_meets hmeets hlength (ih hrest (by omega))

/-- For every input and every range: the items are the slice of the input in chunks that are not
empty, followed by the error of the input where the range is incomplete and by nothing elsewhere.
No item is a panic, and an exact size hint stays exact. -/
theorem rangedStorageStream_exact (body : StorageByteStream) (skip length : ℕ)
    (hchunks : ChunksFit body.inner) :
    Slices (rangedStorageStream body skip length).items body.inner skip length ∧
      (body.sizeHint = some (okChunks body.inner).flatten.length →
        (rangedStorageStream body skip length).sizeHint =
          some (((okChunks body.inner).flatten.drop skip).take length).length) := by
  refine ⟨tryUnfold_slices hchunks (Nat.lt_succ_self _), fun hhint => ?_⟩
  simp only [rangedStorageStream, hhint, Option.map_some, List.length_take, List.length_drop,
    Nat.min_comm]

/-- The range ends inside of the third chunk, so the error behind it is not reached. -/
def sampleBody : StorageByteStream :=
  ⟨[.ok [1, 2, 3], .ok [], .ok [4, 5], .error (.missingBlob [])], some 5⟩

theorem rangedStorageStream_exact_trimmed :
    Slices (rangedStorageStream sampleBody 2 2).items sampleBody.inner 2 2 ∧
      ((rangedStorageStream sampleBody 2 2).sizeHint = some 2) := by
  obtain ⟨hslices, hhint⟩ := rangedStorageStream_exact sampleBody 2 2
    (by simp [ChunksFit, sampleBody, okChunks, u64Max])
  exact ⟨hslices, hhint rfl⟩

example : (rangedStorageStream sampleBody 2 2).items = [.ok [3], .ok [4]] := by rfl

end GraphqlOrmStorage.RangedStream
