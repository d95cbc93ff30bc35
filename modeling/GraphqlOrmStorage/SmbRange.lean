import GraphqlOrmStorage.Smb

/-!
# Range reads through the SMB backend

The SMB backend has no range read of its own: the trait's default skips and
trims the chunks of `get_blob`. A server that answers truthfully for a content
may still deliver it in pieces of any size; whatever the pieces, the range is
cut out of the content at the same two places.
-/
namespace GraphqlOrmStorage.Smb

open Text Program Prog

/-- The stream of `ranged_storage_stream`: what is still to be skipped and to be delivered. -/
inductive RangedSource where
  | active (source : BodySource) (skip remaining : ℕ)
  | finished

namespace RangedSource

/-- The loop of the stream: chunks before the range are skipped, the first one that reaches it
is trimmed. -/
def advance : ℕ → BodySource → ℕ → ℕ → SmbM (Option (Except StorageError Bytes) × RangedSource)
  | 0, source, _, _ => do
    source.drop
    return (none, finished)
  | fuel + 1, source, skip, remaining => do
    match ← source.next with
    | (none, source) => do
      source.drop
      return (none, finished)
    | (some (.error e), source) => do
      source.drop
      return (some (.error e), finished)
    | (some (.ok chunk), source) =>
      if chunk.length ≤ skip then advance fuel source (skip - chunk.length) remaining
      else
        let takeLen := min (chunk.length - skip) remaining
        return (some (.ok ((chunk.drop skip).take takeLen)), active source 0 (remaining - takeLen))

/-- One item of the stream. -/
def next : RangedSource → SmbM (Option (Except StorageError Bytes) × RangedSource)
  | finished => return (none, finished)
  | active source skip remaining =>
    if remaining = 0 then do
      source.drop
      return (none, finished)
    else advance source.bound source skip remaining

def drop : RangedSource → SmbM Unit
  | active source _ _ => source.drop
  | finished => return ()

end RangedSource

/-- `BlobBody` of a range read. -/
structure SmbRangeBody where
  key : Str
  sizeBytes : ℕ
  sizeHint : ℕ
  body : RangedSource

/-- The trait's default `get_blob_range`. -/
def getBlobRange (config : SmbStorageConfig) (key : Str) (start stop : ℕ) :
    SmbM (Except StorageError SmbRangeBody) :=
  if stop < start then
    return .error (.preconditionFailed key "range end is before range start".toList)
  else do
    match ← getBlob config key with
    | .error e => return .error e
    | .ok blob =>
      return .ok ⟨blob.key, blob.sizeBytes, min (blob.sizeBytes - start) (stop - start),
        .active blob.body start (stop - start)⟩

/-- The loop of `collect_storage_stream` over a ranged stream; the first argument bounds its
items. -/
def collectRanged : ℕ → RangedSource → Bytes → SmbM (Except StorageError Bytes)
  | 0, source, bytes => do
    source.drop
    return .ok bytes
  | fuel + 1, source, bytes => do
    match ← source.next with
    | (none, source) => do
      source.drop
      return .ok bytes
    | (some (.error e), source) => do
      source.drop
      return .error e
    | (some (.ok chunk), source) => collectRanged fuel source (bytes ++ chunk)

/-- `collect_storage_stream` on a range. The size hint is allocated up front, and no item of the
stream is empty. -/
def collectRange (body : SmbRangeBody) : SmbM (Except Stop Bytes) :=
  if isizeMax < body.sizeHint then do
    body.body.drop
    return .error .panic
  else do
    match ← collectRanged (body.sizeHint + 1) body.body [] with
    | .ok bytes => return .ok bytes
    | .error e => return .error (.error e)

/-- `get_blob_range` followed by `collect_storage_stream`. -/
def readRange (config : SmbStorageConfig) (key : Str) (start stop : ℕ) :
    SmbM (Except Stop Bytes) := do
  match ← getBlobRange config key start stop with
  | .error e => return .error (.error e)
  | .ok body => collectRange body

/-! ### Truthful servers -/

variable {α : Type}

theorem runsTo_request {c : SmbCall} {k : SmbCall.Reply c → SmbM α}
    {log : List (Sigma Requests.Reply)} {a : α} : RunsTo ((request c).bind k) log a ↔
      ∃ r rest, log = ⟨c, r⟩ :: rest ∧ RunsTo (k r) rest a := runsTo_call

/-- One item of an open body: the end, where the file is closed, some bytes that a read delivered,
or an error, after a read that failed or delivered nothing. -/
theorem next_cases {log : List (Sigma Requests.Reply)} {file offset size : ℕ}
    {item : Option (Except StorageError Bytes)} {source : BodySource}
    (h : RunsTo (BodySource.blob file offset size).next log (item, source)) :
    (size ≤ offset ∧ source = .finished ∧
      ∃ reply, log = [⟨.close file, reply⟩, ⟨.releasePermit, ()⟩] ∧
        (reply = .ok () ∧ item = none ∨ reply ≠ .ok () ∧ ∃ e, item = some (.error e))) ∨
    (offset < size ∧ ∃ bytes, bytes ≠ [] ∧
      log = [⟨.readBlock file (min (size - offset) readChunkSize) offset, .ok bytes⟩] ∧
      item = some (.ok bytes) ∧ source = .blob file (saturatingAdd offset bytes.length) size) ∨
    (offset < size ∧ source = .finished ∧ (∃ e, item = some (.error e)) ∧
      ∃ reply, log = [⟨.readBlock file (min (size - offset) readChunkSize) offset, reply⟩,
        ⟨.dropFile file, ()⟩, ⟨.releasePermit, ()⟩] ∧ ∀ bytes, reply = .ok bytes → bytes = []) := by
  by_cases hend : size ≤ offset
  · simp only [BodySource.next, if_pos hend] at h
    obtain ⟨reply, rest, hlog, hclose⟩ := runsTo_request.mp h
    left
    rcases reply with (_ | _) | _
    all_goals
      obtain ⟨_, rest', hlog', hdone⟩ := runsTo_request.mp hclose
      obtain ⟨hnil, hitem⟩ := runsTo_ret.mp hdone
      obtain ⟨hitem, hsource⟩ := Prod.mk.inj hitem
      subst hlog hlog' hnil hitem
      exact ⟨hend, hsource, _, rfl, by simp⟩
  · simp only [BodySource.next, if_neg hend] at h
    obtain ⟨reply, rest, hlog, hread⟩ := runsTo_request.mp h
    have hlt : offset < size := Nat.lt_of_not_le hend
    -- A failed read and an empty one both give up the file and the permit.
    have hlost : ∀ {e : StorageError}, RunsTo ((request (.dropFile file)).bind fun _ =>
          (request .releasePermit).bind fun _ => .ret (some (.error e), BodySource.finished)) rest
          (item, source) →
        source = .finished ∧ (∃ e, item = some (.error e)) ∧
          rest = [⟨.dropFile file, ()⟩, ⟨.releasePermit, ()⟩] := by
      intro e hdrop
      obtain ⟨_, rest', hrest, hrelease⟩ := runsTo_request.mp hdrop
      obtain ⟨_, rest'', hrest', hdone⟩ := runsTo_request.mp hrelease
      obtain ⟨hnil, hitem⟩ := runsTo_ret.mp hdone
      obtain ⟨hitem, hsource⟩ := Prod.mk.inj hitem
      exact ⟨hsource, ⟨e, hitem⟩, by rw [hrest, hrest', hnil]⟩
    right
    rcases reply with (_ | _) | (_ | ⟨b, bytes⟩)
    · obtain ⟨hsource, he, hrest⟩ := hlost hread
      exact Or.inr ⟨hlt, hsource, he, _, by rw [hlog, hrest], by simp⟩
    · obtain ⟨hsource, he, hrest⟩ := hlost hread
      exact Or.inr ⟨hlt, hsource, he, _, by rw [hlog, hrest], by simp⟩
    · obtain ⟨hsource, he, hrest⟩ := hlost hread
      exact Or.inr ⟨hlt, hsource, he, _, by rw [hlog, hrest], by simp⟩
    · obtain ⟨hnil, hitem⟩ := runsTo_ret.mp hread
      obtain ⟨hitem, hsource⟩ := Prod.mk.inj hitem
      exact Or.inl ⟨hlt, b :: bytes, by simp, by rw [hlog, hnil], hitem, hsource⟩

/-- The replies of a server on which the opened file holds `c` and nothing goes wrong. A read
may come short, but before the end of the file it delivers something. -/
def Truthful (c : Bytes) : Sigma Requests.Reply → Prop
  | ⟨.acquirePermit, reply⟩ => reply = true
  | ⟨.openExisting _ _, reply⟩ => ∃ h, reply = .ok (.file h)
  | ⟨.queryInfo _, reply⟩ => reply = .ok c.length
  | ⟨.readBlock _ length offset, reply⟩ => ∃ bytes, reply = .ok bytes ∧
      bytes <+: (c.drop offset).take length ∧ (bytes = [] → (c.drop offset).take length = [])
  | ⟨.close _, reply⟩ => reply = .ok ()
  | _ => True

variable {c : Bytes} {log : List (Sigma Requests.Reply)}

/-- One item of an open body: the end where the offset has reached the size, else some bytes at
the offset. -/
theorem next_truthful (hc : c.length < 2 ^ 63) {file offset : ℕ}
    {item : Option (Except StorageError Bytes)} {source : BodySource}
    (h : RunsTo (BodySource.blob file offset c.length).next log (item, source))
    (ht : ∀ e ∈ log, Truthful c e) :
    (c.length ≤ offset ∧ item = none ∧ source = .finished) ∨
    (offset < c.length ∧ ∃ bytes, item = some (.ok bytes) ∧ bytes ≠ [] ∧
      bytes <+: c.drop offset ∧ source = .blob file (offset + bytes.length) c.length) := by
  have hsome : offset < c.length →
      (c.drop offset).take (min (c.length - offset) readChunkSize) ≠ [] := by
    intro hlt hnil
    have hlen := congrArg List.length hnil
    have hsize : 0 < readChunkSize := by decide
    simp only [List.length_take, List.length_drop, List.length_nil] at hlen
    omega
  rcases next_cases h with ⟨hle, hsource, reply, hlog, hend⟩ |
    ⟨hlt, bytes, hne, hlog, hitem, hsource⟩ | ⟨hlt, _, _, reply, hlog, hempty⟩
  · have hreply : reply = .ok () := ht ⟨.close file, reply⟩ (by simp [hlog])
    rcases hend with ⟨_, hitem⟩ | ⟨hne, _⟩
    · exact Or.inl ⟨hle, hitem, hsource⟩
    · exact absurd hreply hne
  · obtain ⟨bytes', hreply, htake, _⟩ := ht _ (by rw [hlog]; exact List.mem_cons_self ..)
    obtain rfl := Except.ok.inj hreply
    have hwhole : bytes <+: c.drop offset := htake.trans (List.take_prefix _ _)
    have hlen := hwhole.length_le
    rw [List.length_drop] at hlen
    have hsum : saturatingAdd offset bytes.length = offset + bytes.length :=
      saturatingAdd_eq (m := c.length) (by omega) hc
    rw [hsum] at hsource
    exact Or.inr ⟨hlt, bytes, hitem, hne, hwhole, hsource⟩
  · obtain ⟨bytes, hreply, _, hnone⟩ := ht _ (by rw [hlog]; exact List.mem_cons_self ..)
    exact absurd (hnone (hempty bytes hreply)) (hsome hlt)

/-- Cutting a chunk at both ends, and the rest of the range behind it. -/
theorem take_drop_chunk {chunk : Bytes} {offset skip : ℕ} (hchunk : chunk <+: c.drop offset)
    (hskip : skip < chunk.length) (remaining : ℕ) :
    (c.drop (offset + skip)).take remaining =
      (chunk.drop skip).take (min (chunk.length - skip) remaining) ++
        (c.drop (offset + chunk.length)).take (remaining - min (chunk.length - skip) remaining) := by
  obtain ⟨tail, htail⟩ := hchunk
  have hrest : c.drop (offset + chunk.length) = tail := by
    rw [← List.drop_drop, ← htail, List.drop_left]
  rw [← List.drop_drop, ← htail, List.drop_append_of_le_length hskip.le, List.take_append, hrest,
    List.length_drop]
  congr 1
  · rw [List.take_eq_take_iff, List.length_drop]
    omega
  · congr 1
    omega

/-- One item of a ranged stream: the end where the range holds nothing, else its first bytes. -/
theorem advance_truthful (hc : c.length < 2 ^ 63) {file fuel offset skip remaining : ℕ}
    (hrem : remaining ≠ 0) (hfuel : c.length - offset < fuel)
    {item : Option (Except StorageError Bytes)} {source : RangedSource}
    (h : RunsTo (RangedSource.advance fuel (.blob file offset c.length) skip remaining) log
      (item, source)) (ht : ∀ e ∈ log, Truthful c e) :
    (c.length ≤ offset + skip ∧ item = none ∧ source = .finished) ∨
    ∃ bytes offset' remaining', item = some (.ok bytes) ∧ bytes ≠ [] ∧
      source = .active (.blob file offset' c.length) 0 remaining' ∧
      (c.drop (offset + skip)).take remaining = bytes ++ (c.drop offset').take remaining' := by
  induction fuel generalizing offset skip log with
  | zero => omega
  | succ fuel ih =>
    obtain ⟨first, ⟨chunk?, source'⟩, second, hlog, hnext, hrun⟩ := runsTo_bind.mp h
    subst hlog
    rcases next_truthful hc hnext fun e he => ht e (List.mem_append_left _ he) with
      ⟨hend, hitem, hsource⟩ | ⟨hlt, chunk, hitem, hne, hchunk, hsource⟩
    · subst hitem hsource
      obtain ⟨_, hpair⟩ := runsTo_ret.mp hrun
      obtain ⟨hitem, hsource⟩ := Prod.mk.inj hpair
      exact Or.inl ⟨by omega, hitem, hsource⟩
    · subst hitem hsource
      have hpos : 0 < chunk.length := List.length_pos_iff.mpr hne
      have hlen := hchunk.length_le
      rw [List.length_drop] at hlen
      by_cases hskip : chunk.length ≤ skip
      · simp only [if_pos hskip] at hrun
        have hsum : offset + chunk.length + (skip - chunk.length) = offset + skip := by omega
        have hrest := ih (by omega) hrun fun e he => ht e (List.mem_append_right _ he)
        rwa [hsum] at hrest
      · simp only [if_neg hskip] at hrun
        obtain ⟨_, hpair⟩ := runsTo_ret.mp hrun
        obtain ⟨hitem, hsource⟩ := Prod.mk.inj hpair
        refine Or.inr ⟨_, _, _, hitem, ?_, hsource, take_drop_chunk hchunk (by omega) remaining⟩
        rw [← List.length_pos_iff, List.length_take, List.length_drop]
        omega

/-- Collecting a ranged stream gives the range of the content. -/
theorem collectRanged_truthful (hc : c.length < 2 ^ 63) {file fuel offset skip remaining : ℕ}
    {bytes : Bytes} (hfuel : ((c.drop (offset + skip)).take remaining).length < fuel)
    {result : Except StorageError Bytes}
    (h : RunsTo (collectRanged fuel (.active (.blob file offset c.length) skip remaining) bytes) log
      result) (ht : ∀ e ∈ log, Truthful c e) :
    result = .ok (bytes ++ (c.drop (offset + skip)).take remaining) := by
  induction fuel generalizing offset skip remaining bytes log with
  | zero => omega
  | succ fuel ih =>
    obtain ⟨first, ⟨item, source⟩, second, hlog, hnext, hrun⟩ := runsTo_bind.mp h
    subst hlog
    by_cases hrem : remaining = 0
    · simp only [RangedSource.next, if_pos hrem] at hnext
      obtain ⟨_, _, _, _, _, hpair⟩ := runsTo_bind.mp hnext
      obtain ⟨_, hpair⟩ := runsTo_ret.mp hpair
      obtain ⟨hitem, hsource⟩ := Prod.mk.inj hpair
      subst hitem hsource
      obtain ⟨_, hresult⟩ := runsTo_ret.mp hrun
      rw [hresult, hrem, List.take_zero, List.append_nil]
    · simp only [RangedSource.next, if_neg hrem] at hnext
      have hbound : c.length - offset < (BodySource.blob file offset c.length).bound := by
        simp only [BodySource.bound]
        omega
      rcases advance_truthful hc hrem hbound hnext fun e he => ht e (List.mem_append_left _ he) with
        ⟨hend, hitem, hsource⟩ | ⟨chunk, offset', remaining', hitem, hne, hsource, hsplit⟩
      · subst hitem hsource
        obtain ⟨_, hresult⟩ := runsTo_ret.mp hrun
        rw [hresult, List.drop_eq_nil_of_le hend, List.take_nil, List.append_nil]
      · subst hitem hsource
        rw [hsplit, List.length_append] at hfuel
        have hpos : 0 < chunk.length := List.length_pos_iff.mpr hne
        have hrest := ih (by rw [Nat.add_zero]; omega) hrun
          fun e he => ht e (List.mem_append_right _ he)
        rw [hrest, hsplit, Nat.add_zero, List.append_assoc]

theorem openFile_truthful {config : SmbStorageConfig} {key : Str} (hk : ValidKey key)
    {access : Access} {result : Except StorageError Handle}
    (h : RunsTo (openFile config key access) log result) (ht : ∀ e ∈ log, Truthful c e) :
    ∃ file, result = .ok file := by
  simp only [openFile, remotePath_of_valid config hk] at h
  obtain ⟨reply, rest, hlog, hrun⟩ := runsTo_request.mp h
  subst hlog
  obtain ⟨file, hreply⟩ := ht _ (List.mem_cons_self ..)
  subst hreply
  obtain ⟨_, hresult⟩ := runsTo_ret.mp hrun
  exact ⟨file, hresult⟩

theorem transferPermit_truthful {result : Except StorageError Unit}
    (h : RunsTo transferPermit log result) (ht : ∀ e ∈ log, Truthful c e) : result = .ok () := by
  obtain ⟨reply, rest, hlog, hrun⟩ := runsTo_request.mp h
  subst hlog
  have hreply : reply = true := ht ⟨.acquirePermit, reply⟩ (List.mem_cons_self ..)
  subst hreply
  exact (runsTo_ret.mp hrun).2

/-- `get_blob` delivers the whole content, from its first byte on. -/
theorem getBlob_truthful {config : SmbStorageConfig} {key : Str} (hk : ValidKey key)
    {result : Except StorageError SmbBody} (h : RunsTo (getBlob config key) log result)
    (ht : ∀ e ∈ log, Truthful c e) :
    ∃ file, result = .ok ⟨key, c.length, .blob file 0 c.length⟩ := by
  simp only [getBlob, validateBlobKey_eq_ok.mpr hk, bind_eq_bind] at h
  obtain ⟨first, permit, second, hlog, hpermit, hrun⟩ := runsTo_bind.mp h
  subst hlog
  obtain rfl := transferPermit_truthful hpermit fun e he => ht e (List.mem_append_left _ he)
  obtain ⟨third, opened, fourth, hlog, hopen, hrun⟩ := runsTo_bind.mp hrun
  subst hlog
  obtain ⟨file, hfile⟩ := openFile_truthful hk hopen fun e he => ht e (by simp [he])
  subst hfile
  obtain ⟨size, rest', hlog, hend⟩ := runsTo_request.mp hrun
  subst hlog
  have hsize : size = .ok c.length := ht ⟨.queryInfo file, size⟩ (by simp)
  subst hsize
  obtain ⟨_, hresult⟩ := runsTo_ret.mp hend
  exact ⟨file, hresult⟩

/-- A range read from a truthful server gives the range of the content. -/
theorem readRange_truthful (hc : c.length < 2 ^ 63) {config : SmbStorageConfig} {key : Str}
    (hk : ValidKey key) {start stop : ℕ} (hle : start ≤ stop) {result : Except Stop Bytes}
    (h : RunsTo (readRange config key start stop) log result) (ht : ∀ e ∈ log, Truthful c e) :
    result = .ok ((c.drop start).take (stop - start)) := by
  obtain ⟨first, opened, second, hlog, hopen, hrun⟩ := runsTo_bind.mp h
  subst hlog
  simp only [getBlobRange, if_neg (Nat.not_lt.mpr hle)] at hopen
  obtain ⟨third, blob, fourth, hlog, hget, hopen⟩ := runsTo_bind.mp hopen
  obtain ⟨file, hblob⟩ := getBlob_truthful hk hget fun e he => ht e (by simp [hlog, he])
  subst hblob
  obtain ⟨_, hopened⟩ := runsTo_ret.mp hopen
  subst hopened
  have hhint : ¬ isizeMax < min (c.length - start) (stop - start) := by
    unfold isizeMax
    omega
  simp only [collectRange, if_neg hhint] at hrun
  obtain ⟨fifth, collected, sixth, hlog', hcollect, hrun⟩ := runsTo_bind.mp hrun
  have hdone := collectRanged_truthful hc (by
    rw [List.length_take, List.length_drop]
    omega) hcollect fun e he => ht e (by simp [hlog', he])
  rw [hdone] at hrun
  obtain ⟨_, hresult⟩ := runsTo_ret.mp hrun
  rw [hresult, Nat.zero_add, List.nil_append]

/-! ### How much a stream delivers -/

/-- The size of the file is reported right, and no read returns more than was asked for;
anything may fail. -/
def Sized (c : Bytes) : Sigma Requests.Reply → Prop
  | ⟨.queryInfo _, .ok size⟩ => size = c.length
  | ⟨.readBlock _ length _, .ok bytes⟩ => bytes.length ≤ length
  | _ => True

/-- One item of an open body: the end at the size, an error, or some bytes that stay within the
size. -/
theorem next_sized {file offset size : ℕ} (hsize : size < 2 ^ 63) (hoff : offset ≤ size)
    {item : Option (Except StorageError Bytes)} {source : BodySource}
    (h : RunsTo (BodySource.blob file offset size).next log (item, source))
    (ht : ∀ e ∈ log, Sized c e) :
    (offset = size ∧ item = none ∧ source = .finished) ∨
    (∃ e, item = some (.error e)) ∨
    ∃ bytes, item = some (.ok bytes) ∧ bytes ≠ [] ∧ offset + bytes.length ≤ size ∧
      source = .blob file (offset + bytes.length) size := by
  rcases next_cases h with ⟨hle, hsource, _, _, ⟨_, hitem⟩ | ⟨_, herror⟩⟩ |
    ⟨hlt, bytes, hne, hlog, hitem, hsource⟩ | ⟨_, _, herror, _⟩
  · exact Or.inl ⟨by omega, hitem, hsource⟩
  · exact Or.inr (Or.inl herror)
  · have hlen : bytes.length ≤ min (size - offset) readChunkSize :=
      ht ⟨.readBlock file (min (size - offset) readChunkSize) offset, .ok bytes⟩ (by simp [hlog])
    have hsum : saturatingAdd offset bytes.length = offset + bytes.length :=
      saturatingAdd_eq (m := size) (by omega) hsize
    rw [hsum] at hsource
    exact Or.inr (Or.inr ⟨bytes, hitem, hne, by omega, hsource⟩)
  · exact Or.inr (Or.inl herror)

/-- Collecting an open body that ends well gives as many bytes as were left of its size. -/
theorem collectBody_sized {file size : ℕ} (hsize : size < 2 ^ 63) {fuel offset : ℕ}
    (hoff : offset ≤ size) (hfuel : size - offset < fuel) {bytes b : Bytes}
    (h : RunsTo (collectBody fuel (.blob file offset size) bytes) log (.ok b))
    (ht : ∀ e ∈ log, Sized c e) : b.length = bytes.length + (size - offset) := by
  induction fuel generalizing offset bytes log with
  | zero => omega
  | succ fuel ih =>
    obtain ⟨first, ⟨item, source⟩, second, hlog, hnext, hrun⟩ := runsTo_bind.mp h
    subst hlog
    rcases next_sized hsize hoff hnext fun e he => ht e (List.mem_append_left _ he) with
      ⟨hend, hitem, hsource⟩ | ⟨e, hitem⟩ | ⟨chunk, hitem, hne, hle, hsource⟩
    · subst hitem hsource
      have hb := (runsTo_ret.mp hrun).2
      rw [Except.ok.inj hb]
      omega
    · subst hitem
      obtain ⟨_, _, _, _, _, hrun⟩ := runsTo_bind.mp hrun
      cases (runsTo_ret.mp hrun).2
    · subst hitem hsource
      have hpos : 0 < chunk.length := List.length_pos_iff.mpr hne
      have hrest := ih hle (by omega) hrun fun e he => ht e (List.mem_append_right _ he)
      rw [List.length_append] at hrest
      omega

/-- One item of a ranged stream: the end behind the range, an error, or some bytes; what is left
of the range shrinks by them. -/
theorem advance_sized {file size : ℕ} (hsize : size < 2 ^ 63) {fuel offset skip remaining : ℕ}
    (hrem : remaining ≠ 0) (hoff : offset ≤ size) (hfuel : size - offset < fuel)
    {item : Option (Except StorageError Bytes)} {source : RangedSource}
    (h : RunsTo (RangedSource.advance fuel (.blob file offset size) skip remaining) log
      (item, source)) (ht : ∀ e ∈ log, Sized c e) :
    (size ≤ offset + skip ∧ item = none ∧ source = .finished) ∨
    (∃ e, item = some (.error e)) ∨
    ∃ bytes offset' remaining', item = some (.ok bytes) ∧ bytes ≠ [] ∧ offset' ≤ size ∧
      source = .active (.blob file offset' size) 0 remaining' ∧
      min (size - (offset + skip)) remaining = bytes.length + min (size - offset') remaining' := by
  induction fuel generalizing offset skip log with
  | zero => omega
  | succ fuel ih =>
    obtain ⟨first, ⟨chunk?, source'⟩, second, hlog, hnext, hrun⟩ := runsTo_bind.mp h
    subst hlog
    rcases next_sized hsize hoff hnext fun e he => ht e (List.mem_append_left _ he) with
      ⟨hend, hitem, hsource⟩ | ⟨e, hitem⟩ | ⟨chunk, hitem, hne, hle, hsource⟩
    · subst hitem hsource
      obtain ⟨hitem, hsource⟩ := Prod.mk.inj (runsTo_ret.mp hrun).2
      exact Or.inl ⟨by omega, hitem, hsource⟩
    · subst hitem
      obtain ⟨_, _, _, _, _, hrun⟩ := runsTo_bind.mp hrun
      obtain ⟨hitem, _⟩ := Prod.mk.inj (runsTo_ret.mp hrun).2
      exact Or.inr (Or.inl ⟨e, hitem⟩)
    · subst hitem hsource
      have hpos : 0 < chunk.length := List.length_pos_iff.mpr hne
      by_cases hskip : chunk.length ≤ skip
      · simp only [if_pos hskip] at hrun
        have hsum : offset + chunk.length + (skip - chunk.length) = offset + skip := by omega
        have hrest := ih hle (by omega) hrun fun e he => ht e (List.mem_append_right _ he)
        rwa [hsum] at hrest
      · simp only [if_neg hskip] at hrun
        obtain ⟨hitem, hsource⟩ := Prod.mk.inj (runsTo_ret.mp hrun).2
        refine Or.inr (Or.inr ⟨_, _, _, hitem, ?_, hle, hsource, ?_⟩)
        · rw [← List.length_pos_iff, List.length_take, List.length_drop]
          omega
        · rw [List.length_take, List.length_drop]
          omega

/-- Collecting a ranged stream that ends well gives as many bytes as the range has within the
size. -/
theorem collectRanged_sized {file size : ℕ} (hsize : size < 2 ^ 63)
    {fuel offset skip remaining : ℕ} (hoff : offset ≤ size)
    (hfuel : min (size - (offset + skip)) remaining < fuel) {bytes b : Bytes}
    (h : RunsTo (collectRanged fuel (.active (.blob file offset size) skip remaining) bytes) log
      (.ok b)) (ht : ∀ e ∈ log, Sized c e) :
    b.length = bytes.length + min (size - (offset + skip)) remaining := by
  induction fuel generalizing offset skip remaining bytes log with
  | zero => omega
  | succ fuel ih =>
    obtain ⟨first, ⟨item, source⟩, second, hlog, hnext, hrun⟩ := runsTo_bind.mp h
    subst hlog
    by_cases hrem : remaining = 0
    · simp only [RangedSource.next, if_pos hrem] at hnext
      obtain ⟨_, _, _, _, _, hpair⟩ := runsTo_bind.mp hnext
      obtain ⟨hitem, hsource⟩ := Prod.mk.inj (runsTo_ret.mp hpair).2
      subst hitem hsource
      rw [Except.ok.inj (runsTo_ret.mp hrun).2]
      omega
    · simp only [RangedSource.next, if_neg hrem] at hnext
      have hbound : size - offset < (BodySource.blob file offset size).bound := by
        simp only [BodySource.bound]
        omega
      rcases advance_sized hsize hrem hoff hbound hnext fun e he =>
          ht e (List.mem_append_left _ he) with
        ⟨hend, hitem, hsource⟩ | ⟨e, hitem⟩ |
        ⟨chunk, offset', remaining', hitem, hne, hle, hsource, hsplit⟩
      · subst hitem hsource
        rw [Except.ok.inj (runsTo_ret.mp hrun).2]
        omega
      · subst hitem
        obtain ⟨_, _, _, _, _, hrun⟩ := runsTo_bind.mp hrun
        cases (runsTo_ret.mp hrun).2
      · subst hitem hsource
        have hpos : 0 < chunk.length := List.length_pos_iff.mpr hne
        have hrest := ih hle (by rw [Nat.add_zero]; omega) hrun
          fun e he => ht e (List.mem_append_right _ he)
        rw [List.length_append, Nat.add_zero] at hrest
        omega

/-- Whatever happened before, a body that `get_blob` returns is at its start and has the size of
the content. -/
theorem getBlob_sized {config : SmbStorageConfig} {key : Str} {body : SmbBody}
    (h : RunsTo (getBlob config key) log (.ok body)) (ht : ∀ e ∈ log, Sized c e) :
    ∃ file, body = ⟨key, c.length, .blob file 0 c.length⟩ := by
  by_cases hk : ValidKey key
  swap
  · simp only [getBlob, validateBlobKey_error hk] at h
    cases (runsTo_ret.mp h).2
  simp only [getBlob, validateBlobKey_eq_ok.mpr hk] at h
  obtain ⟨first, permit, second, hlog, _, hrun⟩ := runsTo_bind.mp h
  subst hlog
  cases permit with
  | error e => cases (runsTo_ret.mp hrun).2
  | ok _ =>
    obtain ⟨third, opened, fourth, hlog, _, hrun⟩ := runsTo_bind.mp hrun
    subst hlog
    cases opened with
    | error e =>
      obtain ⟨_, _, _, hrun⟩ := runsTo_request.mp hrun
      cases (runsTo_ret.mp hrun).2
    | ok file =>
      obtain ⟨reply, rest, hlog, hhead⟩ := runsTo_request.mp hrun
      subst hlog
      rcases reply with (_ | error) | size
      · obtain ⟨_, _, _, hdrop⟩ := runsTo_request.mp hhead
        obtain ⟨_, _, _, hrelease⟩ := runsTo_request.mp hdrop
        cases (runsTo_ret.mp hrelease).2
      · obtain ⟨_, _, _, hdrop⟩ := runsTo_request.mp hhead
        obtain ⟨_, _, _, hrelease⟩ := runsTo_request.mp hdrop
        cases (runsTo_ret.mp hrelease).2
      · have hsize : size = c.length := ht ⟨.queryInfo file, .ok size⟩ (by simp)
        subst hsize
        exact ⟨file, Except.ok.inj (runsTo_ret.mp hhead).2⟩

end GraphqlOrmStorage.Smb
