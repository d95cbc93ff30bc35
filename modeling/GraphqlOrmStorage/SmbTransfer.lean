import GraphqlOrmStorage.Ranges
import GraphqlOrmStorage.SmbWholeWrites

/-!
# Short writes and short reads

The server takes as much of a block as it likes and delivers as little of a read as it
likes. The writing loops carry an offset of their own into the chunk and into the file,
the reading stream carries one into the file, and the range reader trims what the stream
delivers; whatever the counts are, what was written is what is read back.
-/
namespace GraphqlOrmStorage.Smb

open Text Program Program.Prog

/-- `get_blob` followed by `collect_storage_stream`, which allocates the size up front. -/
def readBlob (config : SmbStorageConfig) (key : Str) : SmbM (Except Stop Bytes) := do
  match ← getBlob config key with
  | .error e => return .error (.error e)
  | .ok blob =>
    if isizeMax < blob.sizeBytes then do
      blob.body.drop
      return .error .panic
    else
      match ← collectBody blob.body.bound blob.body [] with
      | .ok bytes => return .ok bytes
      | .error e => return .error (.error e)

/-- The server may answer so, and every read it answers delivers something while there is
something left. -/
def ServesSome (s : Server) (c : SmbCall) (r : SmbCall.Reply c) (s' : Server) : Prop :=
  ∃ o : Choice, 1 ≤ o.count ∧ r = (s.answer o c).1 ∧ s' = (s.answer o c).2

/-- The calls of a read, with the handle it holds. -/
def readDiscipline (path : Str) : Discipline Requests (Option Handle) where
  allowed q c := match c with
    | .acquirePermit | .releasePermit | .closeResource _ | .reconnect => True
    | .openExisting p _ => p = path ∧ q = none
    | .queryInfo h | .readBlock h _ _ | .close h | .dropFile h => q = some h
    | _ => False
  next q c r := match c, r with
    | .openExisting _ _, .ok (.file h) => some h
    | .close _, _ | .dropFile _, _ => none
    | _, _ => q

/-- The file is still there, and the handle is open on it. -/
structure Readable (path : Str) (f : Handle) (b : Bytes) (s : Server) (q : Option Handle) :
    Prop where
  stored : Stored s path f b
  held : ∀ h, q = some h → s.file h = some f

section Reads

variable {path : Str} {f : Handle} {b : Bytes} {s s' : Server} {q : Option Handle}

/-- Against a file that stays every reply is truthful. -/
theorem Readable.step {c : SmbCall} {r : SmbCall.Reply c} (h : Readable path f b s q)
    (ha : (readDiscipline path).allowed q c) (hserves : ServesSome s c r s') :
    Readable path f b s' ((readDiscipline path).next q c r) ∧ Truthful b ⟨c, r⟩ := by
  obtain ⟨o, hcount, hr, hs'⟩ := hserves
  subst hr hs'
  obtain ⟨hstored, hheld⟩ := h
  cases c with
  | openExisting p access =>
    obtain ⟨hp, hq⟩ := ha
    subst hp hq
    rw [Server.answer_open_file hstored.named hstored.kept]
    refine ⟨⟨hstored.openOn f, fun h hh => ?_⟩, _, rfl⟩
    rw [Server.file_openOn, if_pos (Option.some.inj hh).symm]
  | close h =>
    exact ⟨⟨hstored.close h, fun k hk => by cases hk⟩, rfl⟩
  | dropFile h =>
    exact ⟨⟨hstored.close h, fun k hk => by cases hk⟩, trivial⟩
  | queryInfo h =>
    rw [Server.answer_queryInfo (hheld h ha), hstored.content]
    exact ⟨⟨hstored, hheld⟩, rfl⟩
  | readBlock h length offset =>
    rw [Server.answer_readBlock (hheld h ha), hstored.content]
    refine ⟨⟨hstored, hheld⟩, _, rfl, List.take_prefix_take_left (min_le_right _ _), fun he => ?_⟩
    rw [List.take_eq_nil_iff] at he ⊢
    exact he.imp_left fun hmin => by omega
  | acquirePermit => exact ⟨⟨hstored, hheld⟩, rfl⟩
  | releasePermit => exact ⟨⟨hstored, hheld⟩, trivial⟩
  | closeResource h => exact ⟨⟨hstored, hheld⟩, trivial⟩
  | reconnect => exact ⟨⟨hstored, hheld⟩, trivial⟩
  | createDirectory p => exact ha.elim
  | createFile p exclusive => exact ha.elim
  | setRename h p replace => exact ha.elim
  | setDelete h => exact ha.elim
  | writeBlock h bytes offset => exact ha.elim
  | flush h => exact ha.elim

theorem follows_request {Q β : Type} {D : Discipline Requests Q} {post : Q → β → Prop} {q : Q}
    {c : SmbCall} {g : SmbCall.Reply c → SmbM β} (ha : D.allowed q c)
    (hg : ∀ r, Follows D post (D.next q c r) (g r)) : Follows D post q ((request c).bind g) :=
  ⟨ha, hg⟩

/-- A body is read to its end, or it holds the handle. -/
def Held (q : Option Handle) (source : BodySource) : Prop :=
  (source = .finished ∧ q = none) ∨ ∃ h offset size, source = .blob h offset size ∧ q = some h

def HeldRange (q : Option Handle) (source : RangedSource) : Prop :=
  (source = .finished ∧ q = none) ∨
    ∃ body skip remaining, source = .active body skip remaining ∧ Held q body

theorem next_reads {source : BodySource} (hq : Held q source) :
    Follows (readDiscipline path) (fun q r => Held q r.2) q source.next := by
  rcases hq with ⟨hsource, hq⟩ | ⟨h, offset, size, hsource, hq⟩
  · subst hsource hq
    exact Or.inl ⟨rfl, rfl⟩
  · subst hsource hq
    simp only [BodySource.next]
    split_ifs
    · refine ⟨rfl, fun r => ?_⟩
      rcases r with (_ | _) | _ <;> exact ⟨trivial, fun _ => Or.inl ⟨rfl, rfl⟩⟩
    · refine ⟨rfl, fun r => ?_⟩
      rcases r with (_ | _) | (_ | _)
      · exact ⟨rfl, fun _ => ⟨trivial, fun _ => Or.inl ⟨rfl, rfl⟩⟩⟩
      · exact ⟨rfl, fun _ => ⟨trivial, fun _ => Or.inl ⟨rfl, rfl⟩⟩⟩
      · exact ⟨rfl, fun _ => ⟨trivial, fun _ => Or.inl ⟨rfl, rfl⟩⟩⟩
      · exact Or.inr ⟨h, _, size, rfl, rfl⟩

theorem drop_reads {source : BodySource} (hq : Held q source) :
    Follows (readDiscipline path) (fun q _ => q = none) q source.drop := by
  rcases hq with ⟨hsource, hq⟩ | ⟨h, offset, size, hsource, hq⟩
  · subst hsource hq
    rfl
  · subst hsource hq
    exact ⟨rfl, fun _ => ⟨trivial, fun _ => rfl⟩⟩

theorem collectBody_follows (fuel : ℕ) {source : BodySource} (hq : Held q source) (bytes : Bytes) :
    Follows (readDiscipline path) (fun _ _ => True) q (collectBody fuel source bytes) := by
  induction fuel generalizing q source bytes with
  | zero => exact Follows.bind (drop_reads hq) fun _ _ _ => trivial
  | succ fuel ih =>
    refine Follows.bind (next_reads hq) fun q r hr => ?_
    obtain ⟨item, source⟩ := r
    rcases item with _ | (_ | chunk)
    · exact Follows.bind (drop_reads hr) fun _ _ _ => trivial
    · exact Follows.bind (drop_reads hr) fun _ _ _ => trivial
    · exact ih hr _

theorem advance_follows (fuel : ℕ) {source : BodySource} (hq : Held q source)
    (skip remaining : ℕ) : Follows (readDiscipline path) (fun q r => HeldRange q r.2) q
      (RangedSource.advance fuel source skip remaining) := by
  induction fuel generalizing q source skip with
  | zero => exact Follows.bind (drop_reads hq) fun _ _ hq => Or.inl ⟨rfl, hq⟩
  | succ fuel ih =>
    refine Follows.bind (next_reads hq) fun q r hr => ?_
    obtain ⟨item, source⟩ := r
    rcases item with _ | (_ | chunk)
    · exact Follows.bind (drop_reads hr) fun _ _ hq => Or.inl ⟨rfl, hq⟩
    · exact Follows.bind (drop_reads hr) fun _ _ hq => Or.inl ⟨rfl, hq⟩
    · simp only
      split_ifs
      · exact ih hr _
      · exact Or.inr ⟨source, _, _, rfl, hr⟩

theorem rangedNext_follows {source : RangedSource} (hq : HeldRange q source) :
    Follows (readDiscipline path) (fun q r => HeldRange q r.2) q source.next := by
  rcases hq with ⟨hsource, hq⟩ | ⟨body, skip, remaining, hsource, hbody⟩
  · subst hsource hq
    exact Or.inl ⟨rfl, rfl⟩
  · subst hsource
    simp only [RangedSource.next]
    split_ifs
    · exact Follows.bind (drop_reads hbody) fun _ _ hq => Or.inl ⟨rfl, hq⟩
    · exact advance_follows _ hbody skip remaining

theorem rangedDrop_follows {source : RangedSource} (hq : HeldRange q source) :
    Follows (readDiscipline path) (fun _ _ => True) q source.drop := by
  rcases hq with ⟨hsource, hq⟩ | ⟨body, skip, remaining, hsource, hbody⟩
  · subst hsource
    trivial
  · subst hsource
    exact (drop_reads hbody).mono fun _ _ _ => trivial

theorem collectRanged_follows (fuel : ℕ) {source : RangedSource} (hq : HeldRange q source)
    (bytes : Bytes) :
    Follows (readDiscipline path) (fun _ _ => True) q (collectRanged fuel source bytes) := by
  induction fuel generalizing q source bytes with
  | zero => exact Follows.bind (rangedDrop_follows hq) fun _ _ _ => trivial
  | succ fuel ih =>
    refine Follows.bind (rangedNext_follows hq) fun q r hr => ?_
    obtain ⟨item, source⟩ := r
    rcases item with _ | (_ | chunk)
    · exact Follows.bind (rangedDrop_follows hr) fun _ _ _ => trivial
    · exact Follows.bind (rangedDrop_follows hr) fun _ _ _ => trivial
    · exact ih hr _

theorem openFile_follows {config : SmbStorageConfig} {key : Str} (hk : ValidKey key) :
    Follows (readDiscipline (keyPath config key)) (fun q r => match r with
      | .ok h => q = some h
      | .error _ => q = none) none (openFile config key .read) := by
  have hexpect : ∀ resource, Follows (readDiscipline (keyPath config key)) (fun q r => match r with
      | .ok h => q = some h
      | .error _ => q = none)
      ((readDiscipline (keyPath config key)).next none (.openExisting (keyPath config key) .read)
        (.ok resource)) (expectFile "open".toList "remote key is not a file".toList resource) := by
    intro resource
    cases resource with
    | file h => rfl
    | directory h => exact ⟨trivial, fun _ => rfl⟩
    | pipe h => exact ⟨trivial, fun _ => rfl⟩
  simp only [openFile, remotePath_of_valid config hk]
  refine follows_request ⟨rfl, rfl⟩ fun r => ?_
  cases r with
  | ok resource => exact hexpect resource
  | error failure =>
    split
    · rename_i hresult
      cases failure <;> cases hresult
    · split_ifs
      · refine ⟨trivial, fun r => ?_⟩
        cases r with
        | error e => rfl
        | ok _ =>
          refine ⟨⟨rfl, rfl⟩, fun r => ?_⟩
          rcases r with (_ | _) | resource
          · rfl
          · rfl
          · exact hexpect resource
      · rfl

theorem transferPermit_reads : Follows (readDiscipline path) (fun q _ => q = none) none
    transferPermit := by
  refine ⟨trivial, fun r => ?_⟩
  cases r <;> rfl

theorem getBlob_reads {config : SmbStorageConfig} {key : Str} (hk : ValidKey key) :
    Follows (readDiscipline (keyPath config key)) (fun q r => match r with
      | .ok blob => Held q blob.body
      | .error _ => q = none) none (getBlob config key) := by
  simp only [getBlob, validateBlobKey_eq_ok.mpr hk]
  refine Follows.bind transferPermit_reads fun q r hq => ?_
  subst hq
  cases r with
  | error e => rfl
  | ok _ =>
    refine Follows.bind (openFile_follows hk) fun q r hq => ?_
    cases r with
    | error e => exact ⟨trivial, fun _ => hq⟩
    | ok h =>
      refine ⟨hq, fun r => ?_⟩
      rcases r with (_ | _) | size
      · exact ⟨hq, fun _ => ⟨trivial, fun _ => rfl⟩⟩
      · exact ⟨hq, fun _ => ⟨trivial, fun _ => rfl⟩⟩
      · exact Or.inr ⟨h, 0, size, rfl, hq⟩

theorem readBlob_follows {config : SmbStorageConfig} {key : Str} (hk : ValidKey key) :
    Follows (readDiscipline (keyPath config key)) (fun _ _ => True) none (readBlob config key) := by
  refine Follows.bind (getBlob_reads hk) fun q r hq => ?_
  cases r with
  | error e => trivial
  | ok blob =>
    simp only
    split_ifs
    · exact Follows.bind (drop_reads hq) fun _ _ _ => trivial
    · refine Follows.bind (collectBody_follows _ hq []) fun _ r _ => ?_
      cases r <;> trivial

theorem readRange_follows {config : SmbStorageConfig} {key : Str} (hk : ValidKey key)
    (start stop : ℕ) : Follows (readDiscipline (keyPath config key)) (fun _ _ => True) none
      (readRange config key start stop) := by
  unfold readRange getBlobRange
  split_ifs
  · trivial
  · simp only [bind_eq_bind, Prog.bind_assoc]
    refine Follows.bind (getBlob_reads hk) fun q r hq => ?_
    cases r with
    | error e => trivial
    | ok blob =>
      have hrange : HeldRange q (.active blob.body start (stop - start)) :=
        Or.inr ⟨_, _, _, rfl, hq⟩
      simp only [pure_eq_ret, ret_bind, collectRange]
      split_ifs
      · exact Follows.bind (rangedDrop_follows hrange) fun _ _ _ => trivial
      · refine Follows.bind (collectRanged_follows _ hrange []) fun _ r _ => ?_
        cases r <;> trivial

end Reads

/-! ### Whole reads -/

section Whole

variable {c b : Bytes} {log : List (Sigma Requests.Reply)}

/-- Collecting a body gives the rest of the content. -/
theorem collectBody_truthful (hc : c.length < 2 ^ 63) {file fuel offset : ℕ} {bytes : Bytes}
    (hfuel : c.length - offset < fuel) {result : Except StorageError Bytes}
    (h : RunsTo (collectBody fuel (.blob file offset c.length) bytes) log result)
    (ht : ∀ e ∈ log, Truthful c e) : result = .ok (bytes ++ c.drop offset) := by
  induction fuel generalizing offset bytes log with
  | zero => omega
  | succ fuel ih =>
    obtain ⟨first, ⟨item, source⟩, second, hlog, hnext, hrun⟩ := runsTo_bind.mp h
    subst hlog
    rcases next_truthful hc hnext fun e he => ht e (List.mem_append_left _ he) with
      ⟨hend, hitem, hsource⟩ | ⟨hlt, chunk, hitem, hne, ⟨rest, hrest⟩, hsource⟩
    · subst hitem hsource
      rw [(runsTo_ret.mp hrun).2, List.drop_eq_nil_of_le hend, List.append_nil]
    · subst hitem hsource
      have hpos : 0 < chunk.length := List.length_pos_iff.mpr hne
      have hdrop : c.drop (offset + chunk.length) = rest := by
        rw [← List.drop_drop, ← hrest, List.drop_left]
      rw [ih (by omega) hrun fun e he => ht e (List.mem_append_right _ he), hdrop,
        List.append_assoc, hrest]

/-- A whole read from a truthful server gives the content. -/
theorem readBlob_truthful (hc : c.length < 2 ^ 63) {config : SmbStorageConfig} {key : Str}
    (hk : ValidKey key) {result : Except Stop Bytes}
    (h : RunsTo (readBlob config key) log result) (ht : ∀ e ∈ log, Truthful c e) :
    result = .ok c := by
  obtain ⟨first, opened, second, hlog, hopen, hrun⟩ := runsTo_bind.mp h
  subst hlog
  obtain ⟨file, hopened⟩ := getBlob_truthful hk hopen fun e he => ht e (List.mem_append_left _ he)
  subst hopened
  have hcapacity : ¬ isizeMax < c.length := by
    unfold isizeMax
    omega
  simp only [if_neg hcapacity] at hrun
  obtain ⟨third, collected, fourth, hlog, hcollect, hrun⟩ := runsTo_bind.mp hrun
  subst hlog
  have hdone := collectBody_truthful hc (by simp [BodySource.bound]) hcollect
    fun e he => ht e (by simp [he])
  subst hdone
  rw [(runsTo_ret.mp hrun).2]
  simp

/-! ### Counts of zero -/

/-- The server took nothing of a block. -/
def ZeroWrite : Sigma Requests.Reply → Prop
  | ⟨.writeBlock _ _ _, .ok 0⟩ => True
  | _ => False

/-- The server delivered nothing to a read. -/
def ZeroRead : Sigma Requests.Reply → Prop
  | ⟨.readBlock _ _ _, .ok []⟩ => True
  | _ => False

/-- Neither reads nor writes. -/
def quietDiscipline : Discipline Requests Unit where
  allowed _ c := match c with
    | .writeBlock _ _ _ | .readBlock _ _ _ => False
    | _ => True
  next q _ _ := q

/-- The program neither reads nor writes. -/
def Quiet {α : Type} (p : SmbM α) : Prop := Follows quietDiscipline (fun _ _ => True) () p

theorem Quiet.nonzero {α : Type} {p : SmbM α} (hq : Quiet p) {a : α} (h : RunsTo p log a) :
    ∀ e ∈ log, ¬ ZeroWrite e ∧ ¬ ZeroRead e := by
  intro e he
  obtain ⟨_, hallowed⟩ := Follows.allowed_of_mem hq h e he
  obtain ⟨c, r⟩ := e
  cases c with
  | writeBlock h bytes offset => exact hallowed.elim
  | readBlock h length offset => exact hallowed.elim
  | _ => exact ⟨id, id⟩

theorem ensureSegments_quiet (current : Str) (segments : List Str) :
    Quiet (ensureSegments current segments) := by
  induction segments generalizing current with
  | nil => trivial
  | cons segment rest ih =>
    refine ⟨trivial, fun r => ?_⟩
    rcases r with (_ | _) | resource
    · trivial
    · trivial
    · refine ⟨trivial, fun r => ?_⟩
      cases r with
      | error e => trivial
      | ok _ => exact ih _

theorem ensureParentDirectories_quiet (config : SmbStorageConfig) (key : Str) :
    Quiet (ensureParentDirectories config key) := by
  unfold ensureParentDirectories
  split
  · trivial
  · split
    · trivial
    · exact ensureSegments_quiet _ _

theorem expectFile_quiet (operation message : Str) (resource : Resource) :
    Quiet (expectFile operation message resource) := by
  cases resource with
  | file h => trivial
  | directory h => exact ⟨trivial, fun _ => trivial⟩
  | pipe h => exact ⟨trivial, fun _ => trivial⟩

theorem openFile_quiet (config : SmbStorageConfig) (key : Str) (access : Access) :
    Quiet (openFile config key access) := by
  unfold openFile
  split
  · trivial
  · refine follows_request trivial fun r => ?_
    split
    · exact expectFile_quiet _ _ _
    · split_ifs
      · refine follows_request trivial fun r => ?_
        cases r with
        | error e => trivial
        | ok _ =>
          refine follows_request trivial fun r => ?_
          split
          · trivial
          · exact expectFile_quiet _ _ _
      · trivial

theorem drop_quiet (source : BodySource) : Quiet source.drop := by
  cases source with
  | blob h offset size => exact ⟨trivial, fun _ => ⟨trivial, fun _ => trivial⟩⟩
  | _ => trivial

/-- A block that is written in full was taken in pieces that are not empty. -/
theorem writeBlocks_nonzero {h fuel n : ℕ} {bytes : Bytes} {offset : ℕ}
    (hrun : RunsTo (writeBlocks h fuel bytes offset) log (.ok n)) : ∀ e ∈ log, ¬ ZeroWrite e := by
  induction fuel generalizing bytes offset log with
  | zero =>
    rw [(runsTo_ret.mp hrun).1]
    simp
  | succ fuel ih =>
    cases bytes with
    | nil =>
      rw [(runsTo_ret.mp hrun).1]
      simp
    | cons b bytes =>
      obtain ⟨reply, rest, hlog, hrest⟩ := runsTo_request.mp hrun
      subst hlog
      rcases reply with (_ | _) | (_ | count)
      · cases (runsTo_ret.mp hrest).2
      · cases (runsTo_ret.mp hrest).2
      · cases (runsTo_ret.mp hrest).2
      · intro e he
        rcases List.mem_cons.mp he with he | he
        · subst he
          exact id
        · exact ih hrest e he

theorem writeChunks_nonzero {D : Digest} {h fuel : ℕ} {chunks : List (Except StorageError Bytes)}
    {hasher : D.Hasher} {offset : ℕ} {written : D.Hasher × ℕ} {source : BodySource}
    (hrun : RunsTo (writeChunks D h fuel (.external chunks) hasher offset) log (.ok written, source)) :
    ∀ e ∈ log, ¬ ZeroWrite e := by
  induction fuel generalizing chunks hasher offset log with
  | zero =>
    rw [(runsTo_ret.mp hrun).1]
    simp
  | succ fuel ih =>
    cases chunks with
    | nil =>
      rw [(runsTo_ret.mp hrun).1]
      simp
    | cons chunk rest =>
      cases chunk with
      | error e => cases (runsTo_ret.mp hrun).2
      | ok chunk =>
        have hblocks : RunsTo ((writeBlocks h chunk.length chunk offset).bind _) log _ := hrun
        obtain ⟨first, block, second, hlog, hblock, hrest⟩ := runsTo_bind.mp hblocks
        subst hlog
        cases block with
        | error e => cases (runsTo_ret.mp hrest).2
        | ok n =>
          intro e he
          rcases List.mem_append.mp he with he | he
          · exact writeBlocks_nonzero hblock e he
          · exact ih hrest e he

theorem removeFile_quiet (config : SmbStorageConfig) (key : Str) :
    Quiet (removeFile config key) := by
  refine Follows.bind (openFile_quiet config key .delete) fun _ r _ => ?_
  cases r with
  | error e =>
    simp only
    split_ifs <;> trivial
  | ok h => exact ⟨trivial, fun _ => ⟨trivial, fun _ => trivial⟩⟩

/-- Filling a file that succeeds has met no count of zero. -/
theorem fillFile_nonzero {D : Digest} {config : SmbStorageConfig} {key : Str} {h : ℕ}
    {chunks : List (Except StorageError Bytes)} {outcome : BlobWriteOutcome} {source : BodySource}
    (hrun : RunsTo (fillFile D config key h (.external chunks)) log (.ok outcome, source)) :
    ∀ e ∈ log, ¬ ZeroWrite e := by
  obtain ⟨first, ⟨written, source'⟩, second, hlog, hchunks, hrest⟩ := runsTo_bind.mp hrun
  subst hlog
  cases written with
  | error e =>
    obtain ⟨_, _, _, _, _, hrest⟩ := runsTo_bind.mp hrest
    cases (runsTo_ret.mp hrest).2
  | ok written =>
    have hcleanup : ∀ e : StorageError, Quiet ((cleanupFailedWrite config key h).bind fun _ =>
        .ret ((.error e, source') : Except StorageError BlobWriteOutcome × BodySource)) := by
      intro e
      refine @Follows.bind _ _ _ _ _ (fun _ _ => True) _ _ _ _ ?_ fun _ _ _ => trivial
      exact follows_request trivial fun _ =>
        Follows.bind (removeFile_quiet config key) fun _ _ _ => trivial
    have hremove : ∀ e : StorageError, Quiet ((removeFile config key).bind fun _ =>
        .ret ((.error e, source') : Except StorageError BlobWriteOutcome × BodySource)) := fun e =>
      Follows.bind (removeFile_quiet config key) fun _ _ _ => trivial
    intro e he
    rcases List.mem_append.mp he with he | he
    · exact writeChunks_nonzero hchunks e he
    · refine (Quiet.nonzero ?_ hrest e he).1
      refine follows_request trivial fun r => ?_
      split
      · exact hcleanup _
      · refine follows_request trivial fun r => ?_
        split
        · simp only
          split_ifs
          · exact follows_request trivial fun _ => hremove _
          · exact hremove _
        · trivial

theorem createAndFill_nonzero {D : Digest} {config : SmbStorageConfig} {key : Str}
    {chunks : List (Except StorageError Bytes)} {exclusive : Bool} {outcome : BlobWriteOutcome}
    {source : BodySource} (hrun : RunsTo (createAndFill D config key (.external chunks) exclusive) log
      (.ok outcome, source)) : ∀ e ∈ log, ¬ ZeroWrite e := by
  obtain ⟨first, parent, second, hlog, hparent, hcreate⟩ := runsTo_bind.mp hrun
  subst hlog
  have hfirst := (ensureParentDirectories_quiet config key).nonzero hparent
  cases parent with
  | error e => cases (runsTo_ret.mp hcreate).2
  | ok _ =>
    cases hpath : remotePath config key with
    | error e =>
      simp only [hpath] at hcreate
      cases (runsTo_ret.mp hcreate).2
    | ok path =>
      simp only [hpath] at hcreate
      obtain ⟨reply, third, hlog, hfill⟩ := runsTo_request.mp hcreate
      subst hlog
      rcases reply with (_ | _) | (h | h | h)
      · cases (runsTo_ret.mp hfill).2
      · cases (runsTo_ret.mp hfill).2
      · intro e he
        rcases List.mem_append.mp he with he | he
        · exact (hfirst e he).1
        · rcases List.mem_cons.mp he with he | he
          · subst he
            exact id
          · exact fillFile_nonzero hfill e he
      · obtain ⟨_, _, _, _, _, hdone⟩ := runsTo_bind.mp hfill
        obtain ⟨_, _, _, hdone⟩ := runsTo_request.mp hfill
        cases (runsTo_ret.mp hdone).2
      · obtain ⟨_, _, _, hdone⟩ := runsTo_request.mp hfill
        cases (runsTo_ret.mp hdone).2

/-- A write that succeeds has met no count of zero. -/
theorem writeFile_nonzero {D : Digest} {config : SmbStorageConfig} {key : Str}
    {chunks : List (Except StorageError Bytes)} {exclusive : Bool} {outcome : BlobWriteOutcome}
    (hrun : RunsTo (writeFile D config key (.external chunks) exclusive) log (.ok outcome)) :
    ∀ e ∈ log, ¬ ZeroWrite e := by
  obtain ⟨first, permit, rest, hlog, hpermit, hwrite⟩ := runsTo_bind.mp hrun
  subst hlog
  have hquiet : Quiet transferPermit := follows_request trivial fun r => by cases r <;> trivial
  cases permit with
  | error e => cases (runsTo_ret.mp hwrite).2
  | ok _ =>
    obtain ⟨second, ⟨result, source⟩, third, hlog, hfill, hend⟩ := runsTo_bind.mp hwrite
    subst hlog
    have hendQuiet : Quiet (source.drop.bind fun _ => (request .releasePermit).bind fun _ =>
        .ret result) :=
      Follows.bind (drop_quiet source) fun _ _ _ => follows_request trivial fun _ => trivial
    have hthird := hendQuiet.nonzero hend
    obtain ⟨_, _, _, _, _, hrelease⟩ := runsTo_bind.mp hend
    obtain ⟨_, _, _, hdone⟩ := runsTo_request.mp hrelease
    have hresult : result = .ok outcome := (runsTo_ret.mp hdone).2.symm
    subst hresult
    have hsecond := createAndFill_nonzero hfill
    intro e he
    simp only [List.mem_append] at he
    rcases he with he | he | he
    · exact (hquiet.nonzero hpermit e he).1
    · exact hsecond e he
    · exact (hthird e he).1

/-- An item of a body that is no error comes without a read that delivered nothing. -/
theorem next_nonzero {source source' : BodySource} {item : Option (Except StorageError Bytes)}
    (hrun : RunsTo source.next log (item, source')) (hitem : ∀ e, item ≠ some (.error e)) :
    ∀ e ∈ log, ¬ ZeroRead e := by
  cases source with
  | external chunks => cases chunks <;> simp [(runsTo_ret.mp hrun).1]
  | finished => simp [(runsTo_ret.mp hrun).1]
  | blob h offset size =>
    rcases next_cases hrun with ⟨_, _, reply, hlog, _⟩ | ⟨_, bytes, hne, hlog, _, _⟩ |
      ⟨_, _, ⟨e, he⟩, _⟩
    · simp [hlog, ZeroRead]
    · obtain ⟨b, rest, hb⟩ := List.exists_cons_of_ne_nil hne
      simp [hlog, hb, ZeroRead]
    · exact absurd he (hitem e)

theorem collectBody_nonzero {fuel : ℕ} {source : BodySource} {bytes : Bytes}
    (hrun : RunsTo (collectBody fuel source bytes) log (.ok b)) : ∀ e ∈ log, ¬ ZeroRead e := by
  induction fuel generalizing source bytes log with
  | zero =>
    have hquiet : Quiet (collectBody 0 source bytes) :=
      Follows.bind (drop_quiet source) fun _ _ _ => trivial
    exact fun e he => (hquiet.nonzero hrun e he).2
  | succ fuel ih =>
    obtain ⟨first, ⟨item, source'⟩, second, hlog, hnext, hrest⟩ := runsTo_bind.mp hrun
    subst hlog
    have hdrop : ∀ r : Except StorageError Bytes, Quiet (source'.drop.bind fun _ => .ret r) :=
      fun r => Follows.bind (drop_quiet source') fun _ _ _ => trivial
    intro e he
    rcases item with _ | (failure | chunk)
    · rcases List.mem_append.mp he with he | he
      · exact next_nonzero hnext (by simp) e he
      · exact ((hdrop _).nonzero hrest e he).2
    · obtain ⟨_, _, _, _, _, hdone⟩ := runsTo_bind.mp hrest
      cases (runsTo_ret.mp hdone).2
    · rcases List.mem_append.mp he with he | he
      · exact next_nonzero hnext (by simp) e he
      · exact ih hrest e he

theorem rangedDrop_quiet (source : RangedSource) : Quiet source.drop := by
  cases source with
  | active source skip remaining => exact drop_quiet source
  | finished => trivial

theorem advance_nonzero {fuel skip remaining : ℕ} {source : BodySource} {source' : RangedSource}
    {item : Option (Except StorageError Bytes)}
    (hrun : RunsTo (RangedSource.advance fuel source skip remaining) log (item, source'))
    (hitem : ∀ e, item ≠ some (.error e)) : ∀ e ∈ log, ¬ ZeroRead e := by
  induction fuel generalizing source skip log with
  | zero =>
    have hquiet : Quiet (RangedSource.advance 0 source skip remaining) :=
      Follows.bind (drop_quiet source) fun _ _ _ => trivial
    exact fun e he => (hquiet.nonzero hrun e he).2
  | succ fuel ih =>
    obtain ⟨first, ⟨inner, source''⟩, second, hlog, hnext, hrest⟩ := runsTo_bind.mp hrun
    subst hlog
    have hdrop : ∀ r : Option (Except StorageError Bytes) × RangedSource,
        Quiet (source''.drop.bind fun _ => .ret r) :=
      fun r => Follows.bind (drop_quiet source'') fun _ _ _ => trivial
    intro e he
    rcases inner with _ | (failure | chunk)
    · rcases List.mem_append.mp he with he | he
      · exact next_nonzero hnext (by simp) e he
      · exact ((hdrop _).nonzero hrest e he).2
    · obtain ⟨_, _, _, _, _, hdone⟩ := runsTo_bind.mp hrest
      exact absurd (Prod.mk.inj (runsTo_ret.mp hdone).2).1 (hitem _)
    · have hfirst := next_nonzero hnext (by simp)
      simp only at hrest
      split_ifs at hrest
      · rcases List.mem_append.mp he with he | he
        · exact hfirst e he
        · exact ih hrest e he
      · rw [(runsTo_ret.mp hrest).1, List.append_nil] at he
        exact hfirst e he

theorem collectRanged_nonzero {fuel : ℕ} {source : RangedSource} {bytes : Bytes}
    (hrun : RunsTo (collectRanged fuel source bytes) log (.ok b)) : ∀ e ∈ log, ¬ ZeroRead e := by
  induction fuel generalizing source bytes log with
  | zero =>
    have hquiet : Quiet (collectRanged 0 source bytes) :=
      Follows.bind (rangedDrop_quiet source) fun _ _ _ => trivial
    exact fun e he => (hquiet.nonzero hrun e he).2
  | succ fuel ih =>
    obtain ⟨first, ⟨item, source'⟩, second, hlog, hnext, hrest⟩ := runsTo_bind.mp hrun
    subst hlog
    have hdrop : ∀ r : Except StorageError Bytes, Quiet (source'.drop.bind fun _ => .ret r) :=
      fun r => Follows.bind (rangedDrop_quiet source') fun _ _ _ => trivial
    have hfirst : (∀ e, item ≠ some (.error e)) → ∀ e ∈ first, ¬ ZeroRead e := by
      intro hitem
      cases source with
      | finished => simp [(runsTo_ret.mp hnext).1]
      | active source skip remaining =>
        simp only [RangedSource.next] at hnext
        split_ifs at hnext
        · have hquiet : Quiet (source.drop.bind fun _ =>
              .ret ((none, .finished) : Option (Except StorageError Bytes) × RangedSource)) :=
            Follows.bind (drop_quiet source) fun _ _ _ => trivial
          exact fun e he => (hquiet.nonzero hnext e he).2
        · exact advance_nonzero hnext hitem
    intro e he
    rcases item with _ | (failure | chunk)
    · rcases List.mem_append.mp he with he | he
      · exact hfirst (by simp) e he
      · exact ((hdrop _).nonzero hrest e he).2
    · obtain ⟨_, _, _, _, _, hdone⟩ := runsTo_bind.mp hrest
      cases (runsTo_ret.mp hdone).2
    · rcases List.mem_append.mp he with he | he
      · exact hfirst (by simp) e he
      · exact ih hrest e he

theorem getBlob_quiet (config : SmbStorageConfig) (key : Str) : Quiet (getBlob config key) := by
  unfold getBlob
  split
  · trivial
  · refine @Follows.bind _ _ _ _ _ (fun _ _ => True) _ _ _ _ ?_ fun _ permit _ => ?_
    · exact follows_request trivial fun r => by cases r <;> trivial
    · cases permit with
      | error e => trivial
      | ok _ =>
        refine Follows.bind (openFile_quiet config key .read) fun _ opened _ => ?_
        cases opened with
        | error e => exact follows_request trivial fun _ => trivial
        | ok h =>
          refine follows_request trivial fun r => ?_
          split
          · exact follows_request trivial fun _ => follows_request trivial fun _ => trivial
          · trivial

theorem readBlob_nonzero {config : SmbStorageConfig} {key : Str}
    (hrun : RunsTo (readBlob config key) log (.ok b)) : ∀ e ∈ log, ¬ ZeroRead e := by
  obtain ⟨first, opened, second, hlog, hopen, hrest⟩ := runsTo_bind.mp hrun
  subst hlog
  cases opened with
  | error e => cases (runsTo_ret.mp hrest).2
  | ok blob =>
    simp only at hrest
    split_ifs at hrest
    · obtain ⟨_, _, _, _, _, hdone⟩ := runsTo_bind.mp hrest
      cases (runsTo_ret.mp hdone).2
    · obtain ⟨third, collected, fourth, hlog, hcollect, hdone⟩ := runsTo_bind.mp hrest
      subst hlog
      cases collected with
      | error e => cases (runsTo_ret.mp hdone).2
      | ok bytes =>
        intro e he
        rw [(runsTo_ret.mp hdone).1, List.append_nil] at he
        rcases List.mem_append.mp he with he | he
        · exact ((getBlob_quiet config key).nonzero hopen e he).2
        · exact collectBody_nonzero hcollect e he

theorem readRange_nonzero {config : SmbStorageConfig} {key : Str} {start stop : ℕ}
    (hrun : RunsTo (readRange config key start stop) log (.ok b)) : ∀ e ∈ log, ¬ ZeroRead e := by
  obtain ⟨first, opened, second, hlog, hopen, hrest⟩ := runsTo_bind.mp hrun
  subst hlog
  have hquiet : Quiet (getBlobRange config key start stop) := by
    unfold getBlobRange
    split_ifs
    · trivial
    · refine Follows.bind (getBlob_quiet config key) fun _ blob _ => ?_
      cases blob <;> trivial
  cases opened with
  | error e => cases (runsTo_ret.mp hrest).2
  | ok body =>
    simp only [collectRange] at hrest
    split_ifs at hrest
    · obtain ⟨_, _, _, _, _, hdone⟩ := runsTo_bind.mp hrest
      cases (runsTo_ret.mp hdone).2
    · obtain ⟨third, collected, fourth, hlog, hcollect, hdone⟩ := runsTo_bind.mp hrest
      subst hlog
      cases collected with
      | error e => cases (runsTo_ret.mp hdone).2
      | ok bytes =>
        intro e he
        rw [(runsTo_ret.mp hdone).1, List.append_nil] at he
        rcases List.mem_append.mp he with he | he
        · exact (hquiet.nonzero hopen e he).2
        · exact collectRanged_nonzero hcollect e he

end Whole

/-! ### Transfers -/

section Transfers

variable {D : Digest} {config : SmbStorageConfig} {key : Str}

theorem validKey_of_writeFile {chunks : List (Except StorageError Bytes)} {exclusive : Bool}
    {outcome : BlobWriteOutcome} {log : List (Sigma Requests.Reply)}
    (hrun : RunsTo (writeFile D config key (.external chunks) exclusive) log (.ok outcome)) :
    ValidKey key := by
  cases hv : validateBlobKey key with
  | ok _ => exact validateBlobKey_eq_ok.mp hv
  | error e =>
    obtain ⟨_, permit, _, _, _, hwrite⟩ := runsTo_bind.mp hrun
    cases permit with
    | error e => cases (runsTo_ret.mp hwrite).2
    | ok _ =>
      obtain ⟨_, ⟨result, source⟩, _, _, hfill, hend⟩ := runsTo_bind.mp hwrite
      obtain ⟨_, _, _, _, _, hrelease⟩ := runsTo_bind.mp hend
      obtain ⟨_, _, _, hdone⟩ := runsTo_request.mp hrelease
      obtain rfl : result = .ok outcome := (runsTo_ret.mp hdone).2.symm
      obtain ⟨_, parent, _, _, hparent, hcreate⟩ := runsTo_bind.mp hfill
      simp only [ensureParentDirectories, mappedKey, hv] at hparent
      obtain rfl := (runsTo_ret.mp hparent).2
      cases (runsTo_ret.mp hcreate).2

/-- What `write_file` leaves on the server when it succeeds. -/
theorem writeFile_stored {body : StorageByteStream} {exclusive : Bool} {s s' : Server}
    (hs : Orderly s) {log : List (Sigma Requests.Reply)} {outcome : BlobWriteOutcome}
    (hrun : RunsIn Faulty s (writeFile D config key (.external body.inner) exclusive) log s'
      (.ok outcome)) : ∃ b f, body.body = .ok b ∧ outcome = ⟨b.length, sha256Hex D b⟩ ∧
        b.length ≤ maxOffset ∧ Stored s' (keyPath config key) f b := by
  have hk := validKey_of_writeFile hrun.runsTo
  -- Nothing is renamed, so any other path will do as the final one.
  have hne : keyPath config key ≠ '/' :: keyPath config key := (List.cons_ne_self _ _).symm
  obtain ⟨stage, hpost, horderly, htarget⟩ := hrun.invariant
    (fun s q => Orderly s ∧ Uploading (keyPath config key) body.body s q)
    (fun s s' q c r hinv hallowed ha => by
      have hlost : q ≠ .lost := by
        intro he
        rw [he] at hinv
        exact hinv.2
      show Orderly s' ∧ Uploading _ _ s' (q.advance c r)
      rw [UploadStage.advance_of_ne_lost hlost]
      exact hinv.2.step hne hinv.1 (hallowed.resolve_left hlost) ha)
    (writeFile_uploads D hk body exclusive) ⟨hs, trivial⟩
  rcases hpost with hlost | ⟨w, hstage, houtcome, hlen⟩
  · subst hlost
    exact htarget.elim
  · subst hstage
    obtain ⟨hw, f, hf⟩ := htarget
    exact ⟨w, f, hw, houtcome, hlen, hf⟩

/-- When `write_file` returns `Ok`, over requests that may fail and with whatever counts the
server takes, the remote file holds the body and the outcome describes it; reading it back, whole
or a range of it, gives exactly that, whatever counts the server delivers. A count of zero ends
each of these with an error. -/
theorem transfers_survive_short_counts (D : Digest) (config : SmbStorageConfig) (key : Str)
    (body : StorageByteStream) (exclusive : Bool) :
    (∀ (s s' : Server) (log : List (Sigma Requests.Reply)) (outcome : BlobWriteOutcome),
      Orderly s →
      RunsIn Faulty s (writeFile D config key (.external body.inner) exclusive) log s'
        (.ok outcome) →
      ∃ b f, body.body = .ok b ∧ outcome = ⟨b.length, sha256Hex D b⟩ ∧
        Stored s' (keyPath config key) f b ∧
        (∀ log s'' result, RunsIn ServesSome s' (readBlob config key) log s'' result →
          result = .ok b) ∧
        ∀ start stop, start ≤ stop → ∀ log s'' result,
          RunsIn ServesSome s' (readRange config key start stop) log s'' result →
          result = .ok (Ranges.slice b start stop)) ∧
    (∀ log result, RunsTo (writeFile D config key (.external body.inner) exclusive) log result →
      (∃ e ∈ log, ZeroWrite e) → ∃ e, result = .error e) ∧
    (∀ log result, RunsTo (readBlob config key) log result → (∃ e ∈ log, ZeroRead e) →
      ∃ e, result = .error e) ∧
    ∀ start stop log result, RunsTo (readRange config key start stop) log result →
      (∃ e ∈ log, ZeroRead e) → ∃ e, result = .error e := by
  refine ⟨fun s s' log outcome hs hrun => ?_, fun log result hrun hzero => ?_,
    fun log result hrun hzero => ?_, fun start stop log result hrun hzero => ?_⟩
  · have hk := validKey_of_writeFile hrun.runsTo
    obtain ⟨b, f, hb, houtcome, hlen, hf⟩ := writeFile_stored hs hrun
    have hsize : b.length < 2 ^ 63 := by
      unfold maxOffset at hlen
      omega
    have hstart : Readable (keyPath config key) f b s' none := ⟨hf, fun h hh => by cases hh⟩
    refine ⟨b, f, hb, houtcome, hf, fun log s'' result hread => ?_,
      fun start stop hle log s'' result hread => ?_⟩
    · exact readBlob_truthful hsize hk hread.runsTo (hread.log_forall
        (Readable (keyPath config key) f b) (fun _ _ _ _ _ hi ha hs => hi.step ha hs)
        (readBlob_follows hk) hstart)
    · rw [Ranges.slice_eq]
      exact readRange_truthful hsize hk hle hread.runsTo (hread.log_forall
        (Readable (keyPath config key) f b) (fun _ _ _ _ _ hi ha hs => hi.step ha hs)
        (readRange_follows hk start stop) hstart)
  · obtain ⟨e, he, hz⟩ := hzero
    cases result with
    | error e => exact ⟨e, rfl⟩
    | ok outcome => exact absurd hz (writeFile_nonzero hrun e he)
  · obtain ⟨e, he, hz⟩ := hzero
    cases result with
    | error e => exact ⟨e, rfl⟩
    | ok b => exact absurd hz (readBlob_nonzero hrun e he)
  · obtain ⟨e, he, hz⟩ := hzero
    cases result with
    | error e => exact ⟨e, rfl⟩
    | ok b => exact absurd hz (readRange_nonzero hrun e he)

end Transfers

/-- Every block is taken and delivered one byte at a time. -/
def byteAtATime (c : SmbCall) (s : Server) : SmbCall.Reply c × Server :=
  s.answer ⟨1, none, .ok (), []⟩ c

theorem transfers_survive_short_counts_single : ∃ log s' log' s'',
    RunsIn Faulty Server.empty (writeFile Digest.sha256 ⟨none, 1⟩ "k".toList
      (.external [.ok [1, 2], .ok [], .ok [3]]) true) log s'
      (.ok ⟨3, sha256Hex Digest.sha256 [1, 2, 3]⟩) ∧
    RunsIn ServesSome s' (readBlob ⟨none, 1⟩ "k".toList) log' s'' (.ok [1, 2, 3]) := by
  have hfaulty : ∀ s c, Faulty s c (byteAtATime c s).1 (byteAtATime c s).2 :=
    fun s c => ⟨_, [], rfl, Or.inl ⟨_, rfl, rfl⟩⟩
  have hsome : ∀ s c, ServesSome s c (byteAtATime c s).1 (byteAtATime c s).2 :=
    fun s c => ⟨_, le_refl 1, rfl, rfl⟩
  obtain ⟨log, hwrite⟩ := exec_runsIn hfaulty (writeFile Digest.sha256 ⟨none, 1⟩ "k".toList
    (.external [.ok [1, 2], .ok [], .ok [3]]) true) Server.empty
  have hresult : ((writeFile Digest.sha256 ⟨none, 1⟩ "k".toList
      (.external [.ok [1, 2], .ok [], .ok [3]]) true).exec byteAtATime Server.empty).1 =
        .ok ⟨3, sha256Hex Digest.sha256 [1, 2, 3]⟩ := by
    decide +kernel
  rw [hresult] at hwrite
  obtain ⟨b, f, hb, _, _, hblob, _⟩ := (transfers_survive_short_counts Digest.sha256 ⟨none, 1⟩
    "k".toList ⟨[.ok [1, 2], .ok [], .ok [3]], none⟩ true).1 _ _ _ _ orderly_empty hwrite
  obtain rfl : [1, 2, 3] = b := Except.ok.inj hb
  obtain ⟨log', hread⟩ := exec_runsIn hsome (readBlob ⟨none, 1⟩ "k".toList) _
  rw [hblob _ _ _ hread] at hread
  exact ⟨log, _, log', _, hwrite, hread⟩

end GraphqlOrmStorage.Smb
