import GraphqlOrmStorage.LocalObjectRaces

/-!
# Blob calls that race

Any number of `put_blob`, `put_blob_if_not_exists`, `copy_blob` and `delete_blob` calls on
any keys, interleaved one filesystem call at a time. A call writes to a temporary file of
its own and publishes it in one step, by a rename or by a hard link; what it publishes is
a complete body. Beside the tree the log of the successful links and removals is kept: two
links to one path have a removal of that path between them.
-/
namespace GraphqlOrmStorage.Local

open Text Program Program.Prog FileTree

/-- An operation with the identifier it draws for its temporary file. -/
structure BlobCall where
  op : BlobOp
  uuid : Uuid

/-- The key an operation writes. -/
def BlobOp.target : BlobOp → Str
  | .put key _ _ | .putIfNotExists key _ _ | .copy _ key | .delete key => key

/-- The keys an operation names. -/
def BlobOp.keys : BlobOp → List Str
  | .put key _ _ | .putIfNotExists key _ _ | .delete key => [key]
  | .copy src dst => [src, dst]

/-- The identifier occurs in no part of the key. -/
def Unnamed (u : Uuid) (key : Str) : Prop := ∀ c ∈ key.splitOn '/', ¬ u.toStr <:+: c

instance (u : Uuid) (key : Str) : Decidable (Unnamed u key) :=
  inferInstanceAs (Decidable (∀ c ∈ key.splitOn '/', ¬ u.toStr <:+: c))

namespace BlobCall

def prog (D : Digest) (call : BlobCall) : FsM BlobReply :=
  match call.op with
  | .put key body options => do return .put (← putBlob D call.uuid key body options)
  | .putIfNotExists key body options => do
    return .putIfNotExists (← putBlobIfNotExists D call.uuid key body options)
  | .copy src dst => do return .copy (← copyBlob call.uuid src dst)
  | .delete key => do return .delete (← deleteBlob key)

/-- The path the call publishes to or removes. -/
def path (call : BlobCall) : Path := call.op.target.splitOn '/'

/-- The temporary file of the call. -/
def temp (call : BlobCall) : Path := tempPath call.path call.uuid

end BlobCall

/-- How far a call has come: nothing of its own is stored, its temporary file holds a part
of the body or a complete one, or it has linked that file to its path. -/
inductive BlobStage where
  | idle
  | filling (written : Bytes)
  | full
  | linked

structure BlobPhase where
  call : BlobCall
  stage : BlobStage

abbrev BlobThread := Thread Fs BlobPhase BlobReply

namespace BlobPhase

def advance (q : BlobPhase) : (c : FsCall) → FsCall.Reply c → BlobPhase
  | .createFile _, .ok () => { q with stage := .filling [] }
  | .append _ b, .ok () =>
    match q.stage with
    | .filling written => { q with stage := .filling (written ++ b) }
    | _ => q
  | .append _ _, .error _ => { q with stage := .idle }
  | .flush _, .ok () => { q with stage := .full }
  | .copyFile _ _, .ok _ => { q with stage := .full }
  | .rename _ _, .ok () => { q with stage := .idle }
  | .hardLink _ _, .ok () => { q with stage := .linked }
  | .removeFile _, _ => match q.stage with
    | .linked => q
    | _ => { q with stage := .idle }
  | _, _ => q

/-- The filesystem calls of each stage. A temporary file may be removed at any time. -/
def Issues (q : BlobPhase) (c : FsCall) : Prop :=
  c = .removeFile q.call.temp ∨
  match q.stage with
  | .idle =>
    c = .createDirAll q.call.path.dropLast ∨
    (∃ body, q.call.op.body = some body ∧ c = .createFile q.call.temp) ∨
    (∃ src dst, q.call.op = .copy src dst ∧ ValidKey src ∧
      c = .copyFile (src.splitOn '/') q.call.temp) ∨
    (∃ key, q.call.op = .delete key ∧ c = .removeFile q.call.path)
  | .filling written =>
    (∃ b, c = .append q.call.temp b) ∨
    (∃ body, q.call.op.body = some body ∧ body.body = .ok written ∧ c = .flush q.call.temp)
  | .full =>
    c = .rename q.call.temp q.call.path ∨
    (∃ key body options, q.call.op = .putIfNotExists key body options ∧ ValidKey key ∧
      c = .hardLink q.call.temp q.call.path)
  | .linked => False

end BlobPhase

def blobDiscipline : Discipline Fs BlobPhase where
  allowed := BlobPhase.Issues
  next := BlobPhase.advance

/-- The call before its first step. -/
def blobThread (D : Digest) (call : BlobCall) : BlobThread := ⟨⟨call, .idle⟩, call.prog D⟩

/-- What the log records: a successful link with the tree before it, or a removal. -/
inductive Mark where
  | linked (src dst : Path) (before : FileTree)
  | removed (p : Path)

/-- What a call adds to the log. -/
def marks (t : FileTree) : (c : FsCall) → FsCall.Reply c → List Mark
  | .hardLink src dst, .ok () => [.linked src dst t]
  | .removeFile p, .ok () => [.removed p]
  | _, _ => []

/-- One atomic step on the tree, noted in the log; the newest mark is the first. -/
def LoggedAnswers (s : FileTree × List Mark) (c : FsCall) (r : FsCall.Reply c)
    (s' : FileTree × List Mark) : Prop :=
  Answers s.1 c r s'.1 ∧ s'.2 = marks s.1 c r ++ s.2

/-- The calls name valid keys or fail, their identifiers are distinct and occur in no key
of theirs. -/
structure Unrelated (calls : List BlobCall) : Prop where
  distinct : calls.Pairwise fun a b => a.uuid ≠ b.uuid
  unnamed : ∀ a ∈ calls, ∀ b ∈ calls, ∀ key ∈ b.op.keys, Unnamed a.uuid key

/-- A whole body of one of the calls, or a file that was there at the start. -/
def Complete (calls : List BlobCall) (t₀ : FileTree) (b : Bytes) : Prop :=
  (∃ call ∈ calls, ∃ body, call.op.body = some body ∧ body.body = .ok b) ∨
    ∃ key, ValidKey key ∧ (∀ call ∈ calls, Unnamed call.uuid key) ∧
      t₀.files (key.splitOn '/') = some b

/-! ### The calls keep to their stages -/

section Stages

variable {D : Digest} {call : BlobCall}

/-- A conditional put that returns `Ok(Some)` has linked its file. -/
def BlobReturned (q : BlobPhase) (reply : BlobReply) : Prop :=
  ∀ outcome, reply = .putIfNotExists (.ok (some outcome)) → q.stage = .linked

/-- The chunk loop ends with the whole body in the file, or fails. -/
theorem writeChunks_follows {body : StorageByteStream} (l : List (Except StorageError Bytes))
    (written : Bytes) (hasher : D.Hasher) (size : ℕ)
    (hrest : ∀ b, firstError l = none → written ++ (okChunks l).flatten = b → body.body = .ok b) :
    Follows blobDiscipline
      (fun q r => q.call = call ∧ ∀ x, r = .ok x → ∃ b, q.stage = .filling b ∧ body.body = .ok b)
      ⟨call, .filling written⟩ (writeChunks D call.temp l hasher size) := by
  induction l generalizing written hasher size with
  | nil =>
    refine ⟨rfl, fun x _ => ⟨written, rfl, hrest written rfl ?_⟩⟩
    simp [okChunks]
  | cons x l ih =>
    cases x with
    | error e => exact ⟨rfl, fun x hx => by cases hx⟩
    | ok chunk =>
      refine ⟨Or.inr (Or.inl ⟨chunk, rfl⟩), fun r => ?_⟩
      cases r with
      | error source => exact ⟨rfl, fun x hx => by cases hx⟩
      | ok _ =>
        refine ih (written ++ chunk) _ _ fun b hl hb => hrest b hl ?_
        rw [← hb]
        simp [okChunks]

theorem writeStreamToTemp_follows {body : StorageByteStream} (hbody : call.op.body = some body) :
    Follows blobDiscipline (fun q r => q.call = call ∧ ∀ x, r = .ok x → q.stage = .full)
      ⟨call, .idle⟩ (writeStreamToTemp D call.temp body) := by
  refine ⟨Or.inr (Or.inr (Or.inl ⟨body, hbody, rfl⟩)), fun r => ?_⟩
  cases r with
  | error source => exact ⟨rfl, fun x hx => by cases hx⟩
  | ok _ =>
    show Follows blobDiscipline _ ⟨call, .filling []⟩
      ((writeChunks D call.temp body.inner D.new 0).bind _)
    refine Follows.bind (writeChunks_follows body.inner [] D.new 0 fun b hnone hb =>
      StorageByteStream.body_eq_ok.mpr ⟨hnone, by simpa using hb⟩) fun q r hq => ?_
    obtain ⟨hcall, hok⟩ := hq
    cases r with
    | error e => exact ⟨hcall, fun x hx => by cases hx⟩
    | ok x =>
      obtain ⟨b, hstage, hb⟩ := hok x rfl
      obtain ⟨_, _⟩ := q
      obtain rfl : _ = call := hcall
      obtain rfl : _ = BlobStage.filling b := hstage
      refine ⟨Or.inr (Or.inr ⟨body, hbody, hb, rfl⟩), fun r => ?_⟩
      cases r with
      | error source => exact ⟨rfl, fun x hx => by cases hx⟩
      | ok _ => exact ⟨rfl, fun x _ => rfl⟩

/-- Removing the temporary file is always allowed and keeps the fact that a link was made. -/
theorem discardTemp_follows {α : Type} {post : BlobPhase → α → Prop} {q : BlobPhase} {result : α}
    (hcall : q.call = call)
    (hpost : ∀ q', (q.stage = .linked → q'.stage = .linked) → post q' result) :
    Follows blobDiscipline post q (discardTemp call.temp result) := by
  refine ⟨Or.inl (by rw [hcall]), fun r => hpost _ fun hl => ?_⟩
  simp [blobDiscipline, BlobPhase.advance, hl]

theorem createParentDir_follows (hne : call.path ≠ []) :
    Follows blobDiscipline (fun q _ => q = ⟨call, .idle⟩) ⟨call, .idle⟩
      (createParentDir call.path) := by
  rw [createParentDir, if_neg hne]
  refine ⟨Or.inr (Or.inl rfl), fun r => ?_⟩
  cases r with
  | error source => rfl
  | ok _ => rfl

theorem uploadThen_follows {α : Type} {body : StorageByteStream} {key : Str}
    (hbody : call.op.body = some body) (hkey : call.op.target = key)
    {publish : Path → Path → BlobWriteOutcome → FsM (Except StorageError α)}
    {post : BlobPhase → Except StorageError α → Prop} (herror : ∀ q e, post q (.error e))
    (hpublish : ValidKey key → ∀ outcome,
      Follows blobDiscipline post ⟨call, .full⟩ (publish call.temp call.path outcome)) :
    Follows blobDiscipline post ⟨call, .idle⟩ (uploadThen D call.uuid key body publish) := by
  by_cases hv : ValidKey key
  swap
  · rw [uploadThen, pathFor_of_not_valid hv]
    exact herror _ _
  have hpath : key.splitOn '/' = call.path := by rw [BlobCall.path, hkey]
  have hne : call.path ≠ [] := by rw [← hpath]; exact splitOn_ne_nil key
  simp only [uploadThen, pathFor_of_valid hv, hpath, tempPathFor_eq hne]
  refine Follows.bind (createParentDir_follows hne) fun q r hq => ?_
  subst hq
  cases r with
  | error e => exact herror _ _
  | ok _ =>
    refine Follows.bind (writeStreamToTemp_follows hbody) fun q r hq => ?_
    obtain ⟨hcall, hfull⟩ := hq
    cases r with
    | error e => exact discardTemp_follows hcall fun _ _ => herror _ _
    | ok outcome =>
      obtain ⟨_, _⟩ := q
      obtain rfl : _ = call := hcall
      obtain rfl : _ = BlobStage.full := hfull outcome rfl
      exact hpublish hv outcome

theorem putBlob_follows (D : Digest) (u : Uuid) (key : Str) (body : StorageByteStream)
    (options : BlobPutOptions) :
    Follows blobDiscipline (fun _ _ => True) ⟨⟨.put key body options, u⟩, .idle⟩
      (putBlob D u key body options) := by
  refine uploadThen_follows rfl rfl (fun _ _ => trivial)
    fun _ outcome => ⟨Or.inr (Or.inl rfl), fun r => ?_⟩
  cases r with
  | error source => exact discardTemp_follows rfl fun _ _ => trivial
  | ok _ => trivial

/-- The conditional put returns `Ok(Some)` only after its link. -/
theorem putBlobIfNotExists_follows (D : Digest) (u : Uuid) (key : Str) (body : StorageByteStream)
    (options : BlobPutOptions) :
    Follows blobDiscipline (fun q r => ∀ outcome, r = .ok (some outcome) → q.stage = .linked)
      ⟨⟨.putIfNotExists key body options, u⟩, .idle⟩ (putBlobIfNotExists D u key body options) := by
  refine uploadThen_follows rfl rfl
    (fun _ _ _ h => by cases h)
    fun hv outcome => ⟨Or.inr (Or.inr ⟨key, body, options, rfl, hv, rfl⟩), fun r => ?_⟩
  rcases r with source | _
  · cases source <;> exact discardTemp_follows rfl fun _ _ _ h => by cases h
  · exact discardTemp_follows rfl fun _ hl _ _ => hl rfl

theorem copyBlob_follows (u : Uuid) (src dst : Str) :
    Follows blobDiscipline (fun _ _ => True) ⟨⟨.copy src dst, u⟩, .idle⟩ (copyBlob u src dst) := by
  by_cases hs : ValidKey src
  swap
  · rw [copyBlob, pathFor_of_not_valid hs]
    trivial
  by_cases hd : ValidKey dst
  swap
  · rw [copyBlob, pathFor_of_valid hs, pathFor_of_not_valid hd]
    trivial
  have hne : dst.splitOn '/' ≠ [] := splitOn_ne_nil dst
  have hparent : Follows blobDiscipline (fun q _ => q = ⟨⟨.copy src dst, u⟩, .idle⟩)
      ⟨⟨.copy src dst, u⟩, .idle⟩ (createParentDir (dst.splitOn '/')) := createParentDir_follows hne
  simp only [copyBlob, pathFor_of_valid hs, pathFor_of_valid hd, tempPathFor_eq hne]
  refine Follows.bind hparent fun q r hq => ?_
  subst hq
  cases r with
  | error e => trivial
  | ok _ =>
    refine ⟨Or.inr (Or.inr (Or.inr (Or.inl ⟨src, dst, rfl, hs, rfl⟩))), fun r => ?_⟩
    rcases r with source | n
    · cases source <;> exact discardTemp_follows rfl fun _ _ => trivial
    · refine ⟨Or.inr (Or.inl rfl), fun r => ?_⟩
      cases r with
      | error source => exact discardTemp_follows rfl fun _ _ => trivial
      | ok _ => trivial

theorem deleteBlob_follows (u : Uuid) (key : Str) :
    Follows blobDiscipline (fun _ _ => True) ⟨⟨.delete key, u⟩, .idle⟩ (deleteBlob key) := by
  by_cases hv : ValidKey key
  · simp only [deleteBlob, pathFor_of_valid hv, removeIfPresent_eq]
    exact ⟨Or.inr (Or.inr (Or.inr (Or.inr ⟨key, rfl, rfl⟩))), fun r => trivial⟩
  · rw [deleteBlob, pathFor_of_not_valid hv]
    trivial

theorem blobCall_follows (D : Digest) (call : BlobCall) :
    Follows blobDiscipline BlobReturned ⟨call, .idle⟩ (call.prog D) := by
  obtain ⟨op, u⟩ := call
  cases op with
  | put key body options =>
    exact (putBlob_follows D u key body options).bind fun q r _ outcome h => by cases h
  | putIfNotExists key body options =>
    refine (putBlobIfNotExists_follows D u key body options).bind fun q r hr outcome h => ?_
    obtain rfl : r = .ok (some outcome) := BlobReply.putIfNotExists.inj h
    exact hr outcome rfl
  | copy src dst => exact (copyBlob_follows u src dst).bind fun q r _ outcome h => by cases h
  | delete key => exact (deleteBlob_follows u key).bind fun q r _ outcome h => by cases h

end Stages

/-! ### What one step does -/

section Steps

variable {calls : List BlobCall} {t₀ t t' : FileTree} {q : BlobPhase}

/-- A path of a key that contains none of the identifiers. -/
def KeyPath (calls : List BlobCall) (p : Path) : Prop :=
  ∃ key, ValidKey key ∧ (∀ call ∈ calls, Unnamed call.uuid key) ∧ p = key.splitOn '/'

/-- Whole bodies only at the paths of keys. -/
def KeysComplete (calls : List BlobCall) (t₀ t : FileTree) : Prop :=
  ∀ p, KeyPath calls p → ∀ b, t.files p = some b → Complete calls t₀ b

/-- What a call has stored in its temporary file. -/
def BlobHolds (calls : List BlobCall) (t₀ t : FileTree) (q : BlobPhase) : Prop :=
  match q.stage with
  | .filling written => t.files q.call.temp = some written
  | .full => ∃ b, t.files q.call.temp = some b ∧ Complete calls t₀ b
  | .idle | .linked => True

/-- One step of a call: it changes its temporary file only, it moves that file to its path, it
links it there, where nothing was, or it removes what is there. -/
inductive BlobEffect (calls : List BlobCall) (t₀ t t' : FileTree) (q q' : BlobPhase) :
    List Mark → Prop
  | own (content : Option Bytes) (ms : List Mark) :
      t'.files = Function.update t.files q.call.temp content →
      (ms = [] ∨ ms = [.removed q.call.temp]) → BlobHolds calls t₀ t' q' →
      (q'.stage = .linked → q.stage = .linked) → BlobEffect calls t₀ t t' q q' ms
  | published (b : Bytes) : t.files q.call.temp = some b → Complete calls t₀ b →
      t'.files = Function.update (Function.update t.files q.call.path (some b)) q.call.temp none →
      q'.stage = .idle → BlobEffect calls t₀ t t' q q' []
  | linked (b : Bytes) : ValidKey q.call.op.target → t.files q.call.temp = some b →
      Complete calls t₀ b → t.lookup q.call.path = none →
      t'.files = Function.update t.files q.call.path (some b) → q'.stage = .linked →
      BlobEffect calls t₀ t t' q q' [.linked q.call.temp q.call.path t]
  | removed (ms : List Mark) : t'.files = Function.update t.files q.call.path none →
      (t.files q.call.path = none ∧ ms = [] ∨ ms = [.removed q.call.path]) → q'.stage = .idle →
      BlobEffect calls t₀ t t' q q' ms

theorem BlobPhase.advance_call (q : BlobPhase) (c : FsCall) (r : FsCall.Reply c) :
    (q.advance c r).call = q.call := by
  unfold BlobPhase.advance
  split <;> first | rfl | (split <;> rfl)

/-- A call that changes no file. -/
theorem BlobEffect.quiet {q' : BlobPhase} (hf : t'.files = t.files)
    (hh : BlobHolds calls t₀ t' q') (hl : q'.stage = .linked → q.stage = .linked) :
    BlobEffect calls t₀ t t' q q' [] :=
  .own (t.files q.call.temp) [] (by rw [hf, Function.update_eq_self]) (Or.inl rfl) hh hl

theorem BlobHolds.of_files {q : BlobPhase} (hf : t'.files q.call.temp = t.files q.call.temp)
    (h : BlobHolds calls t₀ t q) : BlobHolds calls t₀ t' q := by
  unfold BlobHolds at h ⊢
  rwa [hf]

theorem removeFile_marks (t : FileTree) (p : Path) :
    marks t (.removeFile p) (t.removeFile p).1 = [.removed p] ∨
      (t.files p = none ∧ marks t (.removeFile p) (t.removeFile p).1 = []) := by
  cases hf : t.files p with
  | some b =>
    rw [(removeFile_of_files hf).1]
    exact Or.inl rfl
  | none =>
    obtain ⟨⟨e, he⟩, _⟩ := removeFile_of_no_file hf
    rw [he]
    exact Or.inr ⟨rfl, rfl⟩

/-- Removing the temporary file, in any stage. -/
theorem discard_effect (now : ℤ) :
    BlobEffect calls t₀ t (t.handle now (.removeFile q.call.temp)).2 q
    (q.advance (.removeFile q.call.temp) (t.handle now (.removeFile q.call.temp)).1)
    (marks t (.removeFile q.call.temp) (t.handle now (.removeFile q.call.temp)).1) := by
  have hstage : (q.advance (.removeFile q.call.temp) (t.removeFile q.call.temp).1).stage = .idle ∨
      (q.advance (.removeFile q.call.temp) (t.removeFile q.call.temp).1).stage = .linked ∧
        q.stage = .linked := by
    obtain ⟨call, stage⟩ := q
    cases stage <;> simp [BlobPhase.advance]
  refine .own none _ (removeFile_files t q.call.temp).1 ?_ ?_ ?_
  · rcases removeFile_marks t q.call.temp with h | ⟨_, h⟩
    · exact Or.inr h
    · exact Or.inl h
  · rcases hstage with h | ⟨h, _⟩
    · simp only [BlobHolds, FileTree.handle, h]
    · simp only [BlobHolds, FileTree.handle, h]
  · intro hl
    rcases hstage with h | ⟨_, h⟩
    · rw [FileTree.handle, h] at hl
      cases hl
    · exact h

/-- The path of a key is no temporary path of an identifier that it does not contain. -/
theorem Unnamed.path_ne_temp {u : Uuid} {key : Str} (h : Unnamed u key) (p : Path) :
    key.splitOn '/' ≠ tempPath p u := by
  intro he
  have hmem : tempName (p.getLast?.getD []) u ∈ key.splitOn '/' := by
    rw [he]
    exact List.mem_append_right _ (List.mem_singleton.mpr rfl)
  exact h _ hmem (infix_tempName _ u)

theorem idle_effect {call : BlobCall} {c : FsCall} {r : FsCall.Reply c} (hm : call ∈ calls)
    (hu : ∀ call' ∈ calls, ∀ key ∈ call.op.keys, Unnamed call'.uuid key)
    (hk : KeysComplete calls t₀ t) (hi : BlobPhase.Issues ⟨call, .idle⟩ c)
    (ha : Answers t c r t') :
    BlobEffect calls t₀ t t' ⟨call, .idle⟩ (BlobPhase.advance ⟨call, .idle⟩ c r) (marks t c r) := by
  obtain ⟨now, rfl, rfl⟩ := ha
  rcases hi with rfl | rfl | ⟨body, _, rfl⟩ | ⟨src, dst, hop, hs, rfl⟩ | ⟨key, _, rfl⟩
  · exact discard_effect now
  · exact .quiet (t.createDirsFrom_frame [] _).1 trivial (fun h => by cases h)
  · by_cases hc : t.CanPlace call.temp
    · obtain ⟨hr, hf, _⟩ := createFile_of_canPlace hc now
      simp only [FileTree.handle, hr]
      refine .own (some []) [] hf (Or.inl rfl) ?_ (fun h => by cases h)
      show (t.createFile call.temp now).2.files call.temp = some []
      rw [hf, Function.update_self]
    · simp only [FileTree.handle, createFile_of_not_canPlace hc]
      exact .quiet rfl trivial (fun h => by cases h)
  · cases hr : (t.copyFile (src.splitOn '/') call.temp now).1 with
    | error e =>
      simp only [FileTree.handle, hr]
      exact .quiet (congrArg FileTree.files (copyFile_error hr)) trivial (fun h => by cases h)
    | ok n =>
      obtain ⟨b, hb, hc⟩ := copyFile_ok hr
      have hsrc : src ∈ call.op.keys := by
        rw [show call.op = .copy src dst from hop]
        exact List.mem_cons_self
      have hcomplete : Complete calls t₀ b :=
        hk _ ⟨src, hs, fun call' hm => hu call' hm src hsrc, rfl⟩ b hb
      obtain ⟨_, hf, _⟩ := copyFile_of_canPlace hb hc ((hu call hm src hsrc).path_ne_temp _) now
      simp only [FileTree.handle, hr]
      refine .own (some b) [] hf (Or.inl rfl) ?_ (fun h => by cases h)
      refine ⟨b, ?_, hcomplete⟩
      show (t.copyFile (src.splitOn '/') call.temp now).2.files call.temp = some b
      rw [hf, Function.update_self]
  · refine .removed _ (removeFile_files t call.path).1 ?_ rfl
    rcases removeFile_marks t call.path with h | h
    · exact Or.inr h
    · exact Or.inl h

theorem filling_effect {call : BlobCall} {written : Bytes} {c : FsCall} {r : FsCall.Reply c}
    (hm : call ∈ calls) (hh : t.files call.temp = some written)
    (hi : BlobPhase.Issues ⟨call, .filling written⟩ c) (ha : Answers t c r t') :
    BlobEffect calls t₀ t t' ⟨call, .filling written⟩
      (BlobPhase.advance ⟨call, .filling written⟩ c r) (marks t c r) := by
  obtain ⟨now, rfl, rfl⟩ := ha
  rcases hi with rfl | ⟨b, rfl⟩ | ⟨body, hbody, hb, rfl⟩
  · exact discard_effect now
  · obtain ⟨hf, _⟩ := append_files hh b now
    have hr := append_result hh b now
    by_cases hfit : written.length + b.length ≤ t.limits.maxFileSize
    · rw [if_pos hfit] at hr
      rw [List.take_of_length_le (by simpa using hfit)] at hf
      simp only [FileTree.handle, hr]
      refine .own (some (written ++ b)) [] hf (Or.inl rfl) ?_ (fun h => by cases h)
      show (t.append call.temp b now).2.files call.temp = some (written ++ b)
      rw [hf, Function.update_self]
    · -- The file is too large: only a part is written, and it is not published.
      rw [if_neg hfit] at hr
      simp only [FileTree.handle, hr]
      exact .own _ [] hf (Or.inl rfl) trivial (fun h => by cases h)
  · exact .quiet rfl ⟨written, hh, Or.inl ⟨call, hm, body, hbody, hb⟩⟩ (fun h => by cases h)

theorem full_effect {call : BlobCall} {c : FsCall} {r : FsCall.Reply c} (hne : call.path ≠ [])
    (hh : ∃ b, t.files call.temp = some b ∧ Complete calls t₀ b)
    (hi : BlobPhase.Issues ⟨call, .full⟩ c) (ha : Answers t c r t') :
    BlobEffect calls t₀ t t' ⟨call, .full⟩ (BlobPhase.advance ⟨call, .full⟩ c r) (marks t c r) := by
  obtain ⟨now, rfl, rfl⟩ := ha
  obtain ⟨b, hb, hcomplete⟩ := hh
  rcases hi with rfl | rfl | ⟨key, body, options, hop, hv, rfl⟩
  · exact discard_effect now
  · cases hr : (t.rename call.temp call.path).1 with
    | error e =>
      simp only [FileTree.handle, hr]
      refine .quiet (congrArg FileTree.files (rename_error hr)) ⟨b, ?_, hcomplete⟩ (fun h => h)
      rw [rename_error hr]
      exact hb
    | ok _ =>
      obtain ⟨_, _, hc⟩ := rename_ok hr
      obtain ⟨_, hf, _⟩ := rename_of_canPlace hb hc (tempPath_ne hne call.uuid)
      simp only [FileTree.handle, hr]
      exact .published b hb hcomplete hf rfl
  · cases hr : (t.hardLink call.temp call.path).1 with
    | error e =>
      simp only [FileTree.handle, hr]
      refine .quiet (congrArg FileTree.files (hardLink_error hr)) ⟨b, ?_, hcomplete⟩ (fun h => h)
      rw [hardLink_error hr]
      exact hb
    | ok _ =>
      obtain ⟨_, _, hc, hn⟩ := hardLink_ok hr
      obtain ⟨_, hf, _⟩ := hardLink_of_canPlace hb hc hn
      have hnone : t.lookup call.path = none :=
        lookup_eq_none_iff.mpr ⟨hn, (canPlace_iff.mp hc).2.2.2⟩
      have htarget : ValidKey call.op.target := by
        rwa [show call.op = .putIfNotExists key body options from hop]
      simp only [FileTree.handle, hr]
      exact .linked b htarget hb hcomplete hnone hf rfl

theorem blobPhase_effect {c : FsCall} {r : FsCall.Reply c} (hm : q.call ∈ calls)
    (hu : ∀ call' ∈ calls, ∀ key ∈ q.call.op.keys, Unnamed call'.uuid key)
    (hk : KeysComplete calls t₀ t) (hh : BlobHolds calls t₀ t q) (hi : q.Issues c)
    (ha : Answers t c r t') : BlobEffect calls t₀ t t' q (q.advance c r) (marks t c r) := by
  obtain ⟨call, stage⟩ := q
  cases stage with
  | idle => exact idle_effect hm hu hk hi ha
  | filling written => exact filling_effect hm hh hi ha
  | full => exact full_effect (splitOn_ne_nil call.op.target) hh hi ha
  | linked =>
    obtain ⟨now, rfl, rfl⟩ := ha
    rcases hi with rfl | hi
    · exact discard_effect now
    · cases hi

theorem BlobEffect.files_other {q' : BlobPhase} {ms : List Mark}
    (h : BlobEffect calls t₀ t t' q q' ms) {p : Path} (ht : p ≠ q.call.temp)
    (hp : p ≠ q.call.path) : t'.files p = t.files p := by
  cases h with
  | own content ms hf => rw [hf, Function.update_of_ne ht]
  | published b _ _ hf => rw [hf, Function.update_of_ne ht, Function.update_of_ne hp]
  | linked b _ _ _ _ hf => rw [hf, Function.update_of_ne hp]
  | removed ms hf => rw [hf, Function.update_of_ne hp]

end Steps

/-! ### The log -/

/-- A link to the path was made and what it made has not been removed since. -/
def LinkHeld (p : Path) : List Mark → Prop
  | [] => False
  | .linked _ dst _ :: log => dst = p ∨ LinkHeld p log
  | .removed q :: log => q ≠ p ∧ LinkHeld p log

/-- Each link was made where nothing was, and after a removal of what an earlier link made. -/
def Exclusive : List Mark → Prop
  | [] => True
  | .linked _ dst before :: log => before.lookup dst = none ∧ ¬ LinkHeld dst log ∧ Exclusive log
  | .removed _ :: log => Exclusive log

theorem linkHeld_append {src dst : Path} {before : FileTree} {between older : List Mark}
    (h : .removed dst ∉ between) : LinkHeld dst (between ++ .linked src dst before :: older) := by
  induction between with
  | nil => exact Or.inl rfl
  | cons m between ih =>
    rw [List.mem_cons, not_or] at h
    cases m with
    | linked src' dst' before' => exact Or.inr (ih h.2)
    | removed q => exact ⟨fun he => h.1 (he ▸ rfl), ih h.2⟩

theorem Exclusive.of_append {newer log : List Mark} (h : Exclusive (newer ++ log)) :
    Exclusive log := by
  induction newer with
  | nil => exact h
  | cons m newer ih =>
    cases m with
    | linked src dst before => exact ih h.2.2
    | removed q => exact ih h

/-- Two links to one path have a removal between them. -/
theorem Exclusive.removed_between {src src' dst : Path} {before before' : FileTree}
    {newer between older : List Mark} (h : Exclusive (newer ++ .linked src' dst before' ::
      (between ++ .linked src dst before :: older))) : .removed dst ∈ between := by
  by_contra hno
  exact h.of_append.2.1 (linkHeld_append hno)

theorem Exclusive.lookup_none {src dst : Path} {before : FileTree} {log : List Mark}
    (h : Exclusive log) (hm : .linked src dst before ∈ log) : before.lookup dst = none := by
  obtain ⟨newer, older, rfl⟩ := List.append_of_mem hm
  exact h.of_append.1

/-! ### The invariant -/

section Invariant

variable {calls : List BlobCall} {t₀ t t' : FileTree} {q : BlobPhase}

structure BlobInv (calls : List BlobCall) (t₀ : FileTree) (s : FileTree × List Mark)
    (qs : List BlobPhase) : Prop where
  same : qs.map BlobPhase.call = calls
  holds : ∀ q ∈ qs, BlobHolds calls t₀ s.1 q
  complete : KeysComplete calls t₀ s.1
  marked : ∀ q ∈ qs, q.stage = .linked → ∃ before, .linked q.call.temp q.call.path before ∈ s.2
  exclusive : Exclusive s.2
  held : ∀ p, KeyPath calls p → LinkHeld p s.2 → s.1.files p ≠ none

theorem KeyPath.ne_temp {p : Path} (h : KeyPath calls p) {call : BlobCall} (hm : call ∈ calls) :
    p ≠ call.temp := by
  obtain ⟨key, _, hu, rfl⟩ := h
  exact (hu call hm).path_ne_temp _

theorem BlobEffect.complete {q' : BlobPhase} {ms : List Mark}
    (h : BlobEffect calls t₀ t t' q q' ms) (hm : q.call ∈ calls) (hk : KeysComplete calls t₀ t) :
    KeysComplete calls t₀ t' := by
  intro p hp b hb
  have htemp := hp.ne_temp hm
  by_cases hpath : p = q.call.path
  · subst hpath
    cases h with
    | own content ms hf =>
      rw [hf, Function.update_of_ne htemp] at hb
      exact hk _ hp b hb
    | published b' _ hc hf =>
      rw [hf, Function.update_of_ne htemp, Function.update_self] at hb
      exact Option.some.inj hb ▸ hc
    | linked b' _ _ hc _ hf =>
      rw [hf, Function.update_self] at hb
      exact Option.some.inj hb ▸ hc
    | removed ms hf =>
      rw [hf, Function.update_self] at hb
      cases hb
  · rw [h.files_other htemp hpath] at hb
    exact hk p hp b hb

theorem BlobEffect.held {q' : BlobPhase} {ms log : List Mark}
    (h : BlobEffect calls t₀ t t' q q' ms) (hm : q.call ∈ calls)
    (hheld : ∀ p, KeyPath calls p → LinkHeld p log → t.files p ≠ none) :
    ∀ p, KeyPath calls p → LinkHeld p (ms ++ log) → t'.files p ≠ none := by
  intro p hp hl
  have htemp := hp.ne_temp hm
  by_cases hpath : p = q.call.path
  · subst hpath
    cases h with
    | own content ms hf hms =>
      rw [hf, Function.update_of_ne htemp]
      rcases hms with rfl | rfl
      · exact hheld _ hp hl
      · exact hheld _ hp hl.2
    | published b _ _ hf => simp [hf, Function.update_of_ne htemp]
    | linked b _ _ _ _ hf => simp [hf]
    | removed ms hf hms =>
      rcases hms with ⟨hnone, rfl⟩ | rfl
      · exact absurd hnone (hheld _ hp hl)
      · exact absurd rfl hl.1
  · rw [h.files_other htemp hpath]
    apply hheld p hp
    cases h with
    | own content ms _ hms =>
      rcases hms with rfl | rfl
      · exact hl
      · exact hl.2
    | published b => exact hl
    | linked b => exact hl.resolve_left (Ne.symm hpath)
    | removed ms _ hms =>
      rcases hms with ⟨_, rfl⟩ | rfl
      · exact hl
      · exact hl.2

theorem BlobEffect.exclusive {q' : BlobPhase} {ms log : List Mark}
    (h : BlobEffect calls t₀ t t' q q' ms)
    (hu : ∀ call' ∈ calls, ∀ key ∈ q.call.op.keys, Unnamed call'.uuid key)
    (hheld : ∀ p, KeyPath calls p → LinkHeld p log → t.files p ≠ none) (he : Exclusive log) :
    Exclusive (ms ++ log) := by
  cases h with
  | own content ms _ hms =>
    rcases hms with rfl | rfl
    · exact he
    · exact he
  | published b => exact he
  | linked b hv _ _ hnone =>
    refine ⟨hnone, fun hl => ?_, he⟩
    have htarget : q.call.op.target ∈ q.call.op.keys := by
      cases q.call.op <;> simp [BlobOp.target, BlobOp.keys]
    exact hheld _ ⟨_, hv, fun call' hm => hu call' hm _ htarget, rfl⟩ hl
      (files_of_lookup_none hnone)
  | removed ms _ hms =>
    rcases hms with ⟨_, rfl⟩ | rfl
    · exact he
    · exact he

theorem BlobEffect.marked {q' : BlobPhase} {ms log : List Mark}
    (h : BlobEffect calls t₀ t t' q q' ms) (hcall : q'.call = q.call)
    (hmarked : q.stage = .linked → ∃ before, .linked q.call.temp q.call.path before ∈ log)
    (hl : q'.stage = .linked) :
    ∃ before, .linked q'.call.temp q'.call.path before ∈ ms ++ log := by
  rw [hcall]
  cases h with
  | own content ms _ _ _ hkeep =>
    obtain ⟨before, hm⟩ := hmarked (hkeep hl)
    exact ⟨before, List.mem_append_right _ hm⟩
  | published b _ _ _ hidle =>
    rw [hidle] at hl
    cases hl
  | linked b => exact ⟨t, List.mem_cons_self⟩
  | removed ms _ _ hidle =>
    rw [hidle] at hl
    cases hl

theorem BlobEffect.own_holds {q' : BlobPhase} {ms : List Mark}
    (h : BlobEffect calls t₀ t t' q q' ms) : BlobHolds calls t₀ t' q' := by
  cases h with
  | own content ms _ _ hh => exact hh
  | published b _ _ _ hidle => simp only [BlobHolds, hidle]
  | linked b _ _ _ _ _ hlinked => simp only [BlobHolds, hlinked]
  | removed ms _ _ hidle => simp only [BlobHolds, hidle]

theorem BlobInv.step (hu : Unrelated calls) {log log' : List Mark} {before after : List BlobPhase}
    {c : FsCall} {r : FsCall.Reply c} (h : BlobInv calls t₀ (t, log) (before ++ q :: after))
    (hi : q.Issues c) (ha : LoggedAnswers (t, log) c r (t', log')) :
    BlobInv calls t₀ (t', log') (before ++ q.advance c r :: after) := by
  obtain ⟨ha, hlog⟩ := ha
  obtain rfl : log' = marks t c r ++ log := hlog
  have hmem : ∀ o ∈ before ++ q :: after, o.call ∈ calls := fun o ho =>
    h.same ▸ List.mem_map_of_mem ho
  have hm : q.call ∈ calls := hmem q (by simp)
  have hnames : ∀ call' ∈ calls, ∀ key ∈ q.call.op.keys, Unnamed call'.uuid key :=
    fun call' hm' => hu.unnamed call' hm' q.call hm
  have heffect := blobPhase_effect hm hnames h.complete (h.holds q (by simp)) hi ha
  have hdistinct : ∀ o ∈ before ++ after, o.call.uuid ≠ q.call.uuid := by
    have hp := hu.distinct
    rw [← h.same, List.map_append, List.map_cons, List.pairwise_append, List.pairwise_cons] at hp
    intro o ho
    rcases List.mem_append.mp ho with ho | ho
    · exact hp.2.2 _ (List.mem_map_of_mem ho) _ (by simp)
    · exact (hp.2.1.1 _ (List.mem_map_of_mem ho)).symm
  have hcases : ∀ o ∈ before ++ q.advance c r :: after,
      o = q.advance c r ∨ (o ∈ before ++ after ∧ o ∈ before ++ q :: after) := by
    intro o ho
    simp only [List.mem_append, List.mem_cons] at ho ⊢
    tauto
  refine ⟨?_, ?_, heffect.complete hm h.complete, ?_, heffect.exclusive hnames h.held h.exclusive,
    heffect.held hm h.held⟩
  · rw [← h.same]
    simp [BlobPhase.advance_call]
  · intro o ho
    rcases hcases o ho with rfl | ⟨hother, ho'⟩
    · exact heffect.own_holds
    · have htemp : o.call.temp ≠ q.call.temp := fun he => hdistinct o hother (tempPath_inj he)
      have hpath : o.call.temp ≠ q.call.path := by
        have htarget : q.call.op.target ∈ q.call.op.keys := by
          cases q.call.op <;> simp [BlobOp.target, BlobOp.keys]
        exact ((hu.unnamed _ (hmem o ho') _ hm _ htarget).path_ne_temp _).symm
      exact (h.holds o ho').of_files (heffect.files_other htemp hpath)
  · intro o ho hl
    rcases hcases o ho with rfl | ⟨_, ho'⟩
    · exact heffect.marked (q.advance_call c r) (h.marked q (by simp)) hl
    · obtain ⟨before', hb⟩ := h.marked o ho' hl
      exact ⟨before', List.mem_append_right _ hb⟩

end Invariant

/-- The call is a conditional put that returned `Ok(Some)`. -/
def WonPut (th : BlobThread) : Prop :=
  ∃ outcome, th.prog = .ret (.putIfNotExists (.ok (some outcome)))

/-- The mark of the link that a call made to its path, where nothing was. -/
def LinkOf (call : BlobCall) (m : Mark) : Prop :=
  ∃ before, m = .linked call.temp call.path before ∧ before.lookup call.path = none

/-- The log has the links of two calls, and a removal of the path between them. -/
def RemovedBetween (a b : BlobCall) (log : List Mark) : Prop :=
  ∃ newer between older m m', log = newer ++ m' :: (between ++ m :: older) ∧
    (LinkOf a m ∧ LinkOf b m' ∨ LinkOf b m ∧ LinkOf a m') ∧ .removed a.path ∈ between

theorem removedBetween_of_links {a b : BlobCall} {log : List Mark} (he : Exclusive log)
    (hne : a.uuid ≠ b.uuid) (hpath : a.path = b.path) {m m' : Mark} (hm : m ∈ log) (hm' : m' ∈ log)
    (ha : LinkOf a m) (hb : LinkOf b m') : RemovedBetween a b log := by
  obtain ⟨before, rfl, _⟩ := ha
  obtain ⟨before', rfl, _⟩ := hb
  have hla : LinkOf a (.linked a.temp a.path before) := ⟨before, rfl, he.lookup_none hm⟩
  have hlb : LinkOf b (.linked b.temp b.path before') := ⟨before', rfl, he.lookup_none hm'⟩
  have hmarks : Mark.linked b.temp b.path before' ≠ .linked a.temp a.path before := by
    intro h
    exact hne (tempPath_inj (Mark.linked.inj h).1).symm
  obtain ⟨newer, older, rfl⟩ := List.append_of_mem hm
  rcases List.mem_append.mp hm' with hnewer | holder
  · obtain ⟨newest, between, rfl⟩ := List.append_of_mem hnewer
    have hlog : newest ++ .linked b.temp b.path before' :: between ++
        .linked a.temp a.path before :: older = newest ++ .linked b.temp b.path before' ::
          (between ++ .linked a.temp a.path before :: older) := by simp
    rw [hlog, ← hpath] at he
    exact ⟨newest, between, older, _, _, hlog, Or.inl ⟨hla, hlb⟩, he.removed_between⟩
  · have holder := (List.mem_cons.mp holder).resolve_left hmarks
    obtain ⟨between, oldest, rfl⟩ := List.append_of_mem holder
    rw [← hpath] at he
    exact ⟨newer, between, oldest, _, _, rfl, Or.inr ⟨hlb, hla⟩, he.removed_between⟩

/-- In every interleaving: a file at the path of a key is a complete body, each conditional put
that returned `Ok(Some)` linked its file where nothing was, and between the links of two of
them to one path that path was removed. -/
theorem blob_writes_atomic (D : Digest) (calls : List BlobCall) (hu : Unrelated calls)
    (t₀ t : FileTree) (log : List Mark) (pool : List BlobThread)
    (hr : Reach blobDiscipline.next LoggedAnswers (fun _ _ _ => True)
      ((t₀, []), calls.map (blobThread D)) ((t, log), pool)) :
    (∀ p, KeyPath calls p → t.files p = none ∨ ∃ b, t.files p = some b ∧ Complete calls t₀ b) ∧
    pool.map (fun th => th.phase.call) = calls ∧
    (∀ th ∈ pool, WonPut th → ∃ m ∈ log, LinkOf th.phase.call m) ∧
    pool.Pairwise fun th th' => WonPut th → WonPut th' → th.phase.call.path = th'.phase.call.path →
      RemovedBetween th.phase.call th'.phase.call log := by
  have hstart : Disciplined blobDiscipline BlobReturned (calls.map (blobThread D)) := by
    intro th hth
    obtain ⟨call, _, rfl⟩ := List.mem_map.mp hth
    exact blobCall_follows D call
  have hphases : (calls.map (blobThread D)).map Thread.phase =
      calls.map fun call => ⟨call, .idle⟩ := by
    rw [List.map_map]
    rfl
  have hinit : BlobInv calls t₀ (t₀, []) ((calls.map (blobThread D)).map Thread.phase) := by
    rw [hphases]
    refine ⟨by simp [List.map_map, Function.comp_def], ?_, ?_, ?_, trivial, fun _ _ h => h.elim⟩
    · intro q hq
      obtain ⟨call, _, rfl⟩ := List.mem_map.mp hq
      trivial
    · rintro p ⟨key, hv, hn, rfl⟩ b hb
      exact Or.inr ⟨key, hv, hn, hb⟩
    · intro q hq hl
      obtain ⟨call, _, rfl⟩ := List.mem_map.mp hq
      cases hl
  obtain ⟨hdisc, hinv⟩ := Reach.invariant (BlobInv calls t₀)
    (fun s s' before after q c k r h hi _ ha => h.step hu hi ha) hr hstart hinit
  have hsame : pool.map (fun th => th.phase.call) = calls := by
    rw [← hinv.same, List.map_map]
    rfl
  have hlink : ∀ th ∈ pool, WonPut th → ∃ m ∈ log, LinkOf th.phase.call m := by
    intro th hth hwon
    obtain ⟨outcome, hprog⟩ := hwon
    have hpost := hdisc th hth
    rw [hprog] at hpost
    obtain ⟨before, hm⟩ := hinv.marked _ (List.mem_map_of_mem hth) (hpost outcome rfl)
    exact ⟨_, hm, before, rfl, hinv.exclusive.lookup_none hm⟩
  refine ⟨fun p hp => ?_, hsame, hlink, ?_⟩
  · cases hb : t.files p with
    | none => exact Or.inl rfl
    | some b => exact Or.inr ⟨b, rfl, hinv.complete p hp b hb⟩
  · have hdistinct := hu.distinct
    rw [← hsame] at hdistinct
    refine (List.pairwise_map.mp hdistinct).imp_of_mem
      fun {th th'} hth hth' hne hwon hwon' hpath => ?_
    obtain ⟨m, hm, hl⟩ := hlink th hth hwon
    obtain ⟨m', hm', hl'⟩ := hlink th' hth' hwon'
    exact removedBetween_of_links hinv.exclusive hne hpath hm hm' hl hl'

/-- Two conditional puts to one key and a deletion. -/
def sampleBlobCalls : List BlobCall :=
  [⟨.putIfNotExists "k".toList (.fromBytes [1]) ⟨none⟩, sampleUuid 1⟩,
    ⟨.putIfNotExists "k".toList (.fromBytes [2]) ⟨none⟩, sampleUuid 2⟩,
    ⟨.delete "k".toList, sampleUuid 3⟩]

/-- The filesystem with the log, at time 0. -/
def loggedHandle (c : FsCall) (s : FileTree × List Mark) :
    FsCall.Reply c × (FileTree × List Mark) :=
  ((s.1.handle 0 c).1, (s.1.handle 0 c).2, marks s.1 c (s.1.handle 0 c).1 ++ s.2)

/-- Both puts fill their files; the first links, the key is deleted, and the second links. -/
def sampleBlobRace : (FileTree × List Mark) × List BlobThread :=
  runSchedule blobDiscipline.next loggedHandle
    ((FileTree.empty Limits.widest, []), sampleBlobCalls.map (blobThread Digest.sha256))
    [0, 0, 0, 0, 1, 1, 1, 1, 0, 2, 1, 0, 1]

/-- Whether a thread has returned `Ok(Some)`. -/
def hasWonPut (th : BlobThread) : Bool :=
  match th.prog with
  | .ret (.putIfNotExists (.ok (some _))) => true
  | _ => false

/-- Both conditional puts win, because the key was removed between their links. -/
theorem blob_writes_atomic_delete_between :
    ∃ t log pool, Reach blobDiscipline.next LoggedAnswers (fun _ _ _ => True)
      ((FileTree.empty Limits.widest, []), sampleBlobCalls.map (blobThread Digest.sha256))
      ((t, log), pool) ∧ t.files ["k".toList] = some [2] ∧
      pool.map hasWonPut = [true, true, false] ∧
      pool.Pairwise fun th th' => WonPut th → WonPut th' →
        th.phase.call.path = th'.phase.call.path →
          RemovedBetween th.phase.call th'.phase.call log := by
  have hreach : Reach blobDiscipline.next LoggedAnswers (fun _ _ _ => True)
      ((FileTree.empty Limits.widest, []), sampleBlobCalls.map (blobThread Digest.sha256))
      sampleBlobRace :=
    runSchedule_reach (fun _ _ => ⟨⟨0, rfl, rfl⟩, rfl⟩) (by decide +kernel)
  have hunrelated : Unrelated sampleBlobCalls :=
    ⟨by decide +kernel, by decide +kernel⟩
  have hfile : sampleBlobRace.1.1.files ["k".toList] = some [2] := by decide +kernel
  have hwon : sampleBlobRace.2.map hasWonPut = [true, true, false] := by decide +kernel
  generalize sampleBlobRace = x at hreach hfile hwon
  obtain ⟨⟨t, log⟩, pool⟩ := x
  exact ⟨t, log, pool, hreach, hfile, hwon,
    (blob_writes_atomic _ _ hunrelated _ _ _ _ hreach).2.2.2⟩

end GraphqlOrmStorage.Local
