import GraphqlOrmStorage.LocalReadRaces
import GraphqlOrmStorage.LocalHousekeeping
import GraphqlOrmStorage.SizeHints
import GraphqlOrmStorage.AtomicMap

/-!
# Calls of the local backend that overlap

Any number of calls under one root, interleaved one filesystem call at a time, and with
sweeps among them. A write is published by one rename or one hard link; a copy reads its
source when it fills its temporary file and is published later; `get_blob` opens the file
and looks at the path once more. So a call is a few events of a map from paths to
contents, each of them atomic. The phases follow a call up to the events it has had, and
what it returns is compared with them in the end.
-/
namespace GraphqlOrmStorage.Local

open Text Program Program.Prog FileTree

/-! ### Calls and the events that explain their results -/

/-- A call of the backend. -/
inductive LocalOp where
  | write (call : BlobCall)
  | getBlob (key : Str)
  | getBlobRange (key : Str) (start stop : ℕ)
  | headBlob (key : Str)
  | blobExists (key : Str)
  | sweep (fuel : ℕ) (now : ℤ) (olderThan : ℕ)

inductive LocalResult where
  | wrote (reply : BlobReply)
  | read (result : Except StorageError BlobBody)
  | described (result : Except StorageError (Option BlobMetadata))
  | found (result : Except StorageError Bool)
  | swept (result : Except Stop ℕ)

def LocalOp.prog (D : Digest) : LocalOp → FsM LocalResult
  | .write writer => do return .wrote (← writer.prog D)
  | .getBlob key => do return .read (← Local.getBlob key)
  | .getBlobRange key start stop => do return .read (← Local.getBlobRange key start stop)
  | .headBlob key => do return .described (← Local.headBlob key)
  | .blobExists key => do return .found (← Local.blobExists key)
  | .sweep fuel now olderThan => do return .swept (← sweepTempFiles fuel now olderThan)

/-- The keys that a call names. -/
def LocalOp.keys : LocalOp → List Str
  | .write writer => writer.op.keys
  | .getBlob key | .getBlobRange key _ _ | .headBlob key | .blobExists key => [key]
  | .sweep _ _ _ => []

abbrev FileChange := MapEvent Path Bytes

/-- The path of a key. -/
abbrev keyPath (key : Str) : Path := key.splitOn '/'

/-- The metadata is that of a content: its key and its length, or nothing. -/
def DescribedAs (key : Str) (metadata : Option BlobMetadata) (content : Option Bytes) : Prop :=
  metadata.map (fun m => (m.key, m.sizeBytes)) = content.map fun c => (key, some c.length)

/-- The events that explain what a call returned. -/
def Explains (D : Digest) : LocalOp → LocalResult → List FileChange → Prop
  | .write ⟨.put key body _, _⟩, .wrote (.put (.ok outcome)), events => ∃ b, body.body = .ok b ∧
      outcome = outcomeOf D b ∧ events = [.wrote (keyPath key) b]
  | .write ⟨.putIfNotExists key body _, _⟩, .wrote (.putIfNotExists (.ok (some outcome))), events =>
    ∃ b, body.body = .ok b ∧ outcome = outcomeOf D b ∧ events = [.created (keyPath key) b]
  | .write ⟨.putIfNotExists key _ _, _⟩, .wrote (.putIfNotExists (.ok none)), events =>
    ∃ content, events = [.saw (keyPath key) (some content)]
  | .write ⟨.copy src dst, _⟩, .wrote (.copy (.ok ())), events =>
    ∃ b, events = [.saw (keyPath src) (some b), .wrote (keyPath dst) b]
  | .write ⟨.delete key, _⟩, .wrote (.delete (.ok ())), events => events = [.erased (keyPath key)]
  | .getBlob key, .read (.ok blob), events => ∃ content later,
      events = [.saw (keyPath key) (some content), .saw (keyPath key) later] ∧
        blob.body.body = .ok content ∧ DescribedAs key blob.metadata later
  | .getBlobRange key start stop, .read (.ok blob), events => start ≤ stop ∧ ∃ content later,
      events = [.saw (keyPath key) (some content), .saw (keyPath key) later] ∧
        blob.body.body = .ok (Ranges.slice content start stop) ∧
        DescribedAs key blob.metadata later
  | .headBlob key, .described (.ok metadata), events => ∃ content,
      events = [.saw (keyPath key) content] ∧ DescribedAs key metadata content
  | .blobExists key, .found (.ok found), events => ∃ content,
      events = [.saw (keyPath key) content] ∧ found = content.isSome
  | .write ⟨.copy src _, _⟩, .wrote (.copy (.error e)), events =>
    if e = .missingBlob src then events = [.saw (keyPath src) none]
    else events = [] ∨ ∃ b, events = [.saw (keyPath src) (some b)]
  | .getBlob key, .read (.error e), events | .getBlobRange key _ _, .read (.error e), events =>
    if e = .missingBlob key then events = [.saw (keyPath key) none]
    else events = [] ∨ ∃ content, events = [.saw (keyPath key) (some content)]
  | .write ⟨.put _ _ _, _⟩, .wrote (.put (.error _)), events
  | .write ⟨.putIfNotExists _ _ _, _⟩, .wrote (.putIfNotExists (.error _)), events
  | .write ⟨.delete _, _⟩, .wrote (.delete (.error _)), events
  | .headBlob _, .described (.error _), events | .blobExists _, .found (.error _), events
  | .sweep _ _ _, .swept _, events => events = []
  | _, _, _ => False

/-- The events that a call can have. -/
def Possible : LocalOp → List FileChange → Prop
  | .write ⟨.put key body _, _⟩, events =>
    events = [] ∨ ∃ b, body.body = .ok b ∧ events = [.wrote (keyPath key) b]
  | .write ⟨.putIfNotExists key body _, _⟩, events =>
    events = [] ∨ (∃ b, body.body = .ok b ∧ events = [.created (keyPath key) b]) ∨
      ∃ content, events = [.saw (keyPath key) (some content)]
  | .write ⟨.copy src dst, _⟩, events =>
    events = [] ∨ (∃ content, events = [.saw (keyPath src) content]) ∨
      ∃ b, events = [.saw (keyPath src) (some b), .wrote (keyPath dst) b]
  | .write ⟨.delete key, _⟩, events => events = [] ∨ events = [.erased (keyPath key)]
  | .getBlob key, events | .getBlobRange key _ _, events =>
    events = [] ∨ (∃ content, events = [.saw (keyPath key) content]) ∨
      ∃ content later, events = [.saw (keyPath key) (some content), .saw (keyPath key) later]
  | .headBlob key, events | .blobExists key, events =>
    events = [] ∨ ∃ content, events = [.saw (keyPath key) content]
  | .sweep _ _ _, events => events = []

/-! ### Phases -/

/-- How far a call has come: its events so far, with nothing prepared; or its parent
directory is there, its temporary file holds a part of the body, all of it or a copy of the
source, that copy is published, or a link found its path taken. A sweep has no events. -/
inductive LocalStage where
  | past (events : List FileChange)
  | prepared
  | filling (written : Bytes)
  | full (b : Bytes)
  | copied
  | moved
  | taken
  | sweeping
  | astray

structure LocalPhase where
  call : LocalOp
  stage : LocalStage

def LocalOp.firstStage : LocalOp → LocalStage
  | .sweep _ _ _ => .sweeping
  | _ => .past []

/-- The temporary file holds this content, unless a sweep removed it. -/
def TempHolds (t : FileTree) (call : BlobCall) (b : Bytes) : Prop :=
  t.files call.temp = none ∨ t.files call.temp = some b

/-- The events of a call so far. -/
def LocalPhase.Admits (t : FileTree) (q : LocalPhase) (events : List FileChange) : Prop :=
  match q.stage with
  | .past before => events = before
  | .prepared | .filling _ | .full _ | .sweeping => events = []
  | .copied => ∃ src dst u b, q.call = .write ⟨.copy src dst, u⟩ ∧ TempHolds t ⟨.copy src dst, u⟩ b ∧
      events = [.saw (keyPath src) (some b)]
  | .moved => ∃ src dst u b, q.call = .write ⟨.copy src dst, u⟩ ∧
      events = [.saw (keyPath src) (some b), .wrote (keyPath dst) b]
  | .taken => ∃ call content, q.call = .write call ∧ events = [.saw call.path (some content)]
  | .astray => False

/-- After a file was looked at. -/
def seenStage (before : List FileChange) (p : Path) : Except ErrorKind Node → LocalStage
  | .ok (.file b _) => .past (before ++ [.saw p (some b)])
  | .ok .dir => .astray
  | .error .notFound => .past (before ++ [.saw p none])
  | .error _ => .past before

/-- After a file was removed by a call that deletes. -/
def erasedStage (p : Path) : Except ErrorKind Unit → LocalStage
  | .ok () | .error .notFound => .past [.erased p]
  | .error _ => .past []

/-- After a temporary file was removed. -/
def LocalStage.discarded : LocalStage → LocalStage
  | .filling _ => .past []
  | stage => stage

/-- The stage after a reply. -/
def LocalStage.next (call : LocalOp) (stage : LocalStage) : (c : FsCall) → FsCall.Reply c →
    LocalStage
  | .createDirAll _, .ok () => .prepared
  | .createDirAll _, .error _ => .past []
  | .createFile _, .ok () => .filling []
  | .createFile _, .error _ => .past []
  | .append _ b, .ok () =>
    match stage with
    | .filling written => .filling (written ++ b)
    | _ => stage
  | .append _ _, .error _ => .past []
  | .flush _, .ok () =>
    match stage with
    | .filling written => .full written
    | _ => stage
  | .flush _, .error _ => .past []
  | .copyFile _ _, .ok _ => .copied
  | .copyFile src _, .error .notFound => .past [.saw src none]
  | .copyFile _ _, .error _ => .past []
  | .rename _ dst, .ok () =>
    match stage with
    | .full b => .past [.wrote dst b]
    | .copied => .moved
    | _ => stage
  | .rename _ _, .error _ =>
    match stage with
    | .full _ => .past []
    | _ => stage
  | .hardLink _ dst, .ok () =>
    match stage with
    | .full b => .past [.created dst b]
    | _ => stage
  | .hardLink _ _, .error .alreadyExists => .taken
  | .hardLink _ _, .error _ => .past []
  | .removeFile p, reply =>
    match call with
    | .write ⟨.delete _, _⟩ => erasedStage p reply
    | _ => stage.discarded
  | .openFile p, reply =>
    match stage with
    | .past before => seenStage before p reply
    | _ => stage
  | .metadata p, reply =>
    match stage with
    | .past before => seenStage before p reply
    | _ => stage
  | _, _ => stage

def LocalPhase.advance (q : LocalPhase) (c : FsCall) (reply : FsCall.Reply c) : LocalPhase :=
  ⟨q.call, q.stage.next q.call c reply⟩

/-- A call that prepares a temporary file. -/
def BlobOp.Prepares : BlobOp → Prop
  | .delete _ => False
  | _ => True

/-- The key that a reading call opens. -/
def LocalOp.opens : LocalOp → Option Str
  | .getBlob key | .getBlobRange key _ _ => some key
  | _ => none

/-- The key that a reading call asks for. -/
def LocalOp.asks : LocalOp → Option Str
  | .headBlob key | .blobExists key => some key
  | _ => none

/-- The filesystem calls of each stage. -/
inductive LocalPhase.Issues : LocalPhase → FsCall → Prop
  | createDirs {call : BlobCall} : call.op.Prepares →
      Issues ⟨.write call, .past []⟩ (.createDirAll call.path.dropLast)
  | createFile {call : BlobCall} {body} : call.op.body = some body →
      Issues ⟨.write call, .prepared⟩ (.createFile call.temp)
  | append {call : BlobCall} {written b} : call.op.Prepares →
      Issues ⟨.write call, .filling written⟩ (.append call.temp b)
  | flush {call : BlobCall} {written} : call.op.Prepares →
      Issues ⟨.write call, .filling written⟩ (.flush call.temp)
  | rename {key body options u b} : ValidKey key → body.body = .ok b →
      Issues ⟨.write ⟨.put key body options, u⟩, .full b⟩
        (.rename (BlobCall.temp ⟨.put key body options, u⟩) (keyPath key))
  | link {key body options u b} : ValidKey key → body.body = .ok b →
      Issues ⟨.write ⟨.putIfNotExists key body options, u⟩, .full b⟩
        (.hardLink (BlobCall.temp ⟨.putIfNotExists key body options, u⟩) (keyPath key))
  | copy {src dst u} : ValidKey src → Issues ⟨.write ⟨.copy src dst, u⟩, .prepared⟩
        (.copyFile (keyPath src) (BlobCall.temp ⟨.copy src dst, u⟩))
  | publish {src dst u} : ValidKey dst → Issues ⟨.write ⟨.copy src dst, u⟩, .copied⟩
        (.rename (BlobCall.temp ⟨.copy src dst, u⟩) (keyPath dst))
  | discard {call : BlobCall} {stage} : call.op.Prepares →
      Issues ⟨.write call, stage⟩ (.removeFile call.temp)
  | delete {key u} : ValidKey key →
      Issues ⟨.write ⟨.delete key, u⟩, .past []⟩ (.removeFile (keyPath key))
  | opens {op key} : LocalOp.opens op = some key → ValidKey key →
      Issues ⟨op, .past []⟩ (.openFile (keyPath key))
  | looks {op key content} : LocalOp.opens op = some key → ValidKey key →
      Issues ⟨op, .past [.saw (keyPath key) (some content)]⟩ (.metadata (keyPath key))
  | asks {op key} : LocalOp.asks op = some key → ValidKey key →
      Issues ⟨op, .past []⟩ (.metadata (keyPath key))
  | astray {op key} : LocalOp.opens op = some key → Issues ⟨op, .astray⟩ (.metadata (keyPath key))
  | finds {fuel now olderThan p} : Issues ⟨.sweep fuel now olderThan, .sweeping⟩ (.metadata p)
  | lists {fuel now olderThan p} : Issues ⟨.sweep fuel now olderThan, .sweeping⟩ (.readDir p)
  | sweeps {fuel now olderThan p} : isUploadingTempFile p = true →
      Issues ⟨.sweep fuel now olderThan, .sweeping⟩ (.removeFile p)

def localDiscipline : Discipline Fs LocalPhase where
  allowed := LocalPhase.Issues
  next := LocalPhase.advance

abbrev LocalThread := Thread Fs LocalPhase LocalResult

/-- The call before its first step. -/
def LocalOp.start (D : Digest) (call : LocalOp) : LocalThread :=
  ⟨⟨call, call.firstStage⟩, call.prog D⟩

/-- A call of the pool returns something that its events explain. -/
def Settles (D : Digest) (q : LocalPhase) (result : LocalResult) : Prop :=
  ∀ t events, q.Admits t events → Explains D q.call result events

/-! ### The calls keep to their phases -/

section Writers

variable {D : Digest} {writer : BlobCall} {body : StorageByteStream}

theorem advance_discard (h : writer.op.Prepares) (stage : LocalStage)
    (reply : FsCall.Reply (.removeFile writer.temp)) :
    LocalPhase.advance ⟨.write writer, stage⟩ (.removeFile writer.temp) reply =
      ⟨.write writer, stage.discarded⟩ := by
  obtain ⟨op, u⟩ := writer
  cases op with
  | delete key => cases h
  | put | putIfNotExists | copy => rfl

theorem discardTemp_follows_local {α : Type} {post : LocalPhase → α → Prop} {stage : LocalStage}
    {result : α} (h : writer.op.Prepares) (hpost : post ⟨.write writer, stage.discarded⟩ result) :
    Follows localDiscipline post ⟨.write writer, stage⟩ (discardTemp writer.temp result) := by
  refine ⟨.discard h, fun reply => ?_⟩
  show post (LocalPhase.advance ⟨.write writer, stage⟩ (.removeFile writer.temp) reply) result
  rw [advance_discard h stage reply]
  exact hpost

/-- The call ended without a complete file. -/
def Stopped (writer : BlobCall) (q : LocalPhase) : Prop :=
  ∃ stage, q = ⟨.write writer, stage⟩ ∧ stage.discarded = .past []

/-- After the loop over the items of a body, behind these chunks. -/
def Filled (D : Digest) (writer : BlobCall) (chunks : List Bytes)
    (items : List (Except StorageError Bytes)) (q : LocalPhase) :
    Except StorageError (D.Hasher × ℕ) → Prop
  | .ok (hasher, size) => firstError items = none ∧
      q = ⟨.write writer, .filling (chunks ++ okChunks items).flatten⟩ ∧
      hasher = (chunks ++ okChunks items).foldl D.update D.new ∧
      size = min (chunks ++ okChunks items).flatten.length u64Max
  | .error _ => Stopped writer q

theorem writeChunks_follows_local (h : writer.op.Prepares)
    (items : List (Except StorageError Bytes)) (chunks : List Bytes) :
    Follows localDiscipline (Filled D writer chunks items)
      ⟨.write writer, .filling chunks.flatten⟩
      (writeChunks D writer.temp items (chunks.foldl D.update D.new)
        (min chunks.flatten.length u64Max)) := by
  induction items generalizing chunks with
  | nil => exact ⟨rfl, by simp [okChunks], by simp [okChunks], by simp [okChunks]⟩
  | cons item items ih =>
    cases item with
    | error e => exact ⟨_, rfl, rfl⟩
    | ok chunk =>
      refine ⟨.append h, fun reply => ?_⟩
      cases reply with
      | error source => exact ⟨_, rfl, rfl⟩
      | ok _ =>
        have hrest := ih (chunks ++ [chunk])
        have hflat : (chunks ++ [chunk]).flatten = chunks.flatten ++ chunk := by simp
        have hsize : saturatingAdd (min chunks.flatten.length u64Max) chunk.length =
            min (chunks.flatten ++ chunk).length u64Max := by
          rw [saturatingAdd, List.length_append]
          omega
        rw [hflat, List.foldl_concat, ← hsize] at hrest
        refine Follows.mono hrest fun q result hfilled => ?_
        cases result with
        | error e => exact hfilled
        | ok out => simpa [Filled, okChunks, firstError] using hfilled

/-- After the temporary file was written. -/
def Ready (D : Digest) (writer : BlobCall) (body : StorageByteStream) (q : LocalPhase) :
    Except StorageError BlobWriteOutcome → Prop
  | .ok outcome => ∃ b, body.body = .ok b ∧ outcome = outcomeOf D b ∧ q = ⟨.write writer, .full b⟩
  | .error _ => Stopped writer q

theorem writeStreamToTemp_follows_local (h : writer.op.Prepares)
    (hbody : writer.op.body = some body) :
    Follows localDiscipline (Ready D writer body) ⟨.write writer, .prepared⟩
      (writeStreamToTemp D writer.temp body) := by
  refine ⟨.createFile hbody, fun reply => ?_⟩
  cases reply with
  | error source => exact ⟨_, rfl, rfl⟩
  | ok _ =>
    have hloop : Follows localDiscipline (Filled D writer [] body.inner)
        ⟨.write writer, .filling []⟩ (writeChunks D writer.temp body.inner D.new 0) := by
      simpa using writeChunks_follows_local (D := D) h body.inner []
    show Follows localDiscipline _ ⟨.write writer, .filling []⟩
      ((writeChunks D writer.temp body.inner D.new 0).bind _)
    refine Follows.bind hloop fun q result hfilled => ?_
    cases result with
    | error e => exact hfilled
    | ok out =>
      obtain ⟨hasher, size⟩ := out
      obtain ⟨hnone, rfl, rfl, rfl⟩ := hfilled
      refine ⟨.flush h, fun reply => ?_⟩
      cases reply with
      | error source => exact ⟨_, rfl, rfl⟩
      | ok _ =>
        refine ⟨(okChunks body.inner).flatten,
          StorageByteStream.body_eq_ok.mpr ⟨hnone, rfl⟩, ?_, by simp [localDiscipline,
            LocalPhase.advance, LocalStage.next]⟩
        rw [List.nil_append, D.finalize_foldl]
        rfl

/-- After the parent directory was made. -/
def ParentMade (writer : BlobCall) (q : LocalPhase) : Except StorageError Unit → Prop
  | .ok _ => q = ⟨.write writer, .prepared⟩
  | .error e => q = ⟨.write writer, .past []⟩ ∧ ∀ key, e ≠ .missingBlob key

theorem createParentDir_follows_local (writer : BlobCall) (h : writer.op.Prepares)
    (hne : writer.path ≠ []) :
    Follows localDiscipline (ParentMade writer) ⟨.write writer, .past []⟩
      (createParentDir writer.path) := by
  rw [createParentDir, if_neg hne]
  refine ⟨.createDirs h, fun reply => ?_⟩
  cases reply with
  | error source => exact ⟨rfl, by simp⟩
  | ok _ => rfl

theorem uploadThen_follows_local {α : Type} (writer : BlobCall) {key : Str}
    (h : writer.op.Prepares)
    (hbody : writer.op.body = some body) (hkey : writer.op.target = key)
    {publish : Path → Path → BlobWriteOutcome → FsM (Except StorageError α)}
    {post : LocalPhase → Except StorageError α → Prop}
    (herror : ∀ e, post ⟨.write writer, .past []⟩ (.error e))
    (hpublish : ValidKey key → ∀ b, body.body = .ok b → Follows localDiscipline post
      ⟨.write writer, .full b⟩ (publish writer.temp writer.path (outcomeOf D b))) :
    Follows localDiscipline post ⟨.write writer, .past []⟩
      (uploadThen D writer.uuid key body publish) := by
  by_cases hv : ValidKey key
  swap
  · rw [uploadThen, pathFor_of_not_valid hv]
    exact herror _
  have hpath : key.splitOn '/' = writer.path := by rw [BlobCall.path, hkey]
  have hne : writer.path ≠ [] := by rw [← hpath]; exact splitOn_ne_nil key
  simp only [uploadThen, pathFor_of_valid hv, hpath, tempPathFor_eq hne]
  refine Follows.bind (createParentDir_follows_local writer h hne) fun q result hq => ?_
  cases result with
  | error e =>
    obtain rfl := hq.1
    exact herror e
  | ok _ =>
    obtain rfl : q = _ := hq
    refine Follows.bind (writeStreamToTemp_follows_local h hbody) fun q result hq => ?_
    cases result with
    | error e =>
      obtain ⟨stage, rfl, hstage⟩ := hq
      exact discardTemp_follows_local h (by rw [hstage]; exact herror e)
    | ok outcome =>
      obtain ⟨b, hb, rfl, rfl⟩ := hq
      exact hpublish hv b hb

theorem settles_past {call : LocalOp} {before : List FileChange} {result : LocalResult}
    (h : Explains D call result before) : Settles D ⟨call, .past before⟩ result := by
  intro t events he
  obtain rfl : events = before := he
  exact h

theorem putBlob_settles (u : Uuid) (key : Str) (options : BlobPutOptions) :
    Follows localDiscipline (fun q result => Settles D q (.wrote (.put result)))
      ⟨.write ⟨.put key body options, u⟩, .past []⟩ (putBlob D u key body options) := by
  refine uploadThen_follows_local ⟨.put key body options, u⟩ trivial rfl rfl
    (fun e => settles_past rfl) fun hv b hb => ?_
  refine ⟨.rename hv hb, fun reply => ?_⟩
  cases reply with
  | error source => exact discardTemp_follows_local trivial (settles_past rfl)
  | ok _ => exact settles_past ⟨b, hb, rfl, rfl⟩

theorem putBlobIfNotExists_settles (u : Uuid) (key : Str) (options : BlobPutOptions) :
    Follows localDiscipline (fun q result => Settles D q (.wrote (.putIfNotExists result)))
      ⟨.write ⟨.putIfNotExists key body options, u⟩, .past []⟩
      (putBlobIfNotExists D u key body options) := by
  refine uploadThen_follows_local ⟨.putIfNotExists key body options, u⟩ trivial rfl rfl
    (fun e => settles_past rfl) fun hv b hb => ?_
  refine ⟨.link hv hb, fun reply => ?_⟩
  rcases reply with source | _
  · by_cases hs : source = .alreadyExists
    · subst hs
      refine discardTemp_follows_local trivial fun t events he => ?_
      obtain ⟨writer, content, hcall, rfl⟩ := he
      rw [← LocalOp.write.inj hcall]
      exact ⟨content, rfl⟩
    · cases source <;> first | exact absurd rfl hs |
        exact discardTemp_follows_local trivial (settles_past rfl)
  · exact discardTemp_follows_local trivial (settles_past ⟨b, hb, rfl, rfl⟩)

theorem copyBlob_settles (u : Uuid) (src dst : Str) :
    Follows localDiscipline (fun q result => Settles D q (.wrote (.copy result)))
      ⟨.write ⟨.copy src dst, u⟩, .past []⟩ (copyBlob u src dst) := by
  have hother : ∀ {e : StorageError}, e ≠ .missingBlob src →
      Settles D ⟨.write ⟨.copy src dst, u⟩, .past []⟩ (.wrote (.copy (.error e))) := by
    intro e he
    refine settles_past ?_
    simp only [Explains, if_neg he]
    exact Or.inl trivial
  by_cases hs : ValidKey src
  swap
  · rw [copyBlob, pathFor_of_not_valid hs]
    exact hother (by simp)
  by_cases hd : ValidKey dst
  swap
  · rw [copyBlob, pathFor_of_valid hs, pathFor_of_not_valid hd]
    exact hother (by simp)
  have hne : dst.splitOn '/' ≠ [] := splitOn_ne_nil dst
  simp only [copyBlob, pathFor_of_valid hs, pathFor_of_valid hd, tempPathFor_eq hne]
  refine Follows.bind (createParentDir_follows_local ⟨.copy src dst, u⟩ trivial hne)
    fun q result hq => ?_
  cases result with
  | error e =>
    obtain ⟨rfl, he⟩ := hq
    exact hother (he src)
  | ok _ =>
    obtain rfl : q = _ := hq
    refine ⟨.copy hs, fun reply => ?_⟩
    rcases reply with source | n
    · by_cases hmissing : source = .notFound
      · subst hmissing
        refine discardTemp_follows_local trivial (settles_past ?_)
        simp [Explains]
      · cases source <;> first | exact absurd rfl hmissing |
          exact discardTemp_follows_local trivial (hother (by simp))
    · refine ⟨.publish hd, fun reply => ?_⟩
      cases reply with
      | error source =>
        refine discardTemp_follows_local trivial fun t events he => ?_
        obtain ⟨src', dst', u', b, hcall, _, rfl⟩ := he
        obtain ⟨rfl, rfl⟩ := BlobOp.copy.inj (congrArg BlobCall.op (LocalOp.write.inj hcall))
        simp [Explains]
      | ok _ =>
        intro t events he
        obtain ⟨src', dst', u', b, hcall, rfl⟩ := he
        obtain ⟨rfl, rfl⟩ := BlobOp.copy.inj (congrArg BlobCall.op (LocalOp.write.inj hcall))
        exact ⟨b, rfl⟩

theorem deleteBlob_settles (u : Uuid) (key : Str) :
    Follows localDiscipline (fun q result => Settles D q (.wrote (.delete result)))
      ⟨.write ⟨.delete key, u⟩, .past []⟩ (deleteBlob key) := by
  by_cases hv : ValidKey key
  swap
  · rw [deleteBlob, pathFor_of_not_valid hv]
    exact settles_past rfl
  simp only [deleteBlob, pathFor_of_valid hv]
  refine ⟨.delete hv, fun reply => ?_⟩
  rcases reply with source | _
  · cases source <;> exact settles_past rfl
  · exact settles_past rfl

theorem writer_settles (D : Digest) (writer : BlobCall) :
    Follows localDiscipline (fun q result => Settles D q (.wrote result))
      ⟨.write writer, .past []⟩ (writer.prog D) := by
  obtain ⟨op, u⟩ := writer
  cases op with
  | put key body options => exact (putBlob_settles u key options).bind fun _ _ h => h
  | putIfNotExists key body options =>
    exact (putBlobIfNotExists_settles u key options).bind fun _ _ h => h
  | copy src dst => exact (copyBlob_settles u src dst).bind fun _ _ h => h
  | delete key => exact (deleteBlob_settles u key).bind fun _ _ h => h

end Writers

section Readers

variable {D : Digest} {op : LocalOp} {key : Str}

/-- After the path of a key was looked at: what was told, and the event. -/
def Looked (op : LocalOp) (key : Str) (before : List FileChange) (q : LocalPhase) :
    Except StorageError (Option BlobMetadata) → Prop
  | .ok metadata => q.stage = .astray ∨ ∃ content,
      q = ⟨op, .past (before ++ [.saw (keyPath key) content])⟩ ∧ DescribedAs key metadata content
  | .error e => q.stage = .astray ∨
      q = ⟨op, .past before⟩ ∧ e ≠ .missingBlob key

theorem settles_astray {q : LocalPhase} (h : q.stage = .astray) (result : LocalResult) :
    Settles D q result := by
  intro t events he
  rw [LocalPhase.Admits, h] at he
  exact he.elim

theorem headBlob_follows_local {before : List FileChange} (hv : ValidKey key)
    (hq : LocalPhase.Issues ⟨op, .past before⟩ (.metadata (keyPath key))) :
    Follows localDiscipline (Looked op key before) ⟨op, .past before⟩ (headBlob key) := by
  simp only [headBlob, pathFor_of_valid hv]
  refine ⟨hq, fun reply => ?_⟩
  rcases reply with source | node
  · by_cases hs : source = .notFound
    · subst hs
      exact Or.inr ⟨none, rfl, rfl⟩
    · cases source <;> first | exact absurd rfl hs | exact Or.inr ⟨rfl, by simp⟩
  · cases node with
    | dir => exact Or.inl rfl
    | file b m => exact Or.inr ⟨some b, rfl, rfl⟩

/-- Once a directory was opened, the call goes on in that stage. -/
theorem headBlob_follows_astray (hv : ValidKey key)
    (hop : op.opens = some key) :
    Follows localDiscipline (fun q _ => q.stage = .astray) ⟨op, .astray⟩ (headBlob key) := by
  simp only [headBlob, pathFor_of_valid hv]
  refine ⟨.astray hop, fun reply => ?_⟩
  rcases reply with source | node
  · cases source <;> rfl
  · rfl

theorem headBlob_settles (key : Str) :
    Follows localDiscipline (fun q result => Settles D q (.described result))
      ⟨.headBlob key, .past []⟩ (headBlob key) := by
  by_cases hv : ValidKey key
  swap
  · rw [headBlob, pathFor_of_not_valid hv]
    exact settles_past rfl
  refine (headBlob_follows_local hv (.asks rfl hv)).mono fun q result h => ?_
  cases result with
  | error e =>
    rcases h with h | ⟨rfl, _⟩
    · exact settles_astray h _
    · exact settles_past rfl
  | ok metadata =>
    rcases h with h | ⟨content, rfl, hdescribed⟩
    · exact settles_astray h _
    · exact settles_past ⟨content, rfl, hdescribed⟩

theorem blobExists_settles (key : Str) :
    Follows localDiscipline (fun q result => Settles D q (.found result))
      ⟨.blobExists key, .past []⟩ (blobExists key) := by
  by_cases hv : ValidKey key
  swap
  · rw [blobExists, pathFor_of_not_valid hv]
    exact settles_past rfl
  simp only [blobExists, pathFor_of_valid hv]
  refine ⟨.asks rfl hv, fun reply => ?_⟩
  rcases reply with source | node
  · by_cases hs : source = .notFound
    · subst hs
      exact settles_past ⟨none, rfl, rfl⟩
    · cases source <;> first | exact absurd rfl hs | exact settles_past rfl
  · cases node with
    | dir => exact settles_astray rfl _
    | file b m => exact settles_past ⟨some b, rfl, rfl⟩

/-- What a reading call returns after it has opened a file of this content and looked at the path
again. -/
theorem opened_follows {α : Type} {post : LocalPhase → Except StorageError α → Prop}
    {content : Bytes} (hv : ValidKey key) (hop : op.opens = some key)
    {result : Option BlobMetadata → Except StorageError α}
    (hastray : ∀ q r, q.stage = .astray → post q r)
    (herror : ∀ e, e ≠ .missingBlob key →
      post ⟨op, .past [.saw (keyPath key) (some content)]⟩ (.error e))
    (hok : ∀ metadata later, DescribedAs key metadata later →
      post ⟨op, .past [.saw (keyPath key) (some content), .saw (keyPath key) later]⟩
        (result metadata)) :
    Follows localDiscipline post ⟨op, .past [.saw (keyPath key) (some content)]⟩
      ((headBlob key).bind fun r => match r with
        | .error e => .ret (.error e)
        | .ok metadata => .ret (result metadata)) := by
  refine Follows.bind (headBlob_follows_local hv (.looks hop hv)) fun q r h => ?_
  cases r with
  | error e =>
    rcases h with h | ⟨rfl, he⟩
    · exact hastray q _ h
    · exact herror e he
  | ok metadata =>
    rcases h with h | ⟨later, rfl, hdescribed⟩
    · exact hastray q _ h
    · exact hok metadata later hdescribed

/-- A call that opens its key returns what it has opened, a part of it, or an error. -/
def LocalOp.OpensKey (op : LocalOp) (key : Str) : Prop :=
  op = .getBlob key ∨ ∃ start stop, op = .getBlobRange key start stop

theorem LocalOp.OpensKey.settles_missing (h : op.OpensKey key) :
    Settles D ⟨op, .past [.saw (keyPath key) none]⟩ (.read (.error (.missingBlob key))) := by
  refine settles_past ?_
  rcases h with rfl | ⟨start, stop, rfl⟩ <;> simp [Explains]

theorem LocalOp.OpensKey.settles_error (h : op.OpensKey key) {e : StorageError}
    (he : e ≠ .missingBlob key) {events : List FileChange}
    (hevents : events = [] ∨ ∃ content, events = [.saw (keyPath key) (some content)]) :
    Settles D ⟨op, .past events⟩ (.read (.error e)) := by
  refine settles_past ?_
  rcases h with rfl | ⟨start, stop, rfl⟩
  · simpa only [Explains, if_neg he] using hevents
  · simpa only [Explains, if_neg he] using hevents

/-- A reading call that opens its key and then goes on with the file. -/
theorem opens_follows (hop : op.OpensKey key) (hv : ValidKey key)
    {rest : Node → FsM (Except StorageError BlobBody)}
    (hdir : Follows localDiscipline (fun q result => Settles D q (.read result))
      ⟨op, .astray⟩ (rest .dir))
    (hfile : ∀ b m, Follows localDiscipline (fun q result => Settles D q (.read result))
      ⟨op, .past [.saw (keyPath key) (some b)]⟩ (rest (.file b m))) :
    Follows localDiscipline (fun q result => Settles D q (.read result)) ⟨op, .past []⟩
      ((Fs.openFile (keyPath key)).bind fun reply => match reply with
        | .error .notFound => .ret (.error (.missingBlob key))
        | .error source => .ret (.error (.io (keyPath key) source))
        | .ok file => rest file) := by
  have hopens : op.opens = some key := by rcases hop with rfl | ⟨_, _, rfl⟩ <;> rfl
  refine ⟨.opens hopens hv, fun reply => ?_⟩
  rcases reply with source | node
  · by_cases hs : source = .notFound
    · subst hs
      exact hop.settles_missing
    · cases source <;> first | exact absurd rfl hs | exact hop.settles_error (by simp) (Or.inl rfl)
  · cases node with
    | dir => exact hdir
    | file b m => exact hfile b m

theorem getBlob_settles (key : Str) :
    Follows localDiscipline (fun q result => Settles D q (.read result))
      ⟨.getBlob key, .past []⟩ (getBlob key) := by
  have hop : (LocalOp.getBlob key).OpensKey key := Or.inl rfl
  by_cases hv : ValidKey key
  swap
  · rw [getBlob, pathFor_of_not_valid hv]
    exact hop.settles_error (by simp) (Or.inl rfl)
  simp only [getBlob, pathFor_of_valid hv]
  refine opens_follows hop hv ?_ fun b m => ?_
  · refine (headBlob_follows_astray hv rfl).bind fun q r h => ?_
    cases r <;> exact settles_astray h _
  · refine opened_follows hv rfl (fun q r h => settles_astray h _)
      (fun e he => hop.settles_error he (Or.inr ⟨b, rfl⟩)) fun metadata later hdescribed => ?_
    refine settles_past ⟨b, later, rfl, ?_, hdescribed⟩
    rw [readerStream, SizeHints.body_map_ok, flatten_readChunks]

theorem getBlobRange_settles (key : Str) (start stop : ℕ) :
    Follows localDiscipline (fun q result => Settles D q (.read result))
      ⟨.getBlobRange key start stop, .past []⟩ (getBlobRange key start stop) := by
  have hop : (LocalOp.getBlobRange key start stop).OpensKey key := Or.inr ⟨start, stop, rfl⟩
  by_cases hlt : stop < start
  · rw [getBlobRange, if_pos hlt]
    exact hop.settles_error (by simp) (Or.inl rfl)
  rw [getBlobRange, if_neg hlt]
  by_cases hv : ValidKey key
  swap
  · rw [pathFor_of_not_valid hv]
    exact hop.settles_error (by simp) (Or.inl rfl)
  simp only [pathFor_of_valid hv]
  cases seekStart start with
  | error source =>
    exact opens_follows hop hv (settles_astray rfl _)
      fun b m => hop.settles_error (by simp) (Or.inr ⟨b, rfl⟩)
  | ok _ =>
    refine opens_follows hop hv ?_ fun b m => ?_
    · refine (headBlob_follows_astray hv rfl).bind fun q r h => ?_
      cases r <;> exact settles_astray h _
    · refine opened_follows hv rfl (fun q r h => settles_astray h _)
        (fun e he => hop.settles_error he (Or.inr ⟨b, rfl⟩)) fun metadata later hdescribed => ?_
      refine settles_past ⟨Nat.le_of_not_lt hlt, b, later, rfl, ?_, hdescribed⟩
      rw [rangeStream, SizeHints.body_map_ok, flatten_readChunks, Ranges.slice_eq]

/-- A sweep stays in its stage. -/
theorem sweepLoop_follows {fuel₀ : ℕ} {now₀ : ℤ} {olderThan₀ : ℕ} (now : ℤ)
    (olderThan fuel : ℕ) (stack : List Path) (removed : ℕ) :
    Follows localDiscipline (fun q _ => q = ⟨.sweep fuel₀ now₀ olderThan₀, .sweeping⟩)
      ⟨.sweep fuel₀ now₀ olderThan₀, .sweeping⟩ (sweepLoop now olderThan fuel stack removed) := by
  induction fuel generalizing stack removed with
  | zero => cases stack <;> rfl
  | succ fuel ih =>
    cases stack with
    | nil => rfl
    | cons path stack =>
      refine ⟨.finds, fun reply => ?_⟩
      rcases reply with source | node
      · by_cases hs : source = .notFound
        · subst hs
          exact ih stack removed
        · cases source <;> first | exact absurd rfl hs | rfl
      · cases node with
        | file b modified =>
          show Follows localDiscipline _ _ (if isUploadingTempFile path &&
            isOlderThan modified now olderThan then _ else _)
          split_ifs with hold
          · refine ⟨.sweeps (Bool.and_eq_true_iff.mp hold).1, fun reply => ?_⟩
            cases reply with
            | error source => rfl
            | ok _ => exact ih stack (removed + 1)
          · exact ih stack removed
        | dir =>
          refine ⟨.lists, fun reply => ?_⟩
          cases reply with
          | error source => rfl
          | ok entries => exact ih _ removed

theorem localOp_follows (D : Digest) (call : LocalOp) :
    Follows localDiscipline (Settles D) ⟨call, call.firstStage⟩ (call.prog D) := by
  cases call with
  | write writer => exact (writer_settles D writer).bind fun _ _ h => h
  | getBlob key => exact (getBlob_settles key).bind fun _ _ h => h
  | getBlobRange key start stop => exact (getBlobRange_settles key start stop).bind fun _ _ h => h
  | headBlob key => exact (headBlob_settles key).bind fun _ _ h => h
  | blobExists key => exact (blobExists_settles key).bind fun _ _ h => h
  | sweep fuel now olderThan =>
    refine (sweepLoop_follows now olderThan fuel [[]] 0).bind fun q result hq => ?_
    subst hq
    intro t events he
    exact he

end Readers

end GraphqlOrmStorage.Local
