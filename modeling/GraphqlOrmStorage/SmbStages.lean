import GraphqlOrmStorage.SmbServer

/-!
# Calls on one key, stage by stage

A conditional write creates the key itself and fills it; a failed one closes the
file, opens the key again by name and deletes what it opens. A plain write fills a
temporary file and renames it over the key. A read opens the key, asks for its size
and reads. The stages record where a call is in this, which file it has created and
which handle it holds; a reply that the server never gives leads to the stage `lost`.
-/
namespace GraphqlOrmStorage.Smb

open Text Program Program.Prog

/-- The calls on the key. -/
inductive KeyCall where
  | putBlobIfNotExists (body : StorageByteStream)
  | putBlob (uuid : Uuid) (body : StorageByteStream)
  | getBlob

/-- What a call returns; a read is collected. -/
inductive KeyResult where
  | wrote (result : Except StorageError (Option BlobWriteOutcome))
  | read (result : Except StorageError Bytes)
  deriving DecidableEq

namespace KeyCall

def prog (D : Digest) (config : SmbStorageConfig) (key : Str) : KeyCall → SmbM KeyResult
  | putBlobIfNotExists body => do
    return .wrote (← Smb.putBlobIfNotExists D config key (.external body.inner))
  | putBlob uuid body => do
    let result ← Smb.putBlob D config uuid key (.external body.inner)
    return .wrote (result.map some)
  | getBlob => do
    match ← Smb.getBlob config key with
    | .error e => return .read (.error e)
    | .ok blob => return .read (← collectBody blob.body.bound blob.body [])

/-- The path that the call creates or opens first. -/
def target (config : SmbStorageConfig) (key : Str) : KeyCall → Str
  | putBlob uuid _ => keyPath config (tempBeside uuid key)
  | putBlobIfNotExists _ | getBlob => keyPath config key

/-- What the body of a write delivers. -/
def content : KeyCall → Except StorageError Bytes
  | putBlobIfNotExists body | putBlob _ body => body.body
  | getBlob => .ok []

def isConditional : KeyCall → Bool
  | putBlobIfNotExists _ => true
  | putBlob _ _ | getBlob => false

def isPut : KeyCall → Bool
  | putBlob _ _ => true
  | putBlobIfNotExists _ | getBlob => false

def isGet : KeyCall → Bool
  | getBlob => true
  | putBlobIfNotExists _ | putBlob _ _ => false

end KeyCall

/-- How far a call has come. The first handle of a stage is the file that the call created,
the second one a handle it holds. -/
inductive KeyStage where
  | idle | collided | missing | removed | lost
  | writing (f : Handle) (written : Bytes)
  | failing (f : Handle)
  | flushed (f : Handle)
  | closed (f : Handle)
  /-- The file is closed after a failure, and its name is still there. -/
  | window (f : Handle)
  | deleting (f h : Handle)
  | marked (f h : Handle)
  | opened (f h : Handle)
  | renamed (f h : Handle)
  | refused (f h : Handle)
  | stored (f : Handle)
  | viewing (h : Handle)
  | reading (h : Handle) (size : ℕ) (got : Bytes)
  | stalled (h : Handle)
  | collected (bytes : Bytes)
  deriving DecidableEq

structure KeyPhase where
  call : KeyCall
  stage : KeyStage

namespace KeyStage

/-- The stage that a reply leads to. -/
def after (stage : KeyStage) : (c : SmbCall) → SmbCall.Reply c → KeyStage
  | .acquirePermit, r => if r then stage else lost
  | .releasePermit, _ | .reconnect, _ | .createDirectory _, .ok _ | .closeResource _, .ok _ => stage
  | .createFile _ _, .ok (.file h) => match stage with
    | idle => writing h []
    | _ => lost
  | .createFile _ true, .error (.failed ⟨.status .objectNameCollision, _⟩) => match stage with
    | idle => collided
    | _ => lost
  | .writeBlock _ bytes _, .ok count => match stage with
    | writing f w =>
      if count = 0 then failing f
      else if count ≤ bytes.length ∧ w.length + count ≤ maxOffset then
        writing f (w ++ bytes.take count)
      else lost
    | _ => lost
  | .writeBlock _ _ _, .error _ | .flush _, .error _ => match stage with
    | writing f _ => failing f
    | _ => lost
  | .flush _, .ok () => match stage with
    | writing f _ => flushed f
    | _ => lost
  | .close _, .ok () => match stage with
    | writing f _ | failing f | refused f _ => window f
    | flushed f => closed f
    | marked _ _ => removed
    | renamed f _ => stored f
    | reading _ _ got => collected got
    | _ => lost
  | .openExisting _ _, .ok (.file h) => match stage with
    | window f => deleting f h
    | closed f => opened f h
    | idle => viewing h
    | _ => lost
  | .openExisting _ _, .error (.failed ⟨.status .objectNameNotFound, _⟩) => match stage with
    | removed => removed
    | idle => missing
    | _ => lost
  | .openExisting _ _, .error (.failed ⟨.status .other, _⟩) => match stage with
    | idle => missing
    | _ => lost
  | .setDelete _, .ok () => match stage with
    | deleting f h => marked f h
    | _ => lost
  | .setRename _ _ _, .ok () => match stage with
    | opened f h => renamed f h
    | _ => lost
  | .setRename _ _ _, .error (.failed ⟨.status .accessDenied, _⟩) => match stage with
    | opened f h => refused f h
    | _ => lost
  | .queryInfo _, .ok size => match stage with
    | viewing h => if size ≤ maxOffset then reading h size [] else lost
    | _ => lost
  | .readBlock _ length _, .ok bytes => match stage with
    | reading h size got =>
      if bytes = [] then stalled h
      else if bytes.length ≤ length then reading h size (got ++ bytes)
      else lost
    | _ => lost
  | .dropFile _, () => match stage with
    | stalled _ => missing
    | _ => lost
  | _, _ => lost

end KeyStage

namespace KeyPhase

def advance (q : KeyPhase) (c : SmbCall) (r : SmbCall.Reply c) : KeyPhase :=
  if q.stage = .lost then q else { q with stage := q.stage.after c r }

/-- The handle that the call may close. -/
def closes (q : KeyPhase) : Option Handle :=
  match q.stage with
  | .writing f _ | .failing f | .flushed f => some f
  | .marked _ h | .renamed _ h | .refused _ h => some h
  | .reading h size got => if size ≤ got.length then some h else none
  | _ => none

/-- How the call may open its target. -/
def opens (q : KeyPhase) : Option Access :=
  match q.stage, q.call with
  | .window _, _ | .removed, .putBlob _ _ => some .delete
  | .closed _, .putBlob _ _ => some .readDelete
  | .idle, .getBlob => some .read
  | _, _ => none

/-- The requests of each stage. -/
def Issues (config : SmbStorageConfig) (key : Str) (q : KeyPhase) : SmbCall → Prop
  | .acquirePermit | .releasePermit | .reconnect | .createDirectory _ | .closeResource _ => True
  | .createFile path exclusive => q.stage = .idle ∧ path = q.call.target config key ∧
      q.call.isGet = false ∧ exclusive = q.call.isConditional
  | .writeBlock h _ offset => ∃ w, q.stage = .writing h w ∧ offset = w.length
  | .flush h => ∃ w, q.stage = .writing h w ∧ q.call.content = .ok w
  | .close h => q.closes = some h
  | .dropFile h => q.stage = .stalled h
  | .openExisting path access => path = q.call.target config key ∧ q.opens = some access
  | .setDelete h => ∃ f, q.stage = .deleting f h
  | .setRename h path replace => path = keyPath config key ∧ replace = true ∧
      q.call.isPut = true ∧ ∃ f, q.stage = .opened f h
  | .queryInfo h => q.stage = .viewing h
  | .readBlock h _ offset => ∃ size got, q.stage = .reading h size got ∧ offset = got.length

end KeyPhase

def keyDiscipline (config : SmbStorageConfig) (key : Str) : Discipline Requests KeyPhase where
  allowed q c := q.stage = .lost ∨ q.Issues config key c
  next := KeyPhase.advance

/-! ### The programs keep to the stages -/

section Stages

variable {α β : Type} {config : SmbStorageConfig} {key : Str}

/-- A result in an expected stage; nothing is said once a call is lost. -/
def Ends (post : KeyPhase → α → Prop) (q : KeyPhase) (a : α) : Prop :=
  q.stage = .lost ∨ post q a

theorem follows_lost (post : KeyPhase → α → Prop) {q : KeyPhase} (h : q.stage = .lost)
    (p : SmbM α) : Follows (keyDiscipline config key) (Ends post) q p := by
  induction p with
  | ret a => exact Or.inl h
  | call c k ih =>
    refine ⟨Or.inl h, fun r => ?_⟩
    have hsame : q.advance c r = q := if_pos h
    show Follows (keyDiscipline config key) (Ends post) (q.advance c r) (k r)
    rw [hsame]
    exact ih r

/-- The program runs from `q` on as the stages demand. -/
def Keeps (config : SmbStorageConfig) (key : Str) (post : KeyPhase → α → Prop) (q : KeyPhase)
    (p : SmbM α) : Prop :=
  Follows (keyDiscipline config key) (Ends post) q p

theorem keeps_ret {post : KeyPhase → α → Prop} {q : KeyPhase} {a : α} (h : post q a) :
    Keeps config key post q (.ret a) := Or.inr h

theorem Keeps.bind {mid : KeyPhase → α → Prop} {post : KeyPhase → β → Prop} {q : KeyPhase}
    {p : SmbM α} {f : α → SmbM β} (hp : Keeps config key mid q p)
    (hf : ∀ q' a, mid q' a → Keeps config key post q' (f a)) :
    Keeps config key post q (p.bind f) := by
  refine Follows.bind hp fun q' a ha => ?_
  rcases ha with hl | ha
  · exact follows_lost post hl _
  · exact hf q' a ha

/-- One request: it is due in this stage, and the program goes on for each reply, unless the
reply loses the call. -/
theorem keeps_request {post : KeyPhase → β → Prop} {call : KeyCall} {stage : KeyStage}
    {c : SmbCall} {f : SmbCall.Reply c → SmbM β} (hi : KeyPhase.Issues config key ⟨call, stage⟩ c)
    (hf : ∀ r, stage.after c r ≠ .lost → Keeps config key post ⟨call, stage.after c r⟩ (f r)) :
    Keeps config key post ⟨call, stage⟩ ((request c).bind f) := by
  refine ⟨Or.inr hi, fun r => ?_⟩
  show Keeps config key post (KeyPhase.advance ⟨call, stage⟩ c r) (f r)
  unfold KeyPhase.advance
  split_ifs with hl
  · exact follows_lost post hl _
  · by_cases hr : stage.after c r = .lost
    · exact follows_lost post hr _
    · exact hf r hr

variable {call : KeyCall} {stage : KeyStage}

theorem ensureSegments_keeps (current : Str) (segments : List Str) :
    Keeps config key (fun q r => q = ⟨call, stage⟩ ∧ r = .ok ()) ⟨call, stage⟩
      (ensureSegments current segments) := by
  induction segments generalizing current with
  | nil => exact keeps_ret ⟨rfl, rfl⟩
  | cons segment rest ih =>
    refine keeps_request trivial fun r hr => ?_
    cases r with
    | error e => exact absurd rfl hr
    | ok resource =>
      refine keeps_request trivial fun r hr => ?_
      cases r with
      | error e => exact absurd rfl hr
      | ok _ => exact ih _

theorem ensureParentDirectories_keeps {k : Str} (hk : ValidKey k) :
    Keeps config key (fun q r => q = ⟨call, stage⟩ ∧ r = .ok ()) ⟨call, stage⟩
      (ensureParentDirectories config k) := by
  simp only [ensureParentDirectories, mappedKey_of_valid config hk]
  split
  · exact keeps_ret ⟨rfl, rfl⟩
  · exact ensureSegments_keeps _ _

/-- The replies to an open that do not lose the call. -/
def Opened (call : KeyCall) (stage : KeyStage) (q : KeyPhase) :
    Except StorageError Handle → Prop
  | .ok h => q = ⟨call, stage.after (.openExisting [] .read) (.ok (.file h))⟩
  | .error e => ∃ status text, e = mapSmbError "open".toList ⟨.status status, text⟩ ∧
      (status = .objectNameNotFound ∨ status = .other) ∧
      q = ⟨call, stage.after (.openExisting [] .read) (.error (.failed ⟨.status status, text⟩))⟩

theorem openFile_keeps {k : Str} (hk : ValidKey k)
    (ht : call.target config key = keyPath config k) {access : Access}
    (ho : KeyPhase.opens ⟨call, stage⟩ = some access) :
    Keeps config key (Opened call stage) ⟨call, stage⟩ (openFile config k access) := by
  simp only [openFile, remotePath_of_valid config hk]
  refine keeps_request ⟨ht.symm, ho⟩ fun r hr => ?_
  cases r with
  | ok resource =>
    cases resource with
    | file h => exact keeps_ret rfl
    | directory h => exact absurd rfl hr
    | pipe h => exact absurd rfl hr
  | error failure =>
    cases failure with
    | timedOut => exact absurd rfl hr
    | failed error =>
      obtain ⟨cause, text⟩ := error
      cases cause with
      | status status =>
        cases status with
        | objectNameNotFound => exact keeps_ret ⟨_, text, rfl, Or.inl rfl, rfl⟩
        | other => exact keeps_ret ⟨_, text, rfl, Or.inr rfl, rfl⟩
        | _ => exact absurd rfl hr
      | _ => exact absurd rfl hr

/-- Removing by name from the window deletes the file that the call created. -/
theorem removeFile_keeps {k : Str} (hk : ValidKey k)
    (ht : call.target config key = keyPath config k) {f : Handle} :
    Keeps config key (fun q r => q = ⟨call, .removed⟩ ∧ r = .ok ()) ⟨call, .window f⟩
      (removeFile config k) := by
  refine Keeps.bind (openFile_keeps hk ht rfl) ?_
  intro q r hq
  cases r with
  | error e =>
    obtain ⟨status, text, _, hstatus, rfl⟩ := hq
    refine follows_lost _ ?_ _
    rcases hstatus with rfl | rfl <;> rfl
  | ok h =>
    obtain rfl : q = ⟨call, .deleting f h⟩ := hq
    refine keeps_request ⟨f, rfl⟩ fun r hr => ?_
    cases r with
    | error e => exact absurd rfl hr
    | ok _ =>
      refine keeps_request rfl fun r hr => ?_
      cases r with
      | error e => exact absurd rfl hr
      | ok _ => exact keeps_ret ⟨rfl, rfl⟩

/-- A plain write removes its temporary file once more; it is gone already. -/
theorem removeFile_keeps_removed {k : Str} (hk : ValidKey k)
    (ht : call.target config key = keyPath config k) (hp : call.isPut = true) :
    Keeps config key (fun q r => q = ⟨call, .removed⟩ ∧ r = .ok ()) ⟨call, .removed⟩
      (removeFile config k) := by
  have ho : KeyPhase.opens ⟨call, .removed⟩ = some .delete := by
    cases call with
    | putBlob uuid body => rfl
    | putBlobIfNotExists body => cases hp
    | getBlob => cases hp
  refine Keeps.bind (openFile_keeps hk ht ho) ?_
  intro q r hq
  cases r with
  | error e =>
    obtain ⟨status, text, rfl, hstatus, rfl⟩ := hq
    rcases hstatus with rfl | rfl
    · exact keeps_ret ⟨rfl, rfl⟩
    · exact follows_lost _ rfl _
  | ok h =>
    obtain rfl : q = ⟨call, .lost⟩ := hq
    exact follows_lost _ rfl _

theorem cleanupFailedWrite_keeps {k : Str} (hk : ValidKey k)
    (ht : call.target config key = keyPath config k) {f : Handle}
    (hs : stage = .failing f ∨ ∃ w, stage = .writing f w) :
    Keeps config key (fun q _ => q = ⟨call, .removed⟩) ⟨call, stage⟩
      (cleanupFailedWrite config k f) := by
  have hclose : KeyPhase.closes ⟨call, stage⟩ = some f := by
    rcases hs with rfl | ⟨w, rfl⟩ <;> rfl
  refine keeps_request hclose fun r hr => ?_
  cases r with
  | error e => exact absurd rfl hr
  | ok _ =>
    have hwindow : stage.after (.close f) (.ok ()) = .window f := by
      rcases hs with rfl | ⟨w, rfl⟩ <;> rfl
    rw [hwindow]
    refine Keeps.bind (removeFile_keeps hk ht) ?_
    rintro q r ⟨rfl, _⟩
    exact keeps_ret rfl

/-- How a write that has created its file ends: filled, or failed with an error that is no
collision unless the body itself delivers it. -/
def Failed (call : KeyCall) (e : StorageError) : Prop :=
  call.content = .error e ∨ isCollision e = false

theorem isCollision_mapIoError (operation : Str) (error : IoError) :
    isCollision (mapIoError operation error) = false := by
  obtain ⟨kind, text⟩ := error
  cases kind <;> rfl

theorem writeBlocks_keeps {f : Handle} {w : Bytes} (fuel : ℕ) (bytes : Bytes)
    (hfuel : bytes.length ≤ fuel) :
    Keeps config key (fun q r => match r with
      | .ok n => q = ⟨call, .writing f (w ++ bytes)⟩ ∧ n = (w ++ bytes).length
      | .error e => q = ⟨call, .failing f⟩ ∧ isCollision e = false) ⟨call, .writing f w⟩
      (writeBlocks f fuel bytes w.length) := by
  induction fuel generalizing w bytes with
  | zero =>
    obtain rfl := List.eq_nil_of_length_eq_zero (Nat.le_zero.mp hfuel)
    exact keeps_ret (by simp)
  | succ fuel ih =>
    cases bytes with
    | nil => exact keeps_ret (by simp)
    | cons b bytes =>
      refine keeps_request ⟨w, rfl, rfl⟩ fun r hr => ?_
      cases r with
      | error failure =>
        cases failure with
        | timedOut => exact keeps_ret ⟨rfl, rfl⟩
        | failed error => exact keeps_ret ⟨rfl, isCollision_mapIoError _ error⟩
      | ok count =>
        cases count with
        | zero => exact keeps_ret ⟨rfl, rfl⟩
        | succ count =>
          simp only [KeyStage.after, Nat.succ_ne_zero, if_false] at hr ⊢
          split_ifs at hr ⊢ with hfits
          swap
          · exact absurd rfl hr
          obtain ⟨hcount, hbound⟩ := hfits
          have hdrop := ih ((b :: bytes).drop (count + 1)) (w := w ++ (b :: bytes).take (count + 1))
            (by simp only [List.length_drop, List.length_cons] at hfuel ⊢; omega)
          rw [List.append_assoc, List.take_append_drop] at hdrop
          have hoffset : saturatingAdd w.length (count + 1) =
              (w ++ (b :: bytes).take (count + 1)).length := by
            rw [saturatingAdd_eq hbound (by decide), List.length_append,
              List.length_take_of_le hcount]
          simp only [withIoTimeout, hoffset]
          exact hdrop

theorem writeChunks_keeps (D : Digest) {f : Handle} {w : Bytes} (fuel : ℕ)
    (chunks : List (Except StorageError Bytes)) (hfuel : chunks.length < fuel)
    (hasher : D.Hasher) (hc : collectChunks w chunks = call.content) :
    Keeps config key (fun q r => (∃ rest, r.2 = .external rest) ∧ match r.1 with
      | .ok _ => ∃ w', q = ⟨call, .writing f w'⟩ ∧ call.content = .ok w'
      | .error e => (q.call = call ∧ (q.stage = .failing f ∨ ∃ w', q.stage = .writing f w')) ∧
          Failed call e) ⟨call, .writing f w⟩
      (writeChunks D f fuel (.external chunks) hasher w.length) := by
  induction fuel generalizing w chunks hasher with
  | zero => omega
  | succ fuel ih =>
    cases chunks with
    | nil => exact keeps_ret ⟨⟨[], rfl⟩, w, rfl, hc.symm⟩
    | cons chunk rest =>
      cases chunk with
      | error e => exact keeps_ret ⟨⟨rest, rfl⟩, ⟨rfl, Or.inr ⟨w, rfl⟩⟩, Or.inl hc.symm⟩
      | ok chunk =>
        show Keeps config key _ _ ((writeBlocks f chunk.length chunk w.length).bind _)
        refine Keeps.bind (writeBlocks_keeps chunk.length chunk le_rfl) ?_
        intro q r hq
        cases r with
        | error e =>
          obtain ⟨rfl, he⟩ := hq
          exact keeps_ret ⟨⟨rest, rfl⟩, ⟨rfl, Or.inl rfl⟩, Or.inr he⟩
        | ok n =>
          obtain ⟨rfl, rfl⟩ := hq
          exact ih rest (by simpa using hfuel) _ hc

/-- Writing the file that was just created. -/
theorem fillFile_keeps (D : Digest) {k : Str} (hk : ValidKey k)
    (ht : call.target config key = keyPath config k) {f : Handle} (body : StorageByteStream)
    (hc : call.content = body.body) :
    Keeps config key (fun q r => (∃ rest, r.2 = .external rest) ∧ match r.1 with
      | .ok _ => q = ⟨call, .closed f⟩
      | .error e => q = ⟨call, .removed⟩ ∧ Failed call e) ⟨call, .writing f []⟩
      (fillFile D config k f (.external body.inner)) := by
  refine Keeps.bind (writeChunks_keeps D _ body.inner (Nat.lt_succ_self _) D.new hc.symm) ?_
  rintro ⟨stage⟩ ⟨result, source⟩ ⟨hrest, hq⟩
  cases result with
  | error e =>
    obtain ⟨⟨rfl, hs⟩, he⟩ := hq
    refine Keeps.bind (cleanupFailedWrite_keeps hk ht hs) ?_
    rintro q _ rfl
    exact keeps_ret ⟨hrest, rfl, he⟩
  | ok written =>
    obtain ⟨hasher, offset⟩ := written
    obtain ⟨w, hw, hcontent⟩ := hq
    rw [hw]
    refine keeps_request ⟨w, rfl, hcontent⟩ fun r hr => ?_
    cases r with
    | error failure =>
      cases failure with
      | timedOut =>
        refine Keeps.bind (cleanupFailedWrite_keeps hk ht (Or.inl rfl)) ?_
        rintro q _ rfl
        exact keeps_ret ⟨hrest, rfl, Or.inr rfl⟩
      | failed error =>
        refine Keeps.bind (cleanupFailedWrite_keeps hk ht (Or.inl rfl)) ?_
        rintro q _ rfl
        exact keeps_ret ⟨hrest, rfl, Or.inr (isCollision_mapIoError _ error)⟩
    | ok _ =>
      refine keeps_request rfl fun r hr => ?_
      cases r with
      | error failure => exact absurd rfl hr
      | ok _ => exact keeps_ret ⟨hrest, rfl⟩

/-- How a call that writes to its target ends. -/
def Written (call : KeyCall) (q : KeyPhase) : Except StorageError BlobWriteOutcome → Prop
  | .ok _ => ∃ f, q = ⟨call, .closed f⟩
  | .error e => (q = ⟨call, .collided⟩ ∧ call.isConditional = true ∧ isCollision e = true) ∨
      (q = ⟨call, .removed⟩ ∧ Failed call e)

theorem createAndFill_keeps (D : Digest) {k : Str} (hk : ValidKey k)
    (ht : call.target config key = keyPath config k) (body : StorageByteStream)
    (hc : call.content = body.body) (hg : call.isGet = false) :
    Keeps config key (fun q r => (∃ rest, r.2 = .external rest) ∧ Written call q r.1)
      ⟨call, .idle⟩ (createAndFill D config k (.external body.inner) call.isConditional) := by
  refine Keeps.bind (ensureParentDirectories_keeps hk) ?_
  rintro q r ⟨rfl, rfl⟩
  simp only [remotePath_of_valid config hk]
  refine keeps_request ⟨rfl, ht.symm, hg, rfl⟩ fun r hr => ?_
  cases r with
  | ok resource =>
    cases resource with
    | file h =>
      refine (fillFile_keeps D hk ht body hc).mono ?_
      rintro q ⟨result, source⟩ (hl | ⟨hrest, hq⟩)
      · exact Or.inl hl
      · refine Or.inr ⟨hrest, ?_⟩
        cases result with
        | ok outcome => exact ⟨h, hq⟩
        | error e => exact Or.inr hq
    | directory h => exact absurd rfl hr
    | pipe h => exact absurd rfl hr
  | error failure =>
    cases failure with
    | timedOut => exact absurd rfl hr
    | failed error =>
      obtain ⟨cause, text⟩ := error
      cases cause with
      | status status =>
        cases status with
        | objectNameCollision =>
          cases hx : call.isConditional with
          | false =>
            rw [hx] at hr
            exact absurd rfl hr
          | true => exact keeps_ret ⟨⟨_, rfl⟩, Or.inl ⟨rfl, hx, rfl⟩⟩
        | _ => exact absurd rfl hr
      | _ => exact absurd rfl hr

theorem transferPermit_keeps :
    Keeps config key (fun q r => q = ⟨call, stage⟩ ∧ r = .ok ()) ⟨call, stage⟩ transferPermit := by
  refine keeps_request trivial fun r hr => ?_
  cases r with
  | false => exact absurd rfl hr
  | true => exact keeps_ret ⟨rfl, rfl⟩

theorem writeFile_keeps (D : Digest) (call : KeyCall) {k : Str} (hk : ValidKey k)
    (ht : call.target config key = keyPath config k) (body : StorageByteStream)
    (hc : call.content = body.body) (hg : call.isGet = false) :
    Keeps config key (Written call) ⟨call, .idle⟩
      (writeFile D config k (.external body.inner) call.isConditional) := by
  refine Keeps.bind transferPermit_keeps ?_
  rintro q r ⟨rfl, rfl⟩
  refine Keeps.bind (createAndFill_keeps D hk ht body hc hg) ?_
  rintro ⟨_, stage⟩ ⟨result, source⟩ ⟨⟨rest, rfl⟩, hq⟩
  exact keeps_request trivial fun r hr => keeps_ret hq

/-- A conditional write: `Ok(Some)` exactly when its file is closed, and `Ok(None)` when it
found the name taken or its body delivered a collision. -/
theorem putBlobIfNotExists_keeps (D : Digest) (hk : ValidKey key) (body : StorageByteStream) :
    Keeps config key (fun q r => match r with
      | .ok (some _) => ∃ f, q = ⟨.putBlobIfNotExists body, .closed f⟩
      | .ok none => q = ⟨.putBlobIfNotExists body, .collided⟩ ∨
          q = ⟨.putBlobIfNotExists body, .removed⟩ ∧ ∃ e, body.body = .error e ∧ isCollision e = true
      | .error _ => q = ⟨.putBlobIfNotExists body, .removed⟩)
      ⟨.putBlobIfNotExists body, .idle⟩
      (putBlobIfNotExists D config key (.external body.inner)) := by
  simp only [putBlobIfNotExists, validateBlobKey_eq_ok.mpr hk]
  refine Keeps.bind (writeFile_keeps D (.putBlobIfNotExists body) hk rfl body rfl rfl) ?_
  intro q r hq
  cases r with
  | ok outcome => exact keeps_ret hq
  | error e =>
    rcases hq with ⟨rfl, _, he⟩ | ⟨rfl, he⟩
    · simp only [he, if_true]
      exact keeps_ret (Or.inl rfl)
    · simp only
      split_ifs with hcollision hretry
      · rcases he with he | he
        · exact keeps_ret (Or.inr ⟨rfl, e, he, hcollision⟩)
        · rw [he] at hcollision
          cases hcollision
      · exact keeps_request trivial fun r hr => keeps_ret rfl
      · exact keeps_ret rfl

/-- Renaming the temporary file over the key. -/
theorem rename_keeps {uuid : Uuid} {body : StorageByteStream} (hk : ValidKey key) {f : Handle} :
    Keeps config key (fun q r => match r with
      | .ok () => q = ⟨.putBlob uuid body, .stored f⟩
      | .error _ => q = ⟨.putBlob uuid body, .window f⟩)
      ⟨.putBlob uuid body, .closed f⟩ (rename config (tempBeside uuid key) key true) := by
  refine Keeps.bind (ensureParentDirectories_keeps hk) ?_
  rintro q r ⟨rfl, rfl⟩
  refine Keeps.bind (openFile_keeps (validKey_tempBeside uuid hk) rfl rfl) ?_
  intro q r hq
  cases r with
  | error e =>
    obtain ⟨status, text, _, hstatus, rfl⟩ := hq
    refine follows_lost _ ?_ _
    rcases hstatus with rfl | rfl <;> rfl
  | ok h =>
    obtain rfl : q = ⟨.putBlob uuid body, .opened f h⟩ := hq
    simp only [mappedKey_of_valid config hk]
    refine keeps_request ⟨rfl, rfl, rfl, f, rfl⟩ fun r hr => ?_
    cases r with
    | ok _ =>
      refine keeps_request rfl fun r hr => ?_
      cases r with
      | error e => exact absurd rfl hr
      | ok _ => exact keeps_ret rfl
    | error failure =>
      cases failure with
      | timedOut => exact absurd rfl hr
      | failed error =>
        obtain ⟨cause, text⟩ := error
        cases cause with
        | status status =>
          cases status with
          | accessDenied =>
            refine keeps_request rfl fun r hr => ?_
            cases r with
            | error e => exact absurd rfl hr
            | ok _ => exact keeps_ret rfl
          | _ => exact absurd rfl hr
        | _ => exact absurd rfl hr

/-- A plain write gives up: its temporary file is removed. -/
theorem giveUp_keeps {uuid : Uuid} {body : StorageByteStream} (hk : ValidKey key)
    (hs : stage = .removed ∨ ∃ f, stage = .window f) (e : StorageError) :
    Keeps config key (fun q (r : Except StorageError BlobWriteOutcome) => match r with
        | .ok _ => ∃ f, q = ⟨.putBlob uuid body, .stored f⟩
        | .error _ => q = ⟨.putBlob uuid body, .removed⟩) ⟨.putBlob uuid body, stage⟩
      (do
        if e.isRetryable then
          let _ ← request .reconnect
        let _ ← removeFile config (tempBeside uuid key)
        return .error e) := by
  have hremove : Keeps config key (fun q (r : Except StorageError BlobWriteOutcome) => match r with
        | .ok _ => ∃ f, q = ⟨.putBlob uuid body, .stored f⟩
        | .error _ => q = ⟨.putBlob uuid body, .removed⟩) ⟨.putBlob uuid body, stage⟩
      ((removeFile config (tempBeside uuid key)).bind fun _ => .ret (.error e)) := by
    have htemp := validKey_tempBeside uuid hk
    rcases hs with rfl | ⟨f, rfl⟩
    · refine Keeps.bind (removeFile_keeps_removed htemp rfl rfl) ?_
      rintro q r ⟨rfl, _⟩
      exact keeps_ret rfl
    · refine Keeps.bind (removeFile_keeps htemp rfl) ?_
      rintro q r ⟨rfl, _⟩
      exact keeps_ret rfl
  simp only
  split_ifs
  · exact keeps_request trivial fun r hr => hremove
  · exact hremove

/-- A plain write: it succeeds exactly when its file got the name of the key. -/
theorem putBlob_keeps (D : Digest) (hk : ValidKey key) (uuid : Uuid) (body : StorageByteStream) :
    Keeps config key (fun q r => match r with
      | .ok _ => ∃ f, q = ⟨.putBlob uuid body, .stored f⟩
      | .error _ => q = ⟨.putBlob uuid body, .removed⟩)
      ⟨.putBlob uuid body, .idle⟩ (putBlob D config uuid key (.external body.inner)) := by
  have htemp := validKey_tempBeside uuid hk
  simp only [putBlob, validateBlobKey_eq_ok.mpr hk, tempKey_of_valid uuid hk]
  refine Keeps.bind (writeFile_keeps D (.putBlob uuid body) htemp rfl body rfl rfl) ?_
  intro q r hq
  cases r with
  | error e =>
    rcases hq with ⟨_, hx, _⟩ | ⟨rfl, _⟩
    · cases hx
    · exact giveUp_keeps hk (Or.inl rfl) e
  | ok outcome =>
    obtain ⟨f, rfl⟩ := hq
    refine Keeps.bind (rename_keeps hk) ?_
    intro q r hq
    cases r with
    | ok _ =>
      obtain rfl := hq
      exact keeps_ret ⟨f, rfl⟩
    | error e =>
      obtain rfl := hq
      exact giveUp_keeps hk (Or.inr ⟨f, rfl⟩) e

/-- Reading to the end of the file, whatever the sizes of the blocks. -/
theorem collectBody_keeps {h : Handle} {size : ℕ} (hsize : size ≤ maxOffset) (fuel : ℕ)
    (got : Bytes) (hfuel : size - got.length + 1 < fuel) :
    Keeps config key (fun q r => match r with
      | .ok bytes => q = ⟨.getBlob, .collected bytes⟩
      | .error _ => q = ⟨.getBlob, .missing⟩) ⟨.getBlob, .reading h size got⟩
      (collectBody fuel (.blob h got.length size) got) := by
  induction fuel generalizing got with
  | zero => omega
  | succ fuel ih =>
    rw [collectBody]
    simp only [BodySource.next]
    by_cases hend : size ≤ got.length
    · rw [if_pos hend]
      refine keeps_request (if_pos hend) fun r hr => ?_
      cases r with
      | error e => exact absurd rfl hr
      | ok _ => exact keeps_request trivial fun r hr => keeps_ret rfl
    · rw [if_neg hend]
      refine keeps_request ⟨size, got, rfl, rfl⟩ fun r hr => ?_
      cases r with
      | error e => exact absurd rfl hr
      | ok bytes =>
        cases bytes with
        | nil =>
          exact keeps_request rfl fun r hr => keeps_request trivial fun r hr => keeps_ret rfl
        | cons b bytes =>
          simp only [KeyStage.after, List.cons_ne_nil, if_false] at hr ⊢
          split_ifs at hr ⊢ with hfits
          swap
          · exact absurd rfl hr
          have hlen : got.length + (b :: bytes).length ≤ maxOffset := by omega
          have hoffset : saturatingAdd got.length (b :: bytes).length =
              (got ++ b :: bytes).length := by
            rw [saturatingAdd_eq hlen (by decide), List.length_append]
          show Keeps config key _ _ (collectBody fuel
            (.blob h (saturatingAdd got.length (b :: bytes).length) size) (got ++ b :: bytes))
          rw [hoffset]
          refine ih _ ?_
          simp only [List.length_append, List.length_cons]
          omega

theorem getBlob_keeps (hk : ValidKey key) :
    Keeps config key (fun q r => match r with
      | .ok blob => ∃ h size, size ≤ maxOffset ∧ blob.body = .blob h 0 size ∧
          q = ⟨.getBlob, .reading h size []⟩
      | .error _ => q = ⟨.getBlob, .missing⟩) ⟨.getBlob, .idle⟩ (getBlob config key) := by
  simp only [getBlob, validateBlobKey_eq_ok.mpr hk]
  refine Keeps.bind transferPermit_keeps ?_
  rintro q r ⟨rfl, rfl⟩
  refine Keeps.bind (openFile_keeps hk rfl rfl) ?_
  intro q r hq
  cases r with
  | error e =>
    obtain ⟨status, text, _, hstatus, rfl⟩ := hq
    rcases hstatus with rfl | rfl <;> exact keeps_request trivial fun r hr => keeps_ret rfl
  | ok h =>
    obtain rfl : q = ⟨.getBlob, .viewing h⟩ := hq
    refine keeps_request rfl fun r hr => ?_
    cases r with
    | error e => exact absurd rfl hr
    | ok size =>
      simp only [KeyStage.after] at hr ⊢
      split_ifs at hr ⊢ with hsize
      · exact keeps_ret ⟨h, size, hsize, rfl, rfl⟩
      · exact absurd rfl hr

/-- The stages in which a call returns, with the results it has there. -/
def Returned (q : KeyPhase) : KeyResult → Prop
  | .wrote (.ok (some _)) =>
    (q.call.isConditional = true ∧ ∃ f, q.stage = .closed f) ∨ ∃ f, q.stage = .stored f
  | .wrote (.ok none) => q.stage = .collided ∨ ∃ e, q.call.content = .error e ∧ isCollision e = true
  | .wrote (.error _) => q.stage = .removed
  | .read (.ok bytes) => q.stage = .collected bytes
  | .read (.error _) => q.stage = .missing

/-- Every call on an accepted key goes through the stages. -/
theorem keyCall_keeps (D : Digest) (hk : ValidKey key) (call : KeyCall) :
    Keeps config key Returned ⟨call, .idle⟩ (call.prog D config key) := by
  cases call with
  | putBlobIfNotExists body =>
    refine Keeps.bind (putBlobIfNotExists_keeps D hk body) ?_
    intro q r hq
    rcases r with e | _ | outcome
    · obtain rfl := hq
      exact keeps_ret rfl
    · rcases hq with rfl | ⟨rfl, he⟩
      · exact keeps_ret (Or.inl rfl)
      · exact keeps_ret (Or.inr he)
    · obtain ⟨f, rfl⟩ := hq
      exact keeps_ret (Or.inl ⟨rfl, f, rfl⟩)
  | putBlob uuid body =>
    refine Keeps.bind (putBlob_keeps D hk uuid body) ?_
    intro q r hq
    cases r with
    | error e =>
      obtain rfl := hq
      exact keeps_ret rfl
    | ok outcome =>
      obtain ⟨f, rfl⟩ := hq
      exact keeps_ret (Or.inr ⟨f, rfl⟩)
  | getBlob =>
    refine Keeps.bind (getBlob_keeps hk) ?_
    intro q r hq
    cases r with
    | error e =>
      obtain rfl := hq
      exact keeps_ret rfl
    | ok blob =>
      obtain ⟨h, size, hsize, hbody, rfl⟩ := hq
      simp only [hbody]
      refine Keeps.bind (collectBody_keeps hsize _ [] (by simp [BodySource.bound])) ?_
      intro q r hq
      cases r with
      | error e =>
        obtain rfl := hq
        exact keeps_ret rfl
      | ok bytes =>
        obtain rfl := hq
        exact keeps_ret rfl

end Stages

end GraphqlOrmStorage.Smb
