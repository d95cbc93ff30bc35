import GraphqlOrmStorage.Handlers
import GraphqlOrmStorage.SmbContract
import GraphqlOrmStorage.SmbWholeWrites

/-!
# Handles of the SMB backend

Whatever the server replies, a call uses a handle only after a reply has opened it and
before it is closed or dropped, closes it once, and leaves none open when it returns.
The stream of `get_blob` takes its handle with it until it ends, fails or is dropped.
-/
namespace GraphqlOrmStorage.Smb

open Text Program Program.Prog Contract

/-! ### What is open -/

/-- The handle that a request is on. -/
def SmbCall.handle? : SmbCall → Option Handle
  | .closeResource h | .close h | .dropFile h => some h
  | .queryInfo h | .setRename h _ _ | .setDelete h => some h
  | .writeBlock h _ _ | .flush h | .readBlock h _ _ => some h
  | _ => none

/-- What is open after a request for something. -/
def gained (q : Multiset Handle) : Except (Failure SmbError) Resource → Multiset Handle
  | .ok resource => resource.handle ::ₘ q
  | .error _ => q

def nextHandles (q : Multiset Handle) : (c : SmbCall) → SmbCall.Reply c → Multiset Handle
  | .createDirectory _, reply | .createFile _ _, reply | .openExisting _ _, reply =>
    gained q reply
  | .closeResource h, _ | .close h, _ | .dropFile h, _ => q.erase h
  | _, _ => q

/-- The handle that a request closes. -/
def SmbCall.closed? : SmbCall → Option Handle
  | .closeResource h | .close h | .dropFile h => some h
  | _ => none

/-- The request opens nothing and is on no handle. -/
def SmbCall.isPlain : SmbCall → Bool
  | .acquirePermit | .releasePermit | .reconnect => true
  | _ => false

theorem handle_of_closed {c : SmbCall} {h : Handle} (hc : c.closed? = some h) :
    c.handle? = some h := by
  cases c with
  | closeResource | close | dropFile => exact hc
  | _ => cases hc

theorem nextHandles_of_closed {c : SmbCall} {h : Handle} (hc : c.closed? = some h)
    (q : Multiset Handle) (r : SmbCall.Reply c) : nextHandles q c r = q.erase h := by
  cases c with
  | closeResource | close | dropFile =>
    obtain rfl := Option.some.inj hc
    rfl
  | _ => cases hc

/-- Requests are on what is open, and closing ends that. -/
def handling : Discipline Requests (Multiset Handle) where
  allowed q c := ∀ h, c.handle? = some h → h ∈ q
  next := nextHandles

section Programs

variable {α β : Type} {q : Multiset Handle} {h : Handle} {config : SmbStorageConfig} {key : Str}

/-- The program closes what it opens. -/
def Closes (p : SmbM α) : Prop := ∀ q, Prog.Follows handling (fun q' _ => q' = q) q p

theorem closes_ret (a : α) : Closes (.ret a) := fun _ => rfl

/-- Sequencing after a program that closes what it opens. -/
theorem Closes.follows {p : SmbM α} {f : α → SmbM β} {post : Multiset Handle → β → Prop}
    (hp : Closes p) (hf : ∀ a, Prog.Follows handling post q (f a)) :
    Prog.Follows handling post q (p.bind f) := by
  refine Prog.Follows.bind (hp q) ?_
  rintro q' a rfl
  exact hf a

theorem Closes.bind {p : SmbM α} {f : α → SmbM β} (hp : Closes p) (hf : ∀ a, Closes (f a)) :
    Closes (p.bind f) :=
  fun q => hp.follows fun a => hf a q

theorem closes_request {c : SmbCall} (hc : c.isPlain = true) : Closes (request c) := by
  intro q
  cases c with
  | acquirePermit | releasePermit | reconnect => exact ⟨fun h hh => (by cases hh), fun r => rfl⟩
  | _ => cases hc

/-- A request that is on no handle. -/
theorem request_follows {c : SmbCall} {f : SmbCall.Reply c → SmbM β}
    {post : Multiset Handle → β → Prop} (hc : c.handle? = none)
    (hf : ∀ r, Prog.Follows handling post (nextHandles q c r) (f r)) :
    Prog.Follows handling post q ((request c).bind f) :=
  ⟨fun h hh => (by rw [hc] at hh; cases hh), hf⟩

/-- A request on an open handle, which stays open. -/
theorem use_follows {c : SmbCall} {f : SmbCall.Reply c → SmbM β}
    {post : Multiset Handle → β → Prop} (hc : c.handle? = some h) (hopen : c.closed? = none)
    (hmem : h ∈ q) (hf : ∀ r, Prog.Follows handling post q (f r)) :
    Prog.Follows handling post q ((request c).bind f) := by
  refine ⟨fun h' hh => ?_, fun r => follows_of_eq ?_ (hf r)⟩
  · obtain rfl := Option.some.inj (hc.symm.trans hh)
    exact hmem
  · cases c with
    | queryInfo | setRename | setDelete | writeBlock | flush | readBlock => rfl
    | closeResource | close | dropFile => cases hopen
    | _ => cases hc

theorem close_follows {c : SmbCall} {f : SmbCall.Reply c → SmbM β}
    {post : Multiset Handle → β → Prop} (hc : c.closed? = some h)
    (hf : ∀ r, Prog.Follows handling post q (f r)) :
    Prog.Follows handling post (h ::ₘ q) ((request c).bind f) := by
  refine ⟨fun h' hh => ?_, fun r => follows_of_eq ?_ (hf r)⟩
  · obtain rfl := Option.some.inj ((handle_of_closed hc).symm.trans hh)
    exact Multiset.mem_cons_self _ _
  · exact (nextHandles_of_closed hc _ r).trans (Multiset.erase_cons_head h q)

/-! ### Opening, removing and renaming -/

/-- What is open once a file has been opened, or has not. -/
def owned (q : Multiset Handle) : Except StorageError Handle → Multiset Handle
  | .ok h => h ::ₘ q
  | .error _ => q

theorem expectFile_handles (operation message : Str) (resource : Resource) (q : Multiset Handle) :
    Prog.Follows handling (fun q' r => q' = owned q r) (resource.handle ::ₘ q)
      (expectFile operation message resource) := by
  cases resource with
  | file h => exact rfl
  | directory h => exact close_follows rfl fun _ => rfl
  | pipe h => exact close_follows rfl fun _ => rfl

theorem ensureSegments_closes (current : Str) (segments : List Str) :
    Closes (ensureSegments current segments) := by
  induction segments generalizing current with
  | nil => exact closes_ret _
  | cons segment rest ih =>
    intro q
    refine request_follows rfl fun r => ?_
    cases r with
    | error failure => cases failure <;> exact rfl
    | ok resource =>
      refine close_follows rfl fun r => ?_
      cases r with
      | error e => exact rfl
      | ok _ => exact ih _ q

theorem ensureParentDirectories_closes : Closes (ensureParentDirectories config key) := by
  unfold ensureParentDirectories
  split
  · exact closes_ret _
  · split
    · exact closes_ret _
    · exact ensureSegments_closes _ _

theorem openFile_handles (access : Access) (q : Multiset Handle) :
    Prog.Follows handling (fun q' r => q' = owned q r) q (openFile config key access) := by
  unfold openFile
  split
  · exact rfl
  · refine request_follows rfl fun r => ?_
    cases r with
    | ok resource => exact expectFile_handles _ _ resource q
    | error failure =>
      split
      · rename_i hresult
        cases failure <;> cases hresult
      · split_ifs
        · refine (closes_request rfl).follows fun r => ?_
          cases r with
          | error e => exact rfl
          | ok _ =>
            refine request_follows rfl fun r => ?_
            cases r with
            | ok resource => exact expectFile_handles _ _ resource q
            | error failure => cases failure <;> exact rfl
        · exact rfl

theorem removeFile_closes (config : SmbStorageConfig) (key : Str) :
    Closes (removeFile config key) := by
  intro q
  refine Prog.Follows.bind (openFile_handles .delete q) ?_
  rintro q' r rfl
  cases r with
  | error e =>
    simp only
    split <;> exact rfl
  | ok file =>
    refine use_follows rfl rfl (Multiset.mem_cons_self file q) fun _ => ?_
    exact close_follows rfl fun _ => rfl

/-- Giving up: after an error of the connection there is a new one, and the file is removed. -/
theorem giveUp_handles {retry : Bool} {f : Except StorageError Unit → SmbM β}
    {post : Multiset Handle → β → Prop} (hf : ∀ r, Prog.Follows handling post q (f r)) :
    Prog.Follows handling post q (if retry = true
      then (request .reconnect).bind fun _ => (removeFile config key).bind f
      else (removeFile config key).bind f) := by
  split
  · refine (closes_request rfl).follows fun _ => ?_
    exact (removeFile_closes config key).follows hf
  · exact (removeFile_closes config key).follows hf

theorem rename_closes (config : SmbStorageConfig) (src dst : Str) (replace : Bool) :
    Closes (rename config src dst replace) := by
  intro q
  refine ensureParentDirectories_closes.follows fun r => ?_
  split
  · exact rfl
  · refine Prog.Follows.bind (openFile_handles .readDelete q) ?_
    rintro q' r rfl
    cases r with
    | error e => exact rfl
    | ok file =>
      simp only
      split
      · exact close_follows rfl fun _ => rfl
      · refine use_follows rfl rfl (Multiset.mem_cons_self file q) fun _ => ?_
        exact close_follows rfl fun _ => rfl

theorem cleanupFailedWrite_handles (file : Handle) (q : Multiset Handle) :
    Prog.Follows handling (fun q' _ => q' = q) (file ::ₘ q)
      (cleanupFailedWrite config key file) :=
  close_follows rfl fun _ => (removeFile_closes config key).follows fun _ => rfl

/-! ### Bodies -/

/-- What is open with a body. -/
def BodySource.over (q : Multiset Handle) : BodySource → Multiset Handle
  | .blob file _ _ => file ::ₘ q
  | .external _ | .finished => q

theorem BodySource.over_cons (source : BodySource) (h : Handle) (q : Multiset Handle) :
    source.over (h ::ₘ q) = h ::ₘ source.over q := by
  cases source with
  | blob file offset size => exact Multiset.cons_swap file h q
  | external chunks => rfl
  | finished => rfl

/-- A body that ends or fails has closed its file. -/
theorem next_handles (source : BodySource) (q : Multiset Handle) :
    Prog.Follows handling (fun q' x => q' = x.2.over q) (source.over q) source.next := by
  cases source with
  | external chunks => cases chunks <;> exact rfl
  | finished => exact rfl
  | blob file offset size =>
    simp only [BodySource.next]
    split
    · refine close_follows rfl fun r => ?_
      split <;> exact (closes_request rfl).follows fun _ => rfl
    · refine use_follows rfl rfl (Multiset.mem_cons_self file q) fun r => ?_
      split
      · refine close_follows rfl fun _ => ?_
        exact (closes_request rfl).follows fun _ => rfl
      · refine close_follows rfl fun _ => ?_
        exact (closes_request rfl).follows fun _ => rfl
      · exact rfl

theorem drop_handles (source : BodySource) (q : Multiset Handle) :
    Prog.Follows handling (fun q' _ => q' = q) (source.over q) source.drop := by
  cases source with
  | external chunks => exact rfl
  | finished => exact rfl
  | blob file offset size =>
    refine close_follows rfl fun _ => ?_
    exact closes_request rfl q

/-! ### Writing -/

theorem transferPermit_closes : Closes transferPermit := by
  refine (closes_request rfl).bind fun r => ?_
  cases r <;> exact closes_ret _

theorem writeBlocks_handles {file : Handle} (hfile : file ∈ q) (fuel : ℕ) (bytes : Bytes)
    (offset : ℕ) : Prog.Follows handling (fun q' _ => q' = q) q
      (writeBlocks file fuel bytes offset) := by
  induction fuel generalizing bytes offset with
  | zero => exact rfl
  | succ fuel ih =>
    cases bytes with
    | nil => exact rfl
    | cons b bytes =>
      refine use_follows rfl rfl hfile fun r => ?_
      split
      · exact rfl
      · exact rfl
      · exact ih _ _

theorem writeChunks_handles (D : Digest) (file : Handle) (fuel : ℕ) (source : BodySource)
    (hasher : D.Hasher) (offset : ℕ) (q : Multiset Handle) :
    Prog.Follows handling (fun q' x => q' = x.2.over (file ::ₘ q)) (source.over (file ::ₘ q))
      (writeChunks D file fuel source hasher offset) := by
  induction fuel generalizing source hasher offset with
  | zero => exact rfl
  | succ fuel ih =>
    refine Prog.Follows.bind (next_handles source (file ::ₘ q)) ?_
    rintro q' ⟨item, source⟩ rfl
    cases item with
    | none => exact rfl
    | some item =>
      cases item with
      | error e => exact rfl
      | ok chunk =>
        have hfile : file ∈ source.over (file ::ₘ q) := by
          rw [BodySource.over_cons]
          exact Multiset.mem_cons_self _ _
        refine Prog.Follows.bind (writeBlocks_handles hfile _ _ _) ?_
        rintro q' r rfl
        cases r with
        | error e => exact rfl
        | ok offset => exact ih source _ offset

theorem fillFile_handles (D : Digest) (file : Handle) (source : BodySource)
    (q : Multiset Handle) :
    Prog.Follows handling (fun q' x => q' = x.2.over q) (file ::ₘ source.over q)
      (fillFile D config key file source) := by
  have hchunks := writeChunks_handles D file source.bound source D.new 0 q
  rw [BodySource.over_cons] at hchunks
  refine Prog.Follows.bind hchunks ?_
  rintro q' ⟨result, source⟩ rfl
  simp only [BodySource.over_cons]
  cases result with
  | error e =>
    refine Prog.Follows.bind (cleanupFailedWrite_handles file (source.over q)) ?_
    rintro q' _ rfl
    exact rfl
  | ok x =>
    refine use_follows rfl rfl (Multiset.mem_cons_self file _) fun r => ?_
    split
    · refine Prog.Follows.bind (cleanupFailedWrite_handles file (source.over q)) ?_
      rintro q' _ rfl
      exact rfl
    · refine close_follows rfl fun r => ?_
      split
      · exact giveUp_handles fun _ => rfl
      · exact rfl

theorem createAndFill_handles (D : Digest) (source : BodySource) (exclusive : Bool)
    (q : Multiset Handle) :
    Prog.Follows handling (fun q' x => q' = x.2.over q) (source.over q)
      (createAndFill D config key source exclusive) := by
  refine ensureParentDirectories_closes.follows fun r => ?_
  split
  · exact rfl
  · split
    · exact rfl
    · refine request_follows rfl fun r => ?_
      cases r with
      | error failure => cases failure <;> exact rfl
      | ok resource =>
        refine Prog.Follows.bind (expectFile_handles _ _ resource (source.over q)) ?_
        rintro q' r rfl
        cases r with
        | error e => exact rfl
        | ok file => exact fillFile_handles D file source q

/-- A write closes its file and its body. -/
theorem writeFile_handles (D : Digest) (source : BodySource) (exclusive : Bool)
    (q : Multiset Handle) :
    Prog.Follows handling (fun q' _ => q' = q) (source.over q)
      (writeFile D config key source exclusive) := by
  have hdrop := fun source => drop_handles source q
  refine transferPermit_closes.follows fun r => ?_
  split
  · refine Prog.Follows.bind (hdrop source) ?_
    rintro q' _ rfl
    exact rfl
  · refine Prog.Follows.bind (createAndFill_handles D source exclusive q) ?_
    rintro q' ⟨result, source⟩ rfl
    refine Prog.Follows.bind (hdrop source) ?_
    rintro q' _ rfl
    exact (closes_request rfl).follows fun _ => rfl

theorem putBlob_handles (D : Digest) (config : SmbStorageConfig) (u : Uuid) (key : Str)
    (body : BodySource) (q : Multiset Handle) :
    Prog.Follows handling (fun q' _ => q' = q) (body.over q) (putBlob D config u key body) := by
  have hrefused : ∀ e : StorageError, Prog.Follows handling
      (fun q' (_ : Except StorageError BlobWriteOutcome) => q' = q) (body.over q)
      (body.drop.bind fun _ => .ret (.error e)) := by
    intro e
    refine Prog.Follows.bind (drop_handles body q) ?_
    rintro q' _ rfl
    exact rfl
  unfold putBlob
  split
  · exact hrefused _
  · split
    · exact hrefused _
    · refine Prog.Follows.bind (writeFile_handles D body false q) ?_
      rintro q' r rfl
      split
      · exact giveUp_handles fun _ => rfl
      · refine (rename_closes config _ _ _).follows fun r => ?_
        split
        · exact giveUp_handles fun _ => rfl
        · exact rfl

theorem putBlobIfNotExists_handles (D : Digest) (config : SmbStorageConfig) (key : Str)
    (body : BodySource) (q : Multiset Handle) :
    Prog.Follows handling (fun q' _ => q' = q) (body.over q)
      (putBlobIfNotExists D config key body) := by
  unfold putBlobIfNotExists
  split
  · refine Prog.Follows.bind (drop_handles body q) ?_
    rintro q' _ rfl
    exact rfl
  · refine Prog.Follows.bind (writeFile_handles D body true q) ?_
    rintro q' r rfl
    split
    · exact rfl
    · split
      · exact rfl
      · split
        · exact (closes_request rfl).follows fun _ => rfl
        · exact rfl

/-! ### Reading, copying and deleting -/

/-- The stream that is returned has the file. -/
theorem getBlob_handles (config : SmbStorageConfig) (key : Str) (q : Multiset Handle) :
    Prog.Follows handling (fun q' result => match result with
      | .ok blob => q' = blob.body.over q
      | .error _ => q' = q) q (getBlob config key) := by
  unfold getBlob
  split
  · exact rfl
  · refine transferPermit_closes.follows fun r => ?_
    split
    · exact rfl
    · refine Prog.Follows.bind (openFile_handles .read q) ?_
      rintro q' r rfl
      cases r with
      | error e => exact (closes_request rfl).follows fun _ => rfl
      | ok file =>
        refine use_follows rfl rfl (Multiset.mem_cons_self file q) fun r => ?_
        split
        · refine close_follows rfl fun _ => ?_
          exact (closes_request rfl).follows fun _ => rfl
        · exact rfl

theorem collectBody_handles (fuel : ℕ) (source : BodySource) (bytes : Bytes)
    (q : Multiset Handle) :
    Prog.Follows handling (fun q' _ => q' = q) (source.over q)
      (collectBody fuel source bytes) := by
  have hdrop : ∀ (source : BodySource) (result : Except StorageError Bytes),
      Prog.Follows handling (fun q' (_ : Except StorageError Bytes) => q' = q) (source.over q)
        (source.drop.bind fun _ => .ret result) := by
    intro source result
    refine Prog.Follows.bind (drop_handles source q) ?_
    rintro q' _ rfl
    exact rfl
  induction fuel generalizing source bytes with
  | zero => exact hdrop source _
  | succ fuel ih =>
    refine Prog.Follows.bind (next_handles source q) ?_
    rintro q' ⟨item, source⟩ rfl
    cases item with
    | none => exact hdrop source _
    | some item =>
      cases item with
      | error e => exact hdrop source _
      | ok chunk => exact ih source _

theorem readBlob_closes (config : SmbStorageConfig) (key : Str) :
    Closes (readBlob config key) := by
  intro q
  refine Prog.Follows.bind (getBlob_handles config key q) fun q' r hr => ?_
  cases r with
  | error e => exact hr
  | ok blob =>
    obtain rfl : q' = blob.body.over q := hr
    simp only
    split
    · refine Prog.Follows.bind (drop_handles blob.body q) ?_
      rintro q' _ rfl
      exact rfl
    · refine Prog.Follows.bind (collectBody_handles _ blob.body _ q) ?_
      rintro q' r rfl
      cases r <;> exact rfl

theorem blobExists_closes (config : SmbStorageConfig) (key : Str) :
    Closes (blobExists config key) := by
  intro q
  unfold blobExists
  split
  · exact rfl
  · refine Prog.Follows.bind (openFile_handles .read q) ?_
    rintro q' r rfl
    cases r with
    | error e =>
      simp only
      split <;> exact rfl
    | ok file =>
      refine close_follows rfl fun r => ?_
      split <;> exact rfl

theorem headBlob_closes (config : SmbStorageConfig) (key : Str) :
    Closes (headBlob config key) := by
  intro q
  unfold headBlob
  split
  · exact rfl
  · refine Prog.Follows.bind (openFile_handles .read q) ?_
    rintro q' r rfl
    cases r with
    | error e =>
      simp only
      split <;> exact rfl
    | ok file =>
      refine use_follows rfl rfl (Multiset.mem_cons_self file q) fun r => ?_
      split
      · exact close_follows rfl fun _ => rfl
      · refine close_follows rfl fun r => ?_
        split <;> exact rfl

theorem copyBlob_closes (D : Digest) (config : SmbStorageConfig) (u : Uuid) (src dst : Str) :
    Closes (copyBlob D config u src dst) := by
  intro q
  refine Prog.Follows.bind (getBlob_handles config src q) fun q' r hr => ?_
  cases r with
  | error e => exact hr
  | ok blob =>
    obtain rfl : q' = blob.body.over q := hr
    refine Prog.Follows.bind (putBlob_handles D config u dst blob.body q) ?_
    rintro q' r rfl
    cases r <;> exact rfl

theorem deleteBlob_closes (config : SmbStorageConfig) (key : Str) :
    Closes (deleteBlob config key) := by
  unfold deleteBlob
  split
  · exact closes_ret _
  · exact removeFile_closes config key

theorem storeCall_closes (D : Digest) (config : SmbStorageConfig) (u : Uuid) (op : StoreCall) :
    Closes (storeCall D config u op) := by
  cases op with
  | putBlob key body =>
    have hput : Closes (putBlob D config u key (.external body.inner)) :=
      fun q => putBlob_handles D config u key (.external body.inner) q
    exact hput.bind fun _ => closes_ret _
  | putBlobIfNotExists key body =>
    have hput : Closes (putBlobIfNotExists D config key (.external body.inner)) :=
      fun q => putBlobIfNotExists_handles D config key (.external body.inner) q
    exact hput.bind fun _ => closes_ret _
  | getBlob key => exact (readBlob_closes config key).bind fun _ => closes_ret _
  | headBlob key => exact (headBlob_closes config key).bind fun _ => closes_ret _
  | blobExists key => exact (blobExists_closes config key).bind fun _ => closes_ret _
  | copyBlob src dst => exact (copyBlob_closes D config u src dst).bind fun _ => closes_ret _
  | deleteBlob key => exact (deleteBlob_closes config key).bind fun _ => closes_ret _

end Programs

/-! ### Whole runs -/

/-- What is open after the requests of a log with their replies. -/
def openAfter (log : List (Sigma Requests.Reply)) : Multiset Handle := handling.after 0 log

/-- In every run of a call, whatever is replied, each request on a handle comes while that is open,
and when the call returns nothing that it opened is open any more. -/
theorem handles_closed (D : Digest) (config : SmbStorageConfig) (u : Uuid) (op : StoreCall)
    (log : List (Sigma Requests.Reply)) (answer : StoreAnswer)
    (hrun : RunsTo (storeCall D config u op) log answer) :
    (∀ before e after, log = before ++ e :: after →
      ∀ h, SmbCall.handle? e.1 = some h → h ∈ openAfter before) ∧ openAfter log = 0 :=
  (storeCall_closes D config u op 0).along hrun

/-- A put that fails, as its rename is not answered. -/
theorem handles_closed_unanswered : ∃ log answer,
    RunsTo (storeCall Digest.sha256 ⟨none, 1⟩ zeroUuid
      (.putBlob "k".toList (.fromBytes [1]) ⟨none⟩)) log answer ∧
    answer.fails = true ∧ openAfter log = 0 := by
  obtain ⟨log, hrun, -⟩ := exec_runsTo losesRenames (storeCall Digest.sha256 ⟨none, 1⟩ zeroUuid
    (.putBlob "k".toList (.fromBytes [1]) ⟨none⟩)) (oneBlob "k".toList [9])
  exact ⟨log, _, hrun, by decide +kernel, (handles_closed _ _ _ _ log _ hrun).2⟩

end GraphqlOrmStorage.Smb
