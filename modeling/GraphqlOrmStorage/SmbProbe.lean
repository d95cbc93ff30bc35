import GraphqlOrmStorage.ProgramSum
import GraphqlOrmStorage.SmbListing
import GraphqlOrmStorage.SmbTransfer

/-!
# The probe of the SMB backend

`probe` connects, lists the share, and sends a small file of its own through
`put_blob`, `get_blob` and `delete_blob`. It works on files, on directories and
on the connection, so it is a program over the requests of all three. Contents
that do not match are deleted before the probe fails; a file that cannot be
read back is left behind, because that exit is a `?` before the deletion.
-/
namespace GraphqlOrmStorage.Smb

open Text Program Program.Prog

/-! ### The probe -/

/-- `smb::Dialect`. -/
inductive Dialect where
  | smb0202 | smb021 | smb030 | smb0302 | smb0311
  deriving DecidableEq

/-- `SmbDialect`. -/
inductive SmbDialect where
  | smb2_0_2 | smb2_1 | smb3_0 | smb3_0_2 | smb3_1_1
  deriving DecidableEq

/-- `from_protocol`. -/
def SmbDialect.fromProtocol : Dialect → SmbDialect
  | .smb0202 => .smb2_0_2
  | .smb021 => .smb2_1
  | .smb030 => .smb3_0
  | .smb0302 => .smb3_0_2
  | .smb0311 => .smb3_1_1

inductive ConnCall where
  /-- `connect`, with the validation of the configuration. -/
  | connect
  /-- `get_connection` and `conn_info`, of which the dialect is read. -/
  | connInfo

abbrev ConnCall.Reply : ConnCall → Type
  | connect => Except StorageError Unit
  | connInfo => Except SmbError (Option Dialect)

abbrev ConnRequests : Interface := ⟨ConnCall, ConnCall.Reply⟩

/-- Requests on files, on directories and on the connection. -/
abbrev ProbeRequests : Interface := (Requests.sum ListRequests).sum ConnRequests

abbrev ProbeM := Prog ProbeRequests

variable {α : Type}

def onFiles (p : SmbM α) : ProbeM α := p.left.left

def onDirectories (p : ListM α) : ProbeM α := p.right.left

def connRequest (c : ConnCall) : ProbeM (ConnCall.Reply c) :=
  (Prog.perform (I := ConnRequests) c).right

/-- The configuration with the field that only the probe reads. -/
structure SmbProbeConfig extends SmbStorageConfig where
  requireEncryption : Bool

structure SmbProbeOptions where
  createPrefix : Bool
  deriving DecidableEq

structure SmbProbeResult where
  negotiatedDialect : SmbDialect
  signingActive : Bool
  encryptionActive : Bool
  serverReachable : Bool
  shareReachable : Bool
  prefixReadable : Bool
  prefixWritable : Bool
  deriving DecidableEq

/-- The random identifiers that a probe draws. -/
structure ProbeIds where
  name : Uuid
  content : Uuid
  temp : Uuid

def probeName : Str := ".graphql-orm-probe-".toList

/-- The key of the probe's file. -/
def probeKey (ids : ProbeIds) : Str := probeName ++ ids.name.toStr

/-- `ensure_root_prefix`. -/
def ensureRootPrefix (config : SmbStorageConfig) : SmbM (Except StorageError Unit) :=
  match config.rootPrefix with
  | some pre => ensureDirectories pre
  | none => return .ok ()

/-- Whether the prefix could be listed. -/
def prefixReadable (parsesUuid : Str → Bool) (config : SmbStorageConfig) (fuel : ℕ) :
    ListM (Except Stop Bool) := do
  match ← listBlobs parsesUuid config fuel [] with
  | .ok _ => return .ok true
  | .error (.error _) => return .ok false
  | .error stop => return .error stop

/-- `probe` up to its `put_blob`. -/
def writeProbe (D : Digest) (parsesUuid : Str → Bool) (config : SmbProbeConfig)
    (options : SmbProbeOptions) (fuel : ℕ) (ids : ProbeIds) : ProbeM (Except Stop Bool) := do
  match ← connRequest .connect with
  | .error e => return .error (.error e)
  | .ok () =>
    match ← onFiles (if options.createPrefix then ensureRootPrefix config.toSmbStorageConfig
        else return .ok ()) with
    | .error e => return .error (.error e)
    | .ok () =>
      match ← onDirectories (prefixReadable parsesUuid config.toSmbStorageConfig fuel) with
      | .error stop => return .error stop
      | .ok readable =>
        match ← onFiles (putBlob D config.toSmbStorageConfig ids.temp (probeKey ids)
            (.external [.ok ids.content.bytes])) with
        | .error e => return .error (.error e)
        | .ok _ => return .ok readable

/-- `probe` once the contents matched and the file is deleted. -/
def reportProbe (config : SmbProbeConfig) (readable : Bool) :
    ProbeM (Except Stop SmbProbeResult) := do
  match ← connRequest .connInfo with
  | .error error => return .error (.error (mapSmbError "probe".toList error))
  | .ok none => return .error (.error (remoteError .protocol "probe".toList
      "negotiated connection information is unavailable".toList false))
  | .ok (some dialect) => return .ok ⟨.fromProtocol dialect, true, config.requireEncryption,
      true, true, readable, true⟩

/-- `probe` from its `get_blob` on. -/
def verifyProbe (config : SmbProbeConfig) (ids : ProbeIds) (readable : Bool) :
    ProbeM (Except Stop SmbProbeResult) := do
  match ← onFiles (readBlob config.toSmbStorageConfig (probeKey ids)) with
  | .error stop => return .error stop
  | .ok actual =>
    if actual ≠ ids.content.bytes then
      let _ ← onFiles (deleteBlob config.toSmbStorageConfig (probeKey ids))
      return .error (.error (remoteError .protocol "probe".toList
        "probe file contents did not match".toList false))
    else
      match ← onFiles (deleteBlob config.toSmbStorageConfig (probeKey ids)) with
      | .error e => return .error (.error e)
      | .ok () => reportProbe config readable

/-- `probe`. -/
def probe (D : Digest) (parsesUuid : Str → Bool) (config : SmbProbeConfig)
    (options : SmbProbeOptions) (fuel : ℕ) (ids : ProbeIds) :
    ProbeM (Except Stop SmbProbeResult) := do
  match ← writeProbe D parsesUuid config options fuel ids with
  | .error stop => return .error stop
  | .ok readable => verifyProbe config ids readable

/-! ### Reading back -/

/-- A request of a read, after its file is open, that does not end the read. -/
def ReadsOn : Sigma Requests.Reply → Prop
  | ⟨.queryInfo _, r⟩ => ∃ size, r = .ok size ∧ size ≤ isizeMax
  | ⟨.readBlock _ _ _, r⟩ => ∃ bytes, r = .ok bytes ∧ bytes ≠ []
  | ⟨.close _, r⟩ => r = .ok ()
  | _ => True

/-- Some open was granted, with a file. -/
def Granted (log : List (Sigma Requests.Reply)) : Prop :=
  ∃ path access h, ⟨.openExisting path access, .ok (.file h)⟩ ∈ log

/-- The replies to a read are such that it goes through: the file is opened, at the second attempt
if not at the first, and no later request fails or delivers nothing. -/
def GoesThrough (log : List (Sigma Requests.Reply)) : Prop :=
  Granted log ∧ ∀ e ∈ log, ReadsOn e

section Reads

variable {config : SmbStorageConfig} {key : Str} {log : List (Sigma Requests.Reply)}

theorem drop_readsOn {source : BodySource} (hrun : RunsTo source.drop log ()) :
    ¬ Granted log ∧ ∀ e ∈ log, ReadsOn e := by
  cases source with
  | blob h offset size =>
    obtain ⟨_, rest, hlog, hrest⟩ := runsTo_request.mp hrun
    obtain ⟨_, rest', hlog', hend⟩ := runsTo_request.mp hrest
    simp [hlog, hlog', (runsTo_ret.mp hend).1, Granted, ReadsOn]
  | external chunks => simp [(runsTo_ret.mp hrun).1, Granted]
  | finished => simp [(runsTo_ret.mp hrun).1, Granted]

/-- One item is an error just when a request failed or delivered nothing. -/
theorem next_readsOn {source source' : BodySource} {item : Option (Except StorageError Bytes)}
    (hsource : ∀ chunks, source ≠ .external chunks)
    (hrun : RunsTo source.next log (item, source')) :
    (∀ chunks, source' ≠ .external chunks) ∧
      ((∀ e, item ≠ some (.error e)) ↔ ∀ e ∈ log, ReadsOn e) := by
  cases source with
  | external chunks => exact absurd rfl (hsource chunks)
  | finished =>
    obtain ⟨hlog, hitem⟩ := runsTo_ret.mp hrun
    obtain ⟨rfl, rfl⟩ := Prod.mk.inj hitem
    simp [hlog]
  | blob h offset size =>
    rcases next_cases hrun with ⟨_, rfl, reply, hlog, ⟨hreply, hitem⟩ | ⟨hreply, e, hitem⟩⟩ |
      ⟨_, bytes, hne, hlog, hitem, rfl⟩ | ⟨_, rfl, ⟨e, hitem⟩, reply, hlog, hempty⟩
    · simp [hlog, hreply, hitem, ReadsOn]
    · simp [hlog, hreply, hitem, ReadsOn]
    · simp [hlog, hne, hitem, ReadsOn]
    · have hlost : ¬ ReadsOn ⟨.readBlock h (min (size - offset) readChunkSize) offset, reply⟩ := by
        rintro ⟨bytes, hreply, hne⟩
        exact hne (hempty bytes hreply)
      simp [hlog, hlost, hitem]

theorem collectBody_readsOn {fuel : ℕ} {source : BodySource} {bytes : Bytes}
    {result : Except StorageError Bytes} (hsource : ∀ chunks, source ≠ .external chunks)
    (hrun : RunsTo (collectBody fuel source bytes) log result) :
    (∃ b, result = .ok b) ↔ ∀ e ∈ log, ReadsOn e := by
  induction fuel generalizing source bytes log with
  | zero =>
    obtain ⟨first, _, second, hlog, hdrop, hend⟩ := runsTo_bind.mp hrun
    obtain ⟨hnil, hresult⟩ := runsTo_ret.mp hend
    rw [hlog, hnil, List.append_nil]
    exact ⟨fun _ => (drop_readsOn hdrop).2, fun _ => ⟨_, hresult⟩⟩
  | succ fuel ih =>
    obtain ⟨first, ⟨item, source'⟩, second, hlog, hnext, hrest⟩ := runsTo_bind.mp hrun
    obtain ⟨hsource', hitem⟩ := next_readsOn hsource hnext
    have hsplit : (∀ e ∈ log, ReadsOn e) ↔
        (∀ e ∈ first, ReadsOn e) ∧ ∀ e ∈ second, ReadsOn e := by
      rw [hlog]
      exact List.forall_mem_append
    rw [hsplit, ← hitem]
    rcases item with _ | (failure | chunk)
    · obtain ⟨third, _, fourth, hlog', hdrop, hend⟩ := runsTo_bind.mp hrest
      obtain ⟨hnil, hresult⟩ := runsTo_ret.mp hend
      rw [hlog', hnil, List.append_nil]
      exact ⟨fun _ => ⟨by simp, (drop_readsOn hdrop).2⟩, fun _ => ⟨_, hresult⟩⟩
    · obtain ⟨third, _, fourth, hlog', hdrop, hend⟩ := runsTo_bind.mp hrest
      rw [(runsTo_ret.mp hend).2]
      simp
    · rw [ih hsource' hrest]
      simp

theorem expectFile_granted {operation message : Str} {resource : Resource}
    {result : Except StorageError Handle}
    (hrun : RunsTo (expectFile operation message resource) log result) :
    ((∃ h, result = .ok h) ↔ ∃ h, resource = .file h) ∧ ¬ Granted log ∧ ∀ e ∈ log, ReadsOn e := by
  cases resource with
  | file h =>
    obtain ⟨hnil, hresult⟩ := runsTo_ret.mp hrun
    simp [hnil, hresult, Granted]
  | directory h =>
    obtain ⟨_, rest, hlog, hend⟩ := runsTo_request.mp hrun
    obtain ⟨hnil, hresult⟩ := runsTo_ret.mp hend
    simp [hlog, hnil, hresult, Granted, ReadsOn]
  | pipe h =>
    obtain ⟨_, rest, hlog, hend⟩ := runsTo_request.mp hrun
    obtain ⟨hnil, hresult⟩ := runsTo_ret.mp hend
    simp [hlog, hnil, hresult, Granted, ReadsOn]

theorem granted_cons (e : Sigma Requests.Reply) :
    Granted (e :: log) ↔ (∃ path access h, e = ⟨.openExisting path access, .ok (.file h)⟩) ∨
      Granted log := by
  simp only [Granted, List.mem_cons, exists_or, eq_comm]

theorem granted_append {log' : List (Sigma Requests.Reply)} :
    Granted (log ++ log') ↔ Granted log ∨ Granted log' := by
  simp only [Granted, List.mem_append, exists_or]

/-- Opening gives a handle just when an attempt was granted. -/
theorem openFile_granted {access : Access} {result : Except StorageError Handle}
    (hrun : RunsTo (openFile config key access) log result) :
    ((∃ h, result = .ok h) ↔ Granted log) ∧ ∀ e ∈ log, ReadsOn e := by
  have hexpect : ∀ path {resource rest},
      RunsTo (expectFile "open".toList "remote key is not a file".toList resource) rest result →
      ((∃ h, result = .ok h) ↔ Granted (⟨.openExisting path access, .ok resource⟩ :: rest)) ∧
        ∀ e ∈ rest, ReadsOn e := by
    intro path resource rest h
    obtain ⟨hresult, hnot, hreads⟩ := expectFile_granted h
    refine ⟨?_, hreads⟩
    rw [granted_cons, hresult]
    simp [hnot]
  cases hpath : remotePath config key with
  | error e =>
    simp only [openFile, hpath] at hrun
    obtain ⟨hnil, hresult⟩ := runsTo_ret.mp hrun
    simp [hnil, hresult, Granted]
  | ok path =>
    simp only [openFile, hpath] at hrun
    obtain ⟨reply, rest, hlog, hrest⟩ := runsTo_request.mp hrun
    subst hlog
    cases reply with
    | ok resource =>
      obtain ⟨hgranted, hreads⟩ := hexpect path hrest
      exact ⟨hgranted, List.forall_mem_cons.mpr ⟨trivial, hreads⟩⟩
    | error failure =>
      split at hrest
      · rename_i hresult
        cases failure <;> cases hresult
      · split_ifs at hrest
        · obtain ⟨reconnected, rest', hlog', hrest'⟩ := runsTo_request.mp hrest
          subst hlog'
          cases reconnected with
          | error e =>
            obtain ⟨hnil, hresult⟩ := runsTo_ret.mp hrest'
            simp [hnil, hresult, Granted, ReadsOn]
          | ok _ =>
            obtain ⟨reply, rest'', hlog'', hrest''⟩ := runsTo_request.mp hrest'
            subst hlog''
            cases reply with
            | ok resource =>
              obtain ⟨hgranted, hreads⟩ := hexpect path hrest''
              refine ⟨?_, by simpa [ReadsOn] using hreads⟩
              rw [granted_cons, granted_cons, hgranted]
              simp
            | error failure' =>
              have hfail : ∃ e, result = .error e := by
                cases failure' <;> exact ⟨_, (runsTo_ret.mp hrest'').2⟩
              have hnil : rest'' = [] := by
                cases failure' <;> exact (runsTo_ret.mp hrest'').1
              obtain ⟨e, he⟩ := hfail
              simp [hnil, he, Granted, ReadsOn]
        · obtain ⟨hnil, hresult⟩ := runsTo_ret.mp hrest
          simp [hnil, hresult, Granted, ReadsOn]

theorem goesThrough_append {log' : List (Sigma Requests.Reply)} : GoesThrough (log ++ log') ↔
    (Granted log ∨ Granted log') ∧ (∀ e ∈ log, ReadsOn e) ∧ ∀ e ∈ log', ReadsOn e := by
  rw [GoesThrough, granted_append, List.forall_mem_append]

theorem transferPermit_readsOn {result : Except StorageError Unit}
    (hrun : RunsTo transferPermit log result) : ¬ Granted log ∧ ∀ e ∈ log, ReadsOn e := by
  obtain ⟨admitted, rest, hlog, hend⟩ := runsTo_request.mp hrun
  have hnil : rest = [] := by
    cases admitted <;> exact (runsTo_ret.mp hend).1
  simp [hlog, hnil, Granted, ReadsOn]

/-- `get_blob` gives a body of a size that can be collected just when it is undisturbed. -/
theorem getBlob_goesThrough {result : Except StorageError SmbBody}
    (hrun : RunsTo (getBlob config key) log result) :
    (∀ blob, result = .ok blob → ∀ chunks, blob.body ≠ .external chunks) ∧
      ((∃ blob, result = .ok blob ∧ blob.sizeBytes ≤ isizeMax) ↔ GoesThrough log) := by
  cases hv : validateBlobKey key with
  | error e =>
    simp only [getBlob, hv] at hrun
    obtain ⟨hnil, hresult⟩ := runsTo_ret.mp hrun
    simp [hnil, hresult, GoesThrough, Granted]
  | ok _ =>
    simp only [getBlob, hv] at hrun
    obtain ⟨first, permit, second, hlog, hpermit, hrest⟩ := runsTo_bind.mp hrun
    obtain ⟨hnot, hreads⟩ := transferPermit_readsOn hpermit
    have hiff : GoesThrough log ↔ GoesThrough second := by
      rw [hlog, goesThrough_append, GoesThrough]
      simp only [hnot, false_or]
      exact and_congr_right fun _ => and_iff_right hreads
    rw [hiff]
    cases permit with
    | error e =>
      obtain ⟨hnil, hresult⟩ := runsTo_ret.mp hrest
      simp [hnil, hresult, GoesThrough, Granted]
    | ok _ =>
      obtain ⟨third, opened, fourth, hlog, hopen, hrest⟩ := runsTo_bind.mp hrest
      obtain ⟨hgranted, hreads⟩ := openFile_granted hopen
      cases opened with
      | error e =>
        obtain ⟨_, rest, hlog', hend⟩ := runsTo_request.mp hrest
        obtain ⟨hnil, hresult⟩ := runsTo_ret.mp hend
        have hthird : ¬ Granted third := fun h => by simpa using hgranted.mpr h
        have hfourth : ¬ Granted fourth := by simp [hlog', hnil, Granted]
        rw [hlog, goesThrough_append, hresult]
        simp [hthird, hfourth]
      | ok file =>
        have hgranted : Granted third := hgranted.mp ⟨file, rfl⟩
        have hiff : GoesThrough second ↔ ∀ e ∈ fourth, ReadsOn e := by
          rw [hlog, goesThrough_append]
          exact ⟨fun h => h.2.2, fun h => ⟨Or.inl hgranted, hreads, h⟩⟩
        obtain ⟨reply, rest, hlog', hrest⟩ := runsTo_request.mp hrest
        rw [hiff, hlog', List.forall_mem_cons]
        rcases reply with (_ | _) | size
        · obtain ⟨_, _, _, hrest⟩ := runsTo_request.mp hrest
          obtain ⟨_, _, _, hend⟩ := runsTo_request.mp hrest
          simp [(runsTo_ret.mp hend).2, ReadsOn]
        · obtain ⟨_, _, _, hrest⟩ := runsTo_request.mp hrest
          obtain ⟨_, _, _, hend⟩ := runsTo_request.mp hrest
          simp [(runsTo_ret.mp hend).2, ReadsOn]
        · obtain ⟨hnil, hresult⟩ := runsTo_ret.mp hrest
          simp [hnil, hresult, ReadsOn]

/-- A read gives the content just when it is undisturbed. -/
theorem readBlob_goesThrough {result : Except Stop Bytes}
    (hrun : RunsTo (readBlob config key) log result) :
    (∃ b, result = .ok b) ↔ GoesThrough log := by
  obtain ⟨first, opened, second, hlog, hopen, hrest⟩ := runsTo_bind.mp hrun
  obtain ⟨hbody, hiff⟩ := getBlob_goesThrough hopen
  rw [hlog, goesThrough_append]
  -- A read that has no body to collect was disturbed before.
  have hfail : ¬ GoesThrough first → ¬ Granted second →
      ¬ ((Granted first ∨ Granted second) ∧ (∀ e ∈ first, ReadsOn e) ∧
        ∀ e ∈ second, ReadsOn e) := by
    intro hnot hsecond h
    exact hnot ⟨h.1.resolve_right hsecond, h.2.1⟩
  cases opened with
  | error e =>
    obtain ⟨hnil, hresult⟩ := runsTo_ret.mp hrest
    have hnot : ¬ GoesThrough first := fun h => by simpa using hiff.mpr h
    simpa [hresult] using hfail hnot (by simp [hnil, Granted])
  | ok blob =>
    simp only at hrest
    split_ifs at hrest with hsize
    · obtain ⟨third, _, fourth, hlog', hdrop, hend⟩ := runsTo_bind.mp hrest
      obtain ⟨hnil, hresult⟩ := runsTo_ret.mp hend
      have hnot : ¬ GoesThrough first := fun h => by
        obtain ⟨blob', heq, hle⟩ := hiff.mpr h
        rw [← Except.ok.inj heq] at hle
        exact absurd hsize (not_lt.mpr hle)
      have hsecond : ¬ Granted second := by
        rw [hlog', hnil, List.append_nil]
        exact (drop_readsOn hdrop).1
      simpa [hresult] using hfail hnot hsecond
    · obtain ⟨hgranted, hreads⟩ := hiff.mp ⟨blob, rfl, not_lt.mp hsize⟩
      obtain ⟨third, collected, fourth, hlog', hcollect, hend⟩ := runsTo_bind.mp hrest
      have hcollected := collectBody_readsOn (hbody blob rfl) hcollect
      have hsecond : second = third := by
        cases collected <;> rw [hlog', (runsTo_ret.mp hend).1, List.append_nil]
      have hresult : (∃ b, result = .ok b) ↔ ∃ b, collected = .ok b := by
        cases collected <;> simp [(runsTo_ret.mp hend).2]
      rw [hresult, hcollected, hsecond]
      exact ⟨fun h => ⟨Or.inl hgranted, hreads, h⟩, fun h => h.2.2⟩

end Reads

/-! ### Requests to delete -/

/-- A path is never opened for deletion. -/
def neverDeleting (path : Str) : Discipline Requests Unit where
  allowed _ c := c ≠ .openExisting path .delete
  next q _ _ := q

/-- The program never opens this path for deletion. -/
def NeverDeletes (path : Str) (p : SmbM α) : Prop :=
  Follows (neverDeleting path) (fun _ _ => True) () p

section Deletes

variable {β : Type} {path : Str} {log : List (Sigma Requests.Reply)} (D : Digest)
  (config : SmbStorageConfig) {key : Str}

theorem never_ret (a : α) : NeverDeletes path (.ret a) := trivial

theorem NeverDeletes.bind {p : SmbM α} {f : α → SmbM β} (hp : NeverDeletes path p)
    (hf : ∀ a, NeverDeletes path (f a)) : NeverDeletes path (p.bind f) :=
  Follows.bind hp fun _ a _ => hf a

theorem never_request {c : SmbCall} (hc : c ≠ .openExisting path .delete) :
    NeverDeletes path (request c) := ⟨hc, fun _ => trivial⟩

theorem NeverDeletes.not_mem {p : SmbM α} (hp : NeverDeletes path p) {a : α} (h : RunsTo p log a)
    (r : Except (Failure SmbError) Resource) : ⟨.openExisting path .delete, r⟩ ∉ log := by
  intro he
  obtain ⟨_, hallowed⟩ := Follows.allowed_of_mem hp h _ he
  exact hallowed rfl

theorem never_expectFile (operation message : Str) (resource : Resource) :
    NeverDeletes path (expectFile operation message resource) := by
  cases resource with
  | file h => exact never_ret _
  | directory h => exact (never_request (by simp)).bind fun _ => never_ret _
  | pipe h => exact (never_request (by simp)).bind fun _ => never_ret _

theorem never_ensureSegments (current : Str) (segments : List Str) :
    NeverDeletes path (ensureSegments current segments) := by
  induction segments generalizing current with
  | nil => exact never_ret _
  | cons segment rest ih =>
    refine (never_request (by simp)).bind fun r => ?_
    split
    · exact never_ret _
    · refine (never_request (by simp)).bind fun r => ?_
      split
      · exact never_ret _
      · exact ih _

theorem never_ensureParentDirectories (key : Str) :
    NeverDeletes path (ensureParentDirectories config key) := by
  unfold ensureParentDirectories
  split
  · exact never_ret _
  · split
    · exact never_ret _
    · exact never_ensureSegments _ _

/-- Opening spares every path but the one it opens for deletion. -/
theorem never_openFile {access : Access} (hne : keyPath config key ≠ path ∨ access ≠ .delete) :
    NeverDeletes path (openFile config key access) := by
  cases hv : validateBlobKey key with
  | error e =>
    simp only [openFile, remotePath, mappedKey, hv]
    exact never_ret _
  | ok _ =>
    have hopen : SmbCall.openExisting (keyPath config key) access ≠ .openExisting path .delete := by
      intro he
      obtain ⟨hpath, haccess⟩ := SmbCall.openExisting.inj he
      exact hne.elim (absurd hpath) (absurd haccess)
    simp only [openFile, remotePath_of_valid config (validateBlobKey_eq_ok.mp hv)]
    refine (never_request hopen).bind fun r => ?_
    split
    · exact never_expectFile _ _ _
    · split_ifs
      · refine (never_request (by simp)).bind fun r => ?_
        split
        · exact never_ret _
        · refine (never_request hopen).bind fun r => ?_
          split
          · exact never_ret _
          · exact never_expectFile _ _ _
      · exact never_ret _

theorem never_removeFile (hne : keyPath config key ≠ path) :
    NeverDeletes path (removeFile config key) := by
  refine (never_openFile config (Or.inl hne)).bind fun r => ?_
  split
  · split_ifs
    · exact never_ret _
    · exact never_ret _
  · refine (never_request (by simp)).bind fun r => ?_
    exact (never_request (by simp)).bind fun r => never_ret _

theorem never_cleanupFailedWrite (hne : keyPath config key ≠ path) (h : Handle) :
    NeverDeletes path (cleanupFailedWrite config key h) :=
  (never_request (by simp)).bind fun _ => (never_removeFile config hne).bind fun _ => never_ret _

theorem never_rename (src dst : Str) (replace : Bool) :
    NeverDeletes path (rename config src dst replace) := by
  refine (never_ensureParentDirectories config dst).bind fun r => ?_
  split
  · exact never_ret _
  · refine (never_openFile config (Or.inr (by simp))).bind fun r => ?_
    split
    · exact never_ret _
    · split
      · exact (never_request (by simp)).bind fun _ => never_ret _
      · refine (never_request (by simp)).bind fun r => ?_
        exact (never_request (by simp)).bind fun r => never_ret _

theorem never_drop (source : BodySource) : NeverDeletes path source.drop := by
  cases source with
  | blob h offset size => exact (never_request (by simp)).bind fun _ => never_request (by simp)
  | _ => exact never_ret _

theorem never_next (source : BodySource) : NeverDeletes path source.next := by
  have hlost : ∀ (h : Handle) (item : Option (Except StorageError Bytes)),
      NeverDeletes path ((request (.dropFile h)).bind fun _ =>
        (request .releasePermit).bind fun _ => .ret (item, BodySource.finished)) := fun h item =>
    (never_request (by simp)).bind fun _ => (never_request (by simp)).bind fun _ => never_ret _
  cases source with
  | external chunks => cases chunks <;> exact never_ret _
  | finished => exact never_ret _
  | blob h offset size =>
    simp only [BodySource.next]
    split_ifs
    · refine (never_request (by simp)).bind fun r => ?_
      split <;> exact (never_request (by simp)).bind fun _ => never_ret _
    · refine (never_request (by simp)).bind fun r => ?_
      split
      · exact hlost h _
      · exact hlost h _
      · exact never_ret _

theorem never_collectBody (fuel : ℕ) (source : BodySource) (bytes : Bytes) :
    NeverDeletes path (collectBody fuel source bytes) := by
  induction fuel generalizing source bytes with
  | zero => exact (never_drop source).bind fun _ => never_ret _
  | succ fuel ih =>
    refine (never_next source).bind fun r => ?_
    obtain ⟨item, source'⟩ := r
    rcases item with _ | (_ | chunk)
    · exact (never_drop source').bind fun _ => never_ret _
    · exact (never_drop source').bind fun _ => never_ret _
    · exact ih source' _

theorem never_transferPermit : NeverDeletes path transferPermit := by
  refine (never_request (by simp)).bind fun r => ?_
  split <;> exact never_ret _

/-- Reading deletes nothing. -/
theorem never_readBlob (key : Str) : NeverDeletes path (readBlob config key) := by
  have hget : NeverDeletes path (getBlob config key) := by
    unfold getBlob
    split
    · exact never_ret _
    · refine never_transferPermit.bind fun r => ?_
      split
      · exact never_ret _
      · refine (never_openFile config (Or.inr (by simp))).bind fun r => ?_
        split
        · exact (never_request (by simp)).bind fun _ => never_ret _
        · refine (never_request (by simp)).bind fun r => ?_
          split
          · refine (never_request (by simp)).bind fun _ => ?_
            exact (never_request (by simp)).bind fun _ => never_ret _
          · exact never_ret _
  refine hget.bind fun r => ?_
  split
  · exact never_ret _
  · split_ifs
    · exact (never_drop _).bind fun _ => never_ret _
    · refine (never_collectBody _ _ _).bind fun r => ?_
      split <;> exact never_ret _

theorem never_writeBlocks (h : Handle) (fuel : ℕ) (bytes : Bytes) (offset : ℕ) :
    NeverDeletes path (writeBlocks h fuel bytes offset) := by
  induction fuel generalizing bytes offset with
  | zero => exact never_ret _
  | succ fuel ih =>
    cases bytes with
    | nil => exact never_ret _
    | cons b bytes =>
      refine (never_request (by simp)).bind fun r => ?_
      split
      · exact never_ret _
      · exact never_ret _
      · exact ih _ _

theorem never_writeChunks (h : Handle) (fuel : ℕ) (source : BodySource) (hasher : D.Hasher)
    (offset : ℕ) : NeverDeletes path (writeChunks D h fuel source hasher offset) := by
  induction fuel generalizing source hasher offset with
  | zero => exact never_ret _
  | succ fuel ih =>
    refine (never_next source).bind fun r => ?_
    obtain ⟨item, source'⟩ := r
    rcases item with _ | (_ | chunk)
    · exact never_ret _
    · exact never_ret _
    · refine (never_writeBlocks h _ _ _).bind fun r => ?_
      cases r with
      | error e => exact never_ret _
      | ok offset => exact ih _ _ _

theorem never_fillFile (hne : keyPath config key ≠ path) (h : Handle) (source : BodySource) :
    NeverDeletes path (fillFile D config key h source) := by
  refine (never_writeChunks D h _ _ _ _).bind fun r => ?_
  obtain ⟨written, source'⟩ := r
  have hcleanup : ∀ e : StorageError, NeverDeletes path ((cleanupFailedWrite config key h).bind
      fun _ => .ret ((.error e, source') : Except StorageError BlobWriteOutcome × BodySource)) :=
    fun e => (never_cleanupFailedWrite config hne h).bind fun _ => never_ret _
  have hremove : ∀ e : StorageError, NeverDeletes path ((removeFile config key).bind
      fun _ => .ret ((.error e, source') : Except StorageError BlobWriteOutcome × BodySource)) :=
    fun e => (never_removeFile config hne).bind fun _ => never_ret _
  cases written with
  | error e => exact hcleanup e
  | ok written =>
    refine (never_request (by simp)).bind fun r => ?_
    split
    · exact hcleanup _
    · refine (never_request (by simp)).bind fun r => ?_
      split
      · simp only
        split_ifs
        · exact (never_request (by simp)).bind fun _ => hremove _
        · exact hremove _
      · exact never_ret _

theorem never_writeFile (hne : keyPath config key ≠ path) (source : BodySource)
    (exclusive : Bool) : NeverDeletes path (writeFile D config key source exclusive) := by
  have hfill : NeverDeletes path (createAndFill D config key source exclusive) := by
    refine (never_ensureParentDirectories config key).bind fun r => ?_
    split
    · exact never_ret _
    · split
      · exact never_ret _
      · refine (never_request (by simp)).bind fun r => ?_
        split
        · exact never_ret _
        · refine (never_expectFile _ _ _).bind fun r => ?_
          split
          · exact never_ret _
          · exact never_fillFile D config hne _ source
  refine never_transferPermit.bind fun r => ?_
  split
  · exact (never_drop source).bind fun _ => never_ret _
  · refine hfill.bind fun r => ?_
    refine (never_drop _).bind fun _ => ?_
    exact (never_request (by simp)).bind fun _ => never_ret _

/-- An upload deletes its temporary file and nothing else. -/
theorem never_putBlob (uuid : Uuid) (hne : keyPath config (tempBeside uuid key) ≠ path)
    (source : BodySource) : NeverDeletes path (putBlob D config uuid key source) := by
  cases hv : validateBlobKey key with
  | error e =>
    simp only [putBlob, hv]
    exact (never_drop source).bind fun _ => never_ret _
  | ok _ =>
    have hgiveUp : ∀ e : StorageError, NeverDeletes path (do
        if e.isRetryable then
          let _ ← request .reconnect
        let _ ← removeFile config (tempBeside uuid key)
        return (.error e : Except StorageError BlobWriteOutcome)) := by
      intro e
      have hremove : NeverDeletes path ((removeFile config (tempBeside uuid key)).bind fun _ =>
          .ret (.error e : Except StorageError BlobWriteOutcome)) :=
        (never_removeFile config hne).bind fun _ => never_ret _
      simp only
      split_ifs
      · exact (never_request (by simp)).bind fun _ => hremove
      · exact hremove
    simp only [putBlob, hv, tempKey_of_valid uuid (validateBlobKey_eq_ok.mp hv)]
    refine (never_writeFile D config hne source false).bind fun r => ?_
    split
    · exact hgiveUp _
    · refine (never_rename config _ _ _).bind fun r => ?_
      split
      · exact hgiveUp _
      · exact never_ret _

theorem never_ensureRootPrefix : NeverDeletes path (ensureRootPrefix config) := by
  unfold ensureRootPrefix
  split
  · exact never_ensureSegments _ _
  · exact never_ret _

/-- A deletion opens its file for it first. -/
theorem deleteBlob_opens {log : List (Sigma Requests.Reply)} (hk : ValidKey key)
    {result : Except StorageError Unit} (hrun : RunsTo (deleteBlob config key) log result) :
    ∃ r, ⟨.openExisting (keyPath config key) .delete, r⟩ ∈ log := by
  simp only [deleteBlob, validateBlobKey_eq_ok.mpr hk, removeFile, bind_eq_bind] at hrun
  obtain ⟨first, opened, second, hlog, hopen, _⟩ := runsTo_bind.mp hrun
  simp only [openFile, remotePath_of_valid config hk] at hopen
  obtain ⟨r, rest, hfirst, _⟩ := runsTo_request.mp hopen
  exact ⟨r, by simp [hlog, hfirst]⟩

end Deletes

/-! ### Logs of a probe -/

/-- Requests on files among those of a probe. -/
def fileEntry (e : Sigma Requests.Reply) : Sigma ProbeRequests.Reply := leftEntry (leftEntry e)

/-- `put_blob` of the probe's file returned `Ok`. -/
def PutReturned (D : Digest) (parsesUuid : Str → Bool) (config : SmbProbeConfig)
    (options : SmbProbeOptions) (fuel : ℕ) (ids : ProbeIds)
    (log : List (Sigma ProbeRequests.Reply)) : Prop :=
  ∃ before after readable, log = before ++ after ∧
    RunsTo (writeProbe D parsesUuid config options fuel ids) before (.ok readable)

/-- `delete_blob` of the probe's file was called after it was put and read, and returned this. -/
def DeleteReturned (D : Digest) (parsesUuid : Str → Bool) (config : SmbProbeConfig)
    (options : SmbProbeOptions) (fuel : ℕ) (ids : ProbeIds)
    (log : List (Sigma ProbeRequests.Reply)) (r : Except StorageError Unit) : Prop :=
  ∃ before reads deletes after readable content,
    log = before ++ (List.map fileEntry reads ++ (List.map fileEntry deletes ++ after)) ∧
    RunsTo (writeProbe D parsesUuid config options fuel ids) before (.ok readable) ∧
    RunsTo (readBlob config.toSmbStorageConfig (probeKey ids)) reads content ∧
    RunsTo (deleteBlob config.toSmbStorageConfig (probeKey ids)) deletes r

/-- The probe's file was to be opened for deletion, whenever that was. -/
def DeleteAttempted (config : SmbProbeConfig) (ids : ProbeIds)
    (log : List (Sigma ProbeRequests.Reply)) : Prop :=
  ∃ r, fileEntry ⟨.openExisting (keyPath config.toSmbStorageConfig (probeKey ids)) .delete, r⟩ ∈ log

/-- The requests with which the probe's file was read back, after it was put, were undisturbed. -/
def ReadUndisturbed (D : Digest) (parsesUuid : Str → Bool) (config : SmbProbeConfig)
    (options : SmbProbeOptions) (fuel : ℕ) (ids : ProbeIds)
    (log : List (Sigma ProbeRequests.Reply)) : Prop :=
  ∃ before reads after readable content, log = before ++ (List.map fileEntry reads ++ after) ∧
    RunsTo (writeProbe D parsesUuid config options fuel ids) before (.ok readable) ∧
    RunsTo (readBlob config.toSmbStorageConfig (probeKey ids)) reads content ∧ GoesThrough reads

theorem validKey_probeKey (ids : ProbeIds) : ValidKey (probeKey ids) := by
  have hmem : ∀ c : Char, isUuidChar c = false → c ∉ probeName → c ∉ probeKey ids := by
    intro c hc hname
    rw [probeKey, List.mem_append, not_or]
    exact ⟨hname, ids.name.not_mem_toStr hc⟩
  have hlong : 36 ≤ (probeKey ids).length := by
    rw [probeKey, List.length_append, Uuid.length_toStr]
    exact Nat.le_add_left 36 probeName.length
  have hslash : '/' ∉ probeKey ids := hmem '/' (by decide) (by decide)
  refine ⟨hmem '\\' (by decide) (by decide), fun c hc => ?_⟩
  rw [List.splitOn_eq_singleton hslash, List.mem_singleton] at hc
  subst hc
  refine ⟨?_, ?_, ?_, hslash, hmem _ (by decide) (by decide)⟩ <;>
  · intro he
    rw [he] at hlong
    simp at hlong

section Logs

variable {D : Digest} {parsesUuid : Str → Bool} {config : SmbProbeConfig}
  {options : SmbProbeOptions} {fuel : ℕ} {ids : ProbeIds}
  {log : List (Sigma ProbeRequests.Reply)}

theorem runsTo_onFiles {p : SmbM α} {a : α} :
    RunsTo (onFiles p) log a ↔ ∃ own, RunsTo p own a ∧ log = own.map fileEntry := by
  simp only [onFiles, runsTo_left]
  constructor
  · rintro ⟨outer, ⟨own, hrun, houter⟩, hlog⟩
    exact ⟨own, hrun, by rw [hlog, houter, List.map_map]; rfl⟩
  · rintro ⟨own, hrun, hlog⟩
    exact ⟨_, ⟨own, hrun, rfl⟩, by rw [hlog, List.map_map]; rfl⟩

theorem fileEntry_injective : Function.Injective fileEntry := by
  intro e e' h
  obtain ⟨c, r⟩ := e
  obtain ⟨c', r'⟩ := e'
  cases h
  rfl

theorem mem_fileEntries {own : List (Sigma Requests.Reply)} {e : Sigma Requests.Reply} :
    fileEntry e ∈ own.map fileEntry ↔ e ∈ own := List.mem_map_of_injective fileEntry_injective

theorem fileEntry_not_mem_directories {p : ListM α} {a : α}
    (h : RunsTo (onDirectories p) log a) (e : Sigma Requests.Reply) : fileEntry e ∉ log := by
  obtain ⟨outer, hrun, hlog⟩ := runsTo_left.mp h
  obtain ⟨own, _, houter⟩ := runsTo_right.mp hrun
  rw [hlog, houter, List.map_map, List.mem_map]
  rintro ⟨e', _, he⟩
  cases he

theorem fileEntry_not_mem_connection {c : ConnCall} {r : ConnCall.Reply c}
    (h : RunsTo (connRequest c) log r) (e : Sigma Requests.Reply) : fileEntry e ∉ log := by
  obtain ⟨own, _, hlog⟩ := runsTo_right.mp h
  rw [hlog, List.mem_map]
  rintro ⟨e', _, he⟩
  cases he

/-- Up to its `put_blob` the probe does not open its own file for deletion. -/
theorem writeProbe_never {written : Except Stop Bool}
    (h : RunsTo (writeProbe D parsesUuid config options fuel ids) log written)
    (r : Except (Failure SmbError) Resource) :
    fileEntry ⟨.openExisting (keyPath config.toSmbStorageConfig (probeKey ids)) .delete, r⟩ ∉
      log := by
  have hfiles : ∀ {β : Type} {p : SmbM β} {b : β} {part : List (Sigma ProbeRequests.Reply)},
      NeverDeletes (keyPath config.toSmbStorageConfig (probeKey ids)) p →
      RunsTo (onFiles p) part b → fileEntry
        ⟨.openExisting (keyPath config.toSmbStorageConfig (probeKey ids)) .delete, r⟩ ∉ part := by
    intro β p b part hp hrun
    obtain ⟨own, hown, hpart⟩ := runsTo_onFiles.mp hrun
    rw [hpart, mem_fileEntries]
    exact hp.not_mem hown r
  obtain ⟨first, connected, rest, hlog, hconnect, hrest⟩ := runsTo_bind.mp h
  rw [hlog, List.mem_append, not_or]
  refine ⟨fileEntry_not_mem_connection hconnect _, ?_⟩
  cases connected with
  | error e => simp [(runsTo_ret.mp hrest).1]
  | ok _ =>
    obtain ⟨second, ensured, rest, hlog, hensure, hrest⟩ := runsTo_bind.mp hrest
    rw [hlog, List.mem_append, not_or]
    refine ⟨hfiles ?_ hensure, ?_⟩
    · split_ifs
      · exact never_ensureRootPrefix _
      · exact never_ret _
    cases ensured with
    | error e => simp [(runsTo_ret.mp hrest).1]
    | ok _ =>
      obtain ⟨third, listed, rest, hlog, hlist, hrest⟩ := runsTo_bind.mp hrest
      rw [hlog, List.mem_append, not_or]
      refine ⟨fileEntry_not_mem_directories hlist _, ?_⟩
      cases listed with
      | error stop => simp [(runsTo_ret.mp hrest).1]
      | ok readable =>
        obtain ⟨fourth, put, rest, hlog, hput, hrest⟩ := runsTo_bind.mp hrest
        rw [hlog, List.mem_append, not_or]
        refine ⟨hfiles ?_ hput, ?_⟩
        · exact never_putBlob D _ ids.temp (tempPath_ne _ ids.temp _) _
        · cases put <;> simp [(runsTo_ret.mp hrest).1]

/-- A probe that has put its file deletes it again just when it can read it back. -/
theorem probe_deletes_iff {result : Except Stop SmbProbeResult}
    (hrun : RunsTo (probe D parsesUuid config options fuel ids) log result)
    (hput : PutReturned D parsesUuid config options fuel ids log) :
    ((∃ r, DeleteReturned D parsesUuid config options fuel ids log r) ↔
      ReadUndisturbed D parsesUuid config options fuel ids log) ∧
    (DeleteAttempted config ids log ↔
      ReadUndisturbed D parsesUuid config options fuel ids log) := by
  obtain ⟨before, after, readable, hlog, hwrite⟩ := hput
  obtain ⟨first, written, second, hlog', hfirst, hverify⟩ := runsTo_bind.mp hrun
  obtain ⟨hbefore, hwritten, hafter⟩ := hwrite.unique hfirst (hlog ▸ hlog')
  subst hbefore hwritten hafter
  obtain ⟨third, content, fourth, hafter, hread, hrest⟩ := runsTo_bind.mp hverify
  obtain ⟨reads, hreads, hthird⟩ := runsTo_onFiles.mp hread
  subst hthird
  have hiff : ReadUndisturbed D parsesUuid config options fuel ids log ↔ GoesThrough reads := by
    constructor
    · rintro ⟨before', reads', after', readable', content', hlog', hwrite', hreads', hthrough⟩
      obtain ⟨-, -, htail⟩ := hwrite.unique hwrite' (hlog ▸ hlog')
      rw [hafter] at htail
      have hread' := runsTo_onFiles.mpr ⟨reads', hreads', rfl⟩
      obtain ⟨hsame, -, -⟩ := hread.unique hread' htail
      rwa [List.map_injective_iff.mpr fileEntry_injective hsame]
    · intro hthrough
      exact ⟨before, reads, fourth, readable, content, by rw [hlog, hafter], hwrite, hreads,
        hthrough⟩
  have hattempted : ∀ r, DeleteReturned D parsesUuid config options fuel ids log r →
      DeleteAttempted config ids log := by
    rintro r ⟨_, _, deletes, _, _, _, hlog', _, _, hdelete⟩
    obtain ⟨reply, hmem⟩ := deleteBlob_opens _ (validKey_probeKey ids) hdelete
    refine ⟨reply, ?_⟩
    rw [hlog']
    simp only [List.mem_append]
    exact Or.inr (Or.inr (Or.inl (mem_fileEntries.mpr hmem)))
  rw [hiff, ← readBlob_goesThrough hreads]
  cases content with
  | error stop =>
    -- The exit by `?`: nothing is requested after the read, and nothing before deletes the file.
    have hnot : ¬ DeleteAttempted config ids log := by
      rintro ⟨reply, hmem⟩
      have hnil : fourth = [] := (runsTo_ret.mp hrest).1
      rw [hlog, hafter, hnil, List.append_nil, List.mem_append, mem_fileEntries] at hmem
      cases hmem with
      | inl hmem => exact absurd hmem (writeProbe_never hwrite reply)
      | inr hmem => exact absurd hmem ((never_readBlob _ _).not_mem hreads reply)
    simp only [reduceCtorEq, exists_false, iff_false, not_exists]
    exact ⟨fun r hr => hnot (hattempted r hr), hnot⟩
  | ok actual =>
    have hdeleted : ∃ deletes rest r, fourth = List.map fileEntry deletes ++ rest ∧
        RunsTo (deleteBlob config.toSmbStorageConfig (probeKey ids)) deletes r := by
      simp only at hrest
      split_ifs at hrest
      · obtain ⟨part, r, rest, hfourth, hdelete, -⟩ := runsTo_bind.mp hrest
        obtain ⟨deletes, hdeletes, hpart⟩ := runsTo_onFiles.mp hdelete
        exact ⟨deletes, rest, r, by rw [hfourth, hpart], hdeletes⟩
      · obtain ⟨part, r, rest, hfourth, hdelete, -⟩ := runsTo_bind.mp hrest
        obtain ⟨deletes, hdeletes, hpart⟩ := runsTo_onFiles.mp hdelete
        exact ⟨deletes, rest, r, by rw [hfourth, hpart], hdeletes⟩
    obtain ⟨deletes, rest, r, hfourth, hdeletes⟩ := hdeleted
    have hreturned : DeleteReturned D parsesUuid config options fuel ids log r :=
      ⟨before, reads, deletes, rest, readable, .ok actual, by rw [hlog, hafter, hfourth], hwrite,
        hreads, hdeletes⟩
    exact ⟨iff_of_true ⟨r, hreturned⟩ ⟨actual, rfl⟩,
      iff_of_true (hattempted r hreturned) ⟨actual, rfl⟩⟩

end Logs

end GraphqlOrmStorage.Smb
