import GraphqlOrmStorage.SmbWholeWrites
import GraphqlOrmStorage.SmbContract

/-!
# Backends that share a file server

Several backends may keep their blobs on one share, each below a root of its own. Any
number of their calls go on at once, while requests fail and connections break. A call
opens, writes, renames and deletes files under the keys of its own backend only, so what
the keys of a backend hold is left alone by the calls of all others.
-/
namespace GraphqlOrmStorage.Smb

open Text Program Program.Prog Contract

/-! ### What a call touches -/

/-- The handle that a request for a file has led to. -/
def opened : Except (Failure SmbError) Resource → List Handle
  | .ok (.file h) => [h]
  | _ => []

/-- Whose call it is, and the handles that it has been given. -/
structure Tenancy (T : Type) where
  tenant : T
  handles : List Handle

variable {T : Type}

/-- What a call may ask for: it names its tenant's paths, and changes files through its own
handles. -/
def Tenancy.Allows (owner : Str → T) (q : Tenancy T) : SmbCall → Prop
  | .createFile path _ | .openExisting path _ => owner path = q.tenant
  | .setRename h path _ => h ∈ q.handles ∧ owner path = q.tenant
  | .setDelete h | .writeBlock h _ _ => h ∈ q.handles
  | _ => True

def Tenancy.next (q : Tenancy T) : (c : SmbCall) → SmbCall.Reply c → Tenancy T
  | .createFile _ _, reply | .openExisting _ _, reply =>
    { q with handles := opened reply ++ q.handles }
  | _, _ => q

def tenancy (owner : Str → T) : Discipline Requests (Tenancy T) where
  allowed := Tenancy.Allows owner
  next := Tenancy.next

/-- The request names no path, and changes no file. -/
def SmbCall.isFree : SmbCall → Bool
  | .createFile _ _ | .openExisting _ _ => false
  | .setRename _ _ _ | .setDelete _ | .writeBlock _ _ _ => false
  | _ => true

section Programs

variable {α β : Type} {owner : Str → T} {t : T} {hs hs' : List Handle}

/-- With these handles the program keeps to what is its tenant's; it ends with those it returns. -/
def Confined (owner : Str → T) (t : T) (hs : List Handle) (given : α → List Handle)
    (p : SmbM α) : Prop :=
  ∀ q : Tenancy T, q.tenant = t → hs ⊆ q.handles → Prog.Follows (tenancy owner)
    (fun q' a => q'.tenant = t ∧ q.handles ⊆ q'.handles ∧ given a ⊆ q'.handles) q p

def noHandles (_ : α) : List Handle := []

/-- The handle of a result. -/
def held : Except StorageError Handle → List Handle
  | .ok h => [h]
  | .error _ => []

theorem confined_give {given : α → List Handle} {a : α} (h : given a ⊆ hs) :
    Confined owner t hs given (.ret a) :=
  fun _ hq hhs => ⟨hq, List.Subset.refl _, List.Subset.trans h hhs⟩

theorem confined_ret {a : α} : Confined owner t hs noHandles (.ret a) :=
  confined_give (List.nil_subset _)

theorem Confined.bind {mid : α → List Handle} {given : β → List Handle} {p : SmbM α}
    {f : α → SmbM β} (hp : Confined owner t hs mid p)
    (hf : ∀ a, Confined owner t (mid a ++ hs) given (f a)) :
    Confined owner t hs given (p.bind f) := by
  intro q hq hhs
  refine Prog.Follows.bind (hp q hq hhs) fun q' a hq' => ?_
  obtain ⟨htenant, hgrow, hmid⟩ := hq'
  have hhas : mid a ++ hs ⊆ q'.handles :=
    List.append_subset.mpr ⟨hmid, List.Subset.trans hhs hgrow⟩
  refine (hf a q' htenant hhas).mono fun q'' b h => ?_
  exact ⟨h.1, List.Subset.trans hgrow h.2.1, h.2.2⟩

/-- Sequencing after a program that returns no handle. -/
theorem Confined.seq {given : β → List Handle} {p : SmbM α} {f : α → SmbM β}
    (hp : Confined owner t hs noHandles p) (hf : ∀ a, Confined owner t hs given (f a)) :
    Confined owner t hs given (p.bind f) :=
  hp.bind hf

theorem Confined.mono {given : α → List Handle} {p : SmbM α} (hp : Confined owner t hs given p)
    (h : hs ⊆ hs') : Confined owner t hs' given p :=
  fun q hq hhs => hp q hq (List.Subset.trans h hhs)

/-- A request that leads to no handle. -/
theorem confined_request {c : SmbCall}
    (hc : ∀ q : Tenancy T, q.tenant = t → hs ⊆ q.handles → q.Allows owner c)
    (hnext : ∀ (q : Tenancy T) (r : SmbCall.Reply c), q.next c r = q) :
    Confined owner t hs noHandles (request c) := by
  intro q hq hhs
  refine ⟨hc q hq hhs, fun r => ?_⟩
  have hsame : (tenancy owner).next q c r = q := hnext q r
  rw [hsame]
  exact ⟨hq, List.Subset.refl _, List.nil_subset _⟩

theorem confined_free {c : SmbCall} (hc : c.isFree = true) :
    Confined owner t hs noHandles (request c) := by
  cases c with
  | createFile | openExisting | setRename | setDelete | writeBlock => cases hc
  | _ => exact confined_request (fun _ _ _ => trivial) fun _ _ => rfl

theorem confined_createFile {path : Str} (hpath : owner path = t) (exclusive : Bool) :
    Confined owner t hs opened (request (.createFile path exclusive)) :=
  fun _ hq _ => ⟨hpath.trans hq.symm, fun _ =>
    ⟨hq, List.subset_append_right _ _, List.subset_append_left _ _⟩⟩

theorem confined_openExisting {path : Str} (hpath : owner path = t) (access : Access) :
    Confined owner t hs opened (request (.openExisting path access)) :=
  fun _ hq _ => ⟨hpath.trans hq.symm, fun _ =>
    ⟨hq, List.subset_append_right _ _, List.subset_append_left _ _⟩⟩

theorem confined_setRename {h : Handle} {path : Str} (hh : h ∈ hs) (hpath : owner path = t)
    (replace : Bool) : Confined owner t hs noHandles (request (.setRename h path replace)) :=
  confined_request (fun _ hq hhs => ⟨hhs hh, hpath.trans hq.symm⟩) fun _ _ => rfl

theorem confined_setDelete {h : Handle} (hh : h ∈ hs) :
    Confined owner t hs noHandles (request (.setDelete h)) :=
  confined_request (fun _ _ hhs => hhs hh) fun _ _ => rfl

theorem confined_writeBlock {h : Handle} (hh : h ∈ hs) (bytes : Bytes) (offset : ℕ) :
    Confined owner t hs noHandles (request (.writeBlock h bytes offset)) :=
  confined_request (fun _ _ hhs => hhs hh) fun _ _ => rfl

/-! ### Opening, removing and renaming -/

/-- The tenant has the paths of all keys below the configured root. -/
def Owns (owner : Str → T) (t : T) (config : SmbStorageConfig) : Prop :=
  ∀ key, ValidKey key → owner (keyPath config key) = t

variable {config : SmbStorageConfig} {file : Handle}

theorem Owns.mapped (ho : Owns owner t config) {key mapped : Str}
    (h : mappedKey config key = .ok mapped) : owner (replaceChar '/' '\\' mapped) = t := by
  unfold mappedKey at h
  cases hv : validateBlobKey key with
  | error e => simp [hv] at h
  | ok u =>
    simp only [hv] at h
    obtain rfl := Except.ok.inj h
    exact ho key (validateBlobKey_eq_ok.mp hv)

theorem Owns.remote (ho : Owns owner t config) {key path : Str}
    (h : remotePath config key = .ok path) : owner path = t := by
  unfold remotePath at h
  cases hm : mappedKey config key with
  | error e =>
    rw [hm] at h
    cases h
  | ok mapped =>
    rw [hm] at h
    obtain rfl := Except.ok.inj h
    exact ho.mapped hm

theorem withTimeout_eq_ok {operation : Str} {a : α} {reply : Except (Failure SmbError) α}
    (h : withTimeout operation reply = .ok a) : reply = .ok a := by
  rcases reply with (_ | e) | b
  · cases h
  · cases h
  · exact congrArg _ (Except.ok.inj h)

theorem expectFile_confined (operation message : Str) {resource : Resource}
    (hres : opened (.ok resource) ⊆ hs) :
    Confined owner t hs held (expectFile operation message resource) := by
  cases resource with
  | file h => exact confined_give hres
  | directory h => exact (confined_free rfl).seq fun _ => confined_give (List.nil_subset _)
  | pipe h => exact (confined_free rfl).seq fun _ => confined_give (List.nil_subset _)

theorem ensureSegments_confined (current : Str) (segments : List Str) :
    Confined owner t hs noHandles (ensureSegments current segments) := by
  induction segments generalizing current with
  | nil => exact confined_ret
  | cons segment rest ih =>
    refine (confined_free rfl).seq fun r => ?_
    split
    · exact confined_ret
    · refine (confined_free rfl).seq fun r => ?_
      split
      · exact confined_ret
      · exact ih _

theorem ensureParentDirectories_confined (key : Str) :
    Confined owner t hs noHandles (ensureParentDirectories config key) := by
  unfold ensureParentDirectories
  split
  · exact confined_ret
  · split
    · exact confined_ret
    · exact ensureSegments_confined _ _

theorem openFile_confined (ho : Owns owner t config) (key : Str) (access : Access) :
    Confined owner t hs held (openFile config key access) := by
  unfold openFile
  split
  · exact confined_give (List.nil_subset _)
  · rename_i path hpath
    have hfound : ∀ {hs : List Handle} {reply : Except (Failure SmbError) Resource}
        {resource : Resource}, withTimeout "open".toList reply = .ok resource →
          Confined owner t (opened reply ++ hs) held
            (expectFile "open".toList "remote key is not a file".toList resource) := by
      intro hs reply resource hreply
      obtain rfl := withTimeout_eq_ok hreply
      exact expectFile_confined _ _ (List.subset_append_left _ _)
    refine (confined_openExisting (ho.remote hpath) access).bind fun r => ?_
    split
    · exact hfound ‹_›
    · split
      · refine (confined_free rfl).seq fun _ => ?_
        split
        · exact confined_give (List.nil_subset _)
        · refine (confined_openExisting (ho.remote hpath) access).bind fun r => ?_
          split
          · exact confined_give (List.nil_subset _)
          · exact hfound ‹_›
      · exact confined_give (List.nil_subset _)

theorem mem_held {h : Handle} {hs : List Handle} : h ∈ held (.ok h) ++ hs := List.mem_cons_self

theorem removeFile_confined (ho : Owns owner t config) (key : Str) :
    Confined owner t hs noHandles (removeFile config key) := by
  refine (openFile_confined ho key .delete).bind fun r => ?_
  cases r with
  | error e =>
    simp only
    split <;> exact confined_ret
  | ok file =>
    exact (confined_setDelete mem_held).seq fun _ => (confined_free rfl).seq fun _ => confined_ret

/-- Giving up: after an error of the connection there is a new one, and the file is removed. -/
theorem giveUp_confined (ho : Owns owner t config) (key : Str) {retry : Bool}
    {given : β → List Handle} {f : Except StorageError Unit → SmbM β}
    (hf : ∀ r, Confined owner t hs given (f r)) :
    Confined owner t hs given (if retry = true
      then (request .reconnect).bind fun _ => (removeFile config key).bind f
      else (removeFile config key).bind f) := by
  split
  · exact (confined_free rfl).seq fun _ => (removeFile_confined ho key).seq hf
  · exact (removeFile_confined ho key).seq hf

theorem rename_confined (ho : Owns owner t config) (src dst : Str) (replace : Bool) :
    Confined owner t hs noHandles (rename config src dst replace) := by
  refine (ensureParentDirectories_confined dst).seq fun r => ?_
  split
  · exact confined_ret
  · refine (openFile_confined ho src .readDelete).bind fun r => ?_
    cases r with
    | error e => exact confined_ret
    | ok file =>
      simp only
      split
      · exact (confined_free rfl).seq fun _ => confined_ret
      · refine (confined_setRename mem_held (ho.mapped ‹_›) replace).seq fun _ => ?_
        exact (confined_free rfl).seq fun _ => confined_ret

theorem cleanupFailedWrite_confined (ho : Owns owner t config) (key : Str) (file : Handle) :
    Confined owner t hs noHandles (cleanupFailedWrite config key file) :=
  (confined_free rfl).seq fun _ => (removeFile_confined ho key).seq fun _ => confined_ret

/-! ### Writing -/

theorem next_confined (source : BodySource) : Confined owner t hs noHandles source.next := by
  cases source with
  | external chunks => cases chunks <;> exact confined_ret
  | finished => exact confined_ret
  | blob file offset size =>
    simp only [BodySource.next]
    split
    · refine (confined_free rfl).seq fun r => ?_
      split <;> exact (confined_free rfl).seq fun _ => confined_ret
    · refine (confined_free rfl).seq fun r => ?_
      split
      · exact (confined_free rfl).seq fun _ => (confined_free rfl).seq fun _ => confined_ret
      · exact (confined_free rfl).seq fun _ => (confined_free rfl).seq fun _ => confined_ret
      · exact confined_ret

theorem drop_confined (source : BodySource) : Confined owner t hs noHandles source.drop := by
  cases source with
  | external chunks => exact confined_ret
  | finished => exact confined_ret
  | blob file offset size => exact (confined_free rfl).seq fun _ => confined_free rfl

theorem transferPermit_confined : Confined owner t hs noHandles transferPermit := by
  refine (confined_free rfl).seq fun r => ?_
  cases r <;> exact confined_ret

theorem writeBlocks_confined (hfile : file ∈ hs) (fuel : ℕ) (bytes : Bytes) (offset : ℕ) :
    Confined owner t hs noHandles (writeBlocks file fuel bytes offset) := by
  induction fuel generalizing bytes offset with
  | zero => exact confined_ret
  | succ fuel ih =>
    cases bytes with
    | nil => exact confined_ret
    | cons b bytes =>
      refine (confined_writeBlock hfile _ _).seq fun r => ?_
      split
      · exact confined_ret
      · exact confined_ret
      · exact ih _ _

theorem writeChunks_confined (D : Digest) (hfile : file ∈ hs) (fuel : ℕ) (source : BodySource)
    (hasher : D.Hasher) (offset : ℕ) :
    Confined owner t hs noHandles (writeChunks D file fuel source hasher offset) := by
  induction fuel generalizing source hasher offset with
  | zero => exact confined_ret
  | succ fuel ih =>
    refine (next_confined source).seq fun r => ?_
    obtain ⟨item, source⟩ := r
    cases item with
    | none => exact confined_ret
    | some item =>
      cases item with
      | error e => exact confined_ret
      | ok chunk =>
        refine (writeBlocks_confined hfile _ _ _).seq fun r => ?_
        cases r with
        | error e => exact confined_ret
        | ok offset => exact ih source _ offset

theorem fillFile_confined (D : Digest) (ho : Owns owner t config) (key : Str) (hfile : file ∈ hs)
    (source : BodySource) : Confined owner t hs noHandles (fillFile D config key file source) := by
  refine (writeChunks_confined D hfile _ source _ 0).seq fun r => ?_
  obtain ⟨result, source⟩ := r
  cases result with
  | error e => exact (cleanupFailedWrite_confined ho key file).seq fun _ => confined_ret
  | ok x =>
    refine (confined_free rfl).seq fun r => ?_
    split
    · exact (cleanupFailedWrite_confined ho key file).seq fun _ => confined_ret
    · refine (confined_free rfl).seq fun r => ?_
      split
      · exact giveUp_confined ho key fun _ => confined_ret
      · exact confined_ret

theorem createAndFill_confined (D : Digest) (ho : Owns owner t config) (key : Str)
    (source : BodySource) (exclusive : Bool) :
    Confined owner t hs noHandles (createAndFill D config key source exclusive) := by
  refine (ensureParentDirectories_confined key).seq fun r => ?_
  split
  · exact confined_ret
  · split
    · exact confined_ret
    · rename_i path hpath
      refine (confined_createFile (ho.remote hpath) exclusive).bind fun r => ?_
      split
      · exact confined_ret
      · obtain rfl := withTimeout_eq_ok ‹_›
        refine (expectFile_confined _ _ (List.subset_append_left _ _)).bind fun r => ?_
        cases r with
        | error e => exact confined_ret
        | ok file => exact fillFile_confined D ho key mem_held source

theorem writeFile_confined (D : Digest) (ho : Owns owner t config) (key : Str)
    (source : BodySource) (exclusive : Bool) :
    Confined owner t hs noHandles (writeFile D config key source exclusive) := by
  refine transferPermit_confined.seq fun r => ?_
  split
  · exact (drop_confined source).seq fun _ => confined_ret
  · refine (createAndFill_confined D ho key source exclusive).seq fun r => ?_
    exact (drop_confined r.2).seq fun _ => (confined_free rfl).seq fun _ => confined_ret

theorem putBlob_confined (D : Digest) (ho : Owns owner t config) (u : Uuid) (key : Str)
    (body : BodySource) : Confined owner t hs noHandles (putBlob D config u key body) := by
  unfold putBlob
  split
  · exact (drop_confined body).seq fun _ => confined_ret
  · split
    · exact (drop_confined body).seq fun _ => confined_ret
    · refine (writeFile_confined D ho _ body false).seq fun r => ?_
      split
      · exact giveUp_confined ho _ fun _ => confined_ret
      · refine (rename_confined ho _ _ _).seq fun r => ?_
        split
        · exact giveUp_confined ho _ fun _ => confined_ret
        · exact confined_ret

theorem putBlobIfNotExists_confined (D : Digest) (ho : Owns owner t config) (key : Str)
    (body : BodySource) : Confined owner t hs noHandles (putBlobIfNotExists D config key body) := by
  unfold putBlobIfNotExists
  split
  · exact (drop_confined body).seq fun _ => confined_ret
  · refine (writeFile_confined D ho key body true).seq fun r => ?_
    split
    · exact confined_ret
    · split
      · exact confined_ret
      · split
        · exact (confined_free rfl).seq fun _ => confined_ret
        · exact confined_ret

/-! ### Reading, copying and deleting -/

theorem getBlob_confined (ho : Owns owner t config) (key : Str) :
    Confined owner t hs noHandles (getBlob config key) := by
  unfold getBlob
  split
  · exact confined_ret
  · refine transferPermit_confined.seq fun r => ?_
    split
    · exact confined_ret
    · refine (openFile_confined ho key .read).bind fun r => ?_
      split
      · exact (confined_free rfl).seq fun _ => confined_ret
      · refine (confined_free rfl).seq fun r => ?_
        split
        · exact (confined_free rfl).seq fun _ => (confined_free rfl).seq fun _ => confined_ret
        · exact confined_ret

theorem collectBody_confined (fuel : ℕ) (source : BodySource) (bytes : Bytes) :
    Confined owner t hs noHandles (collectBody fuel source bytes) := by
  induction fuel generalizing source bytes with
  | zero => exact (drop_confined source).seq fun _ => confined_ret
  | succ fuel ih =>
    refine (next_confined source).seq fun r => ?_
    obtain ⟨item, source⟩ := r
    cases item with
    | none => exact (drop_confined source).seq fun _ => confined_ret
    | some item =>
      cases item with
      | error e => exact (drop_confined source).seq fun _ => confined_ret
      | ok chunk => exact ih source _

theorem readBlob_confined (ho : Owns owner t config) (key : Str) :
    Confined owner t hs noHandles (readBlob config key) := by
  refine (getBlob_confined ho key).seq fun r => ?_
  split
  · exact confined_ret
  · split
    · exact (drop_confined _).seq fun _ => confined_ret
    · refine (collectBody_confined _ _ _).seq fun r => ?_
      split <;> exact confined_ret

theorem blobExists_confined (ho : Owns owner t config) (key : Str) :
    Confined owner t hs noHandles (blobExists config key) := by
  unfold blobExists
  split
  · exact confined_ret
  · refine (openFile_confined ho key .read).bind fun r => ?_
    split
    · refine (confined_free rfl).seq fun r => ?_
      split <;> exact confined_ret
    · split <;> exact confined_ret

theorem headBlob_confined (ho : Owns owner t config) (key : Str) :
    Confined owner t hs noHandles (headBlob config key) := by
  unfold headBlob
  split
  · exact confined_ret
  · refine (openFile_confined ho key .read).bind fun r => ?_
    split
    · split <;> exact confined_ret
    · refine (confined_free rfl).seq fun r => ?_
      split
      · exact (confined_free rfl).seq fun _ => confined_ret
      · refine (confined_free rfl).seq fun r => ?_
        split <;> exact confined_ret

theorem copyBlob_confined (D : Digest) (ho : Owns owner t config) (u : Uuid) (src dst : Str) :
    Confined owner t hs noHandles (copyBlob D config u src dst) := by
  refine (getBlob_confined ho src).seq fun r => ?_
  split
  · exact confined_ret
  · refine (putBlob_confined D ho u dst _).seq fun r => ?_
    split <;> exact confined_ret

theorem deleteBlob_confined (ho : Owns owner t config) (key : Str) :
    Confined owner t hs noHandles (deleteBlob config key) := by
  unfold deleteBlob
  split
  · exact confined_ret
  · exact removeFile_confined ho key

/-- Every call of the trait keeps to its own keys. -/
theorem storeCall_confined (D : Digest) (ho : Owns owner t config) (u : Uuid) (op : StoreCall) :
    Confined owner t hs noHandles (storeCall D config u op) := by
  cases op with
  | putBlob key body => exact (putBlob_confined D ho u key _).seq fun _ => confined_ret
  | putBlobIfNotExists key body =>
    exact (putBlobIfNotExists_confined D ho key _).seq fun _ => confined_ret
  | getBlob key => exact (readBlob_confined ho key).seq fun _ => confined_ret
  | headBlob key => exact (headBlob_confined ho key).seq fun _ => confined_ret
  | blobExists key => exact (blobExists_confined ho key).seq fun _ => confined_ret
  | copyBlob src dst => exact (copyBlob_confined D ho u src dst).seq fun _ => confined_ret
  | deleteBlob key => exact (deleteBlob_confined ho key).seq fun _ => confined_ret

end Programs

/-! ### What holds of all calls -/

section Invariant

variable {owner : Str → T} {s s' : Server} {H H' : Handle → T → Prop} {h f : Handle} {t : T}
  {p path : Str} {q : Tenancy T} {old : Option Bytes}

/-- Some of the calls has the handle, for this tenant. -/
def Holding (qs : List (Tenancy T)) (h : Handle) (t : T) : Prop :=
  ∃ q ∈ qs, h ∈ q.handles ∧ q.tenant = t

/-- One more handle. -/
def Gains (H : Handle → T → Prop) (h₀ : Handle) (t₀ : T) (h : Handle) (t : T) : Prop :=
  H h t ∨ h = h₀ ∧ t = t₀

/-- The file of a tenant's handle has no name of another tenant, and no handle of one. -/
structure Separate (owner : Str → T) (s : Server) (H : Handle → T → Prop) : Prop where
  orderly : Orderly s
  known : ∀ h t, H h t → h < s.handles.length
  named : ∀ h t f p, H h t → s.file h = some f → s.names p = some f → owner p = t
  sole : ∀ h t h' t' f, H h t → H h' t' → s.file h = some f → s.file h' = some f → t = t'

theorem Separate.mono (hs : Separate owner s H') (hle : ∀ h t, H h t → H' h t) :
    Separate owner s H where
  orderly := hs.orderly
  known h t hh := hs.known h t (hle h t hh)
  named h t f p hh := hs.named h t f p (hle h t hh)
  sole h t h' t' f hh hh' := hs.sole h t h' t' f (hle h t hh) (hle h' t' hh')

theorem Separate.close (hs : Separate owner s H) (k : Handle) : Separate owner (s.close k) H where
  orderly := hs.orderly.close k
  known h t hh := by
    rw [Server.length_close]
    exact hs.known h t hh
  named h t f p hh hf hn :=
    hs.named h t f p hh (Server.file_of_close hf) (Server.names_of_close hn)
  sole h t h' t' f hh hh' hf hf' :=
    hs.sole h t h' t' f hh hh' (Server.file_of_close hf) (Server.file_of_close hf')

theorem Separate.setContent (hs : Separate owner s H) (f : Handle) (b : Bytes) :
    Separate owner (s.setContent f b) H :=
  ⟨hs.orderly.setContent f b, hs.known, hs.named, hs.sole⟩

theorem Separate.mark (hs : Separate owner s H) (f : Handle) : Separate owner (s.mark f) H :=
  ⟨hs.orderly.mark f, hs.known, hs.named, hs.sole⟩

/-- A new handle on a file, whose names and other handles are the tenant's. -/
theorem Separate.gain (hs : Separate owner s H) (horderly : Orderly s')
    (hlength : s'.handles.length = s.handles.length + 1)
    (hfile : ∀ h, s'.file h = if h = s.handles.length then some f else s.file h)
    (hnames : ∀ h t g p, H h t → s.file h = some g → s'.names p = some g → owner p = t)
    (hown : ∀ p, s'.names p = some f → owner p = t)
    (hsole : ∀ h t', H h t' → s.file h = some f → t' = t) :
    Separate owner s' (Gains H s.handles.length t) where
  orderly := horderly
  known h t' hh := by
    rw [hlength]
    rcases hh with hh | ⟨rfl, rfl⟩
    · exact Nat.lt_succ_of_lt (hs.known h t' hh)
    · exact Nat.lt_succ_self _
  named h t' g p hh hf hn := by
    rw [hfile] at hf
    rcases hh with hh | ⟨rfl, rfl⟩
    · rw [if_neg (hs.known h t' hh).ne] at hf
      exact hnames h t' g p hh hf hn
    · rw [if_pos rfl] at hf
      exact hown p (hn.trans hf.symm)
  sole h t₁ h' t₂ g hh hh' hf hf' := by
    rw [hfile] at hf hf'
    rcases hh with hh | ⟨rfl, rfl⟩ <;> rcases hh' with hh' | ⟨rfl, rfl⟩
    · rw [if_neg (hs.known h t₁ hh).ne] at hf
      rw [if_neg (hs.known h' t₂ hh').ne] at hf'
      exact hs.sole h t₁ h' t₂ g hh hh' hf hf'
    · rw [if_neg (hs.known h t₁ hh).ne] at hf
      rw [if_pos rfl] at hf'
      exact hsole h t₁ hh (hf.trans hf'.symm)
    · rw [if_pos rfl] at hf
      rw [if_neg (hs.known h' t₂ hh').ne] at hf'
      exact (hsole h' t₂ hh' (hf'.trans hf.symm)).symm
    · rfl

theorem Separate.create (hs : Separate owner s H) (hpath : owner path = t) :
    Separate owner (s.create path) (Gains H s.handles.length t) := by
  refine hs.gain (hs.orderly.create path) (Server.length_create s path) (Server.file_create s path)
    (fun h t' g p hh hf hn => ?_) (fun p hn => ?_) fun h t' hh hf => ?_
  · rw [Server.names_create] at hn
    split_ifs at hn
    · exact absurd (Option.some.inj hn).symm (hs.orderly.open_lt h g hf).ne
    · exact hs.named h t' g p hh hf hn
  · rw [Server.names_create] at hn
    split_ifs at hn with heq
    · exact heq ▸ hpath
    · exact absurd rfl (hs.orderly.named_lt p _ hn).ne
  · exact absurd rfl (hs.orderly.open_lt h _ hf).ne

theorem Separate.openOn (hs : Separate owner s H) (hpath : owner path = t)
    (hn : s.names path = some f) : Separate owner (s.openOn f) (Gains H s.handles.length t) := by
  refine hs.gain (hs.orderly.openOn (hs.orderly.named_lt path f hn)) (Server.length_openOn s f)
    (Server.file_openOn s f) (fun h t' g p hh hf hn' => hs.named h t' g p hh hf hn')
    (fun p hn' => ?_) fun h t' hh hf => ?_
  · rw [hs.orderly.sole_name p path f hn' hn]
    exact hpath
  · rw [← hs.named h t' f path hh hf hn]
    exact hpath

theorem Separate.rename (hs : Separate owner s H) (hh : H h t) (hf : s.file h = some f)
    (hpath : owner path = t) : Separate owner (s.rename f path) H where
  orderly := hs.orderly.rename (hs.orderly.open_lt h f hf) path
  known := hs.known
  named h' t' g p hh' hf' hn := by
    rw [Server.names_rename] at hn
    split_ifs at hn with heq
    · obtain rfl := Option.some.inj hn
      rw [heq, hpath]
      exact hs.sole h t h' t' f hh hh' hf hf'
    · exact hs.named h' t' g p hh' hf' hn
  sole := hs.sole

/-- What a request does leaves the calls apart, with the handle that it may lead to. -/
theorem Separate.answer (hs : Separate owner s H) {c : SmbCall} (hq : ∀ h ∈ q.handles, H h q.tenant)
    (hc : q.Allows owner c) (o : Choice) : ∃ H', Separate owner (s.answer o c).2 H' ∧
      (∀ h t, H h t → H' h t) ∧
      ∀ h ∈ (q.next c (s.answer o c).1).handles, H' h q.tenant := by
  have hgain : ∀ h ∈ s.handles.length :: q.handles,
      Gains H s.handles.length q.tenant h q.tenant := by
    intro h hh
    rcases List.mem_cons.mp hh with rfl | hh
    · exact Or.inr ⟨rfl, rfl⟩
    · exact Or.inl (hq h hh)
  cases c with
  | createFile path exclusive =>
    rcases answer_createFile s o path exclusive with ⟨e, ha⟩ | ⟨_, ha⟩ | ⟨f, hn, _, ha⟩ <;> rw [ha]
    · exact ⟨H, hs, fun _ _ => id, hq⟩
    · exact ⟨_, hs.create hc, fun _ _ => Or.inl, hgain⟩
    · exact ⟨_, (hs.setContent f []).openOn hc hn, fun _ _ => Or.inl, hgain⟩
  | openExisting path access =>
    rcases answer_openExisting s o path access with ⟨e, ha⟩ | ⟨f, hn, _, ha⟩ <;> rw [ha]
    · exact ⟨H, hs, fun _ _ => id, hq⟩
    · exact ⟨_, hs.openOn hc hn, fun _ _ => Or.inl, hgain⟩
  | close h => exact ⟨H, hs.close h, fun _ _ => id, hq⟩
  | dropFile h => exact ⟨H, hs.close h, fun _ _ => id, hq⟩
  | queryInfo h => exact ⟨H, by rwa [Server.answer_queryInfo_snd], fun _ _ => id, hq⟩
  | setRename h path replace =>
    refine ⟨H, ?_, fun _ _ => id, hq⟩
    rcases answer_setRename s o h path replace with ⟨e, ha⟩ | ⟨f, hf, ha⟩ <;> rw [ha]
    · exact hs
    · exact hs.rename (hq h hc.1) hf hc.2
  | setDelete h =>
    refine ⟨H, ?_, fun _ _ => id, hq⟩
    simp only [Server.answer]
    split
    · exact hs
    · exact hs.mark _
  | writeBlock h bytes offset =>
    refine ⟨H, ?_, fun _ _ => id, hq⟩
    simp only [Server.answer]
    split
    · exact hs
    · split_ifs
      · exact hs
      · split <;> exact hs.setContent _ _
  | flush h => exact ⟨H, by rwa [Server.answer_flush_snd], fun _ _ => id, hq⟩
  | readBlock h length offset => exact ⟨H, by rwa [Server.answer_readBlock_snd], fun _ _ => id, hq⟩
  | _ => exact ⟨H, hs, fun _ _ => id, hq⟩

/-- A request that fails leads to no handle. -/
theorem next_of_fails {c : SmbCall} {r : SmbCall.Reply c} (hf : Fails c r) : q.next c r = q := by
  cases c with
  | createFile | openExisting =>
    obtain ⟨e, rfl⟩ := hf
    rfl
  | _ => rfl

theorem holding_self {before after : List (Tenancy T)} :
    ∀ h ∈ q.handles, Holding (before ++ q :: after) h q.tenant :=
  fun h hh => ⟨q, by simp, hh, rfl⟩

theorem Separate.step {before after : List (Tenancy T)} {c : SmbCall} {r : SmbCall.Reply c}
    (hs : Separate owner s (Holding (before ++ q :: after))) (hc : q.Allows owner c)
    (hf : Faulty s c r s') : Separate owner s' (Holding (before ++ q.next c r :: after)) := by
  refine Faulty.preserves
    (P := fun s' => Separate owner s' (Holding (before ++ q.next c r :: after))) hf
    (fun _ k ht => ht.close k) (fun o hr => ?_) fun hfails => ?_
  · subst hr
    obtain ⟨H', hs', hle, hnew⟩ := hs.answer holding_self hc o
    refine hs'.mono fun h t hh => ?_
    obtain ⟨q', hq', hh, ht⟩ := hh
    rcases List.mem_append.mp hq' with hq' | hq'
    · exact hle h t ⟨q', by simp [hq'], hh, ht⟩
    · rcases List.mem_cons.mp hq' with rfl | hq'
      · have htenant : (q.next c (s.answer o c).1).tenant = q.tenant := by
          cases c <;> rfl
        exact ht ▸ htenant ▸ hnew h hh
      · exact hle h t ⟨q', by simp [hq'], hh, ht⟩
  · rw [next_of_fails hfails]
    refine ⟨hs, fun o => ?_⟩
    obtain ⟨H', hs', hle, -⟩ := hs.answer holding_self hc o
    exact hs'.mono hle

/-! ### What a path of another tenant holds -/

theorem KeyHolds.rename (hold : KeyHolds s p old) (hne : p ≠ path) (hoff : s.names p ≠ some f) :
    KeyHolds (s.rename f path) p old := by
  have hnames : (s.rename f path).names p = s.names p := by
    rw [Server.names_rename, if_neg hne, if_neg hoff]
  cases old with
  | none => exact hnames.trans hold
  | some b =>
    obtain ⟨g, hg⟩ := hold
    exact ⟨g, hnames.trans hg.named, hg.content, hg.kept⟩

theorem Separate.keyHolds (hs : Separate owner s H) {c : SmbCall}
    (hq : ∀ h ∈ q.handles, H h q.tenant) (hc : q.Allows owner c) (hp : owner p ≠ q.tenant)
    (hold : KeyHolds s p old) (o : Choice) : KeyHolds (s.answer o c).2 p old := by
  have hoff : ∀ h ∈ q.handles, OpenOff s h p := fun h hh =>
    ⟨hs.known h _ (hq h hh), fun f hf hn => hp (hs.named h _ f p (hq h hh) hf hn)⟩
  cases c with
  | createFile path exclusive =>
    exact hold.answer hs.orderly fun he : path = p => hp (he ▸ hc)
  | setRename h path replace =>
    obtain ⟨hh, hpath⟩ := hc
    rcases answer_setRename s o h path replace with ⟨e, ha⟩ | ⟨f, hf, ha⟩ <;> rw [ha]
    · exact hold
    · refine hold.rename ?_ ((hoff h hh).2 f hf)
      rintro rfl
      exact hp hpath
  | setDelete h => exact hold.answer hs.orderly (hoff h hc)
  | writeBlock h bytes offset => exact hold.answer hs.orderly (hoff h hc)
  | _ => exact hold.answer hs.orderly trivial

theorem Separate.keyHolds_step {before after : List (Tenancy T)} {c : SmbCall}
    {r : SmbCall.Reply c} (hs : Separate owner s (Holding (before ++ q :: after)))
    (hc : q.Allows owner c) (hf : Faulty s c r s') (hp : owner p ≠ q.tenant)
    (hold : KeyHolds s p old) : KeyHolds s' p old :=
  Faulty.preserves (P := fun s' => KeyHolds s' p old) hf (fun _ k ht => ht.close k)
    (fun o _ => hs.keyHolds holding_self hc hp hold o)
    fun _ => ⟨hold, fun o => hs.keyHolds holding_self hc hp hold o⟩

end Invariant

/-! ### Calls at once -/

/-- A call of one of the backends. -/
structure TenantCall where
  config : SmbStorageConfig
  uuid : Uuid
  op : StoreCall

abbrev TenantThread := Thread Requests (Tenancy Bool) StoreAnswer

/-- The call before its first request; the calls below one root are told from the others. -/
def TenantCall.start (D : Digest) (config : SmbStorageConfig) (call : TenantCall) : TenantThread :=
  ⟨⟨decide (call.config.rootPrefix = config.rootPrefix), []⟩,
    storeCall D call.config call.uuid call.op⟩

/-- The states that the calls lead to, over a server that may fail. -/
abbrev TenantsReach : Server × List TenantThread → Server × List TenantThread → Prop :=
  Reach Tenancy.next Faulty fun _ _ _ => True

/-- The states that lie ahead as long as only calls of other backends go on. -/
abbrev OthersReach : Server × List TenantThread → Server × List TenantThread → Prop :=
  Reach Tenancy.next Faulty fun _ _ th => th.phase.tenant = false

/-- Neither root is on the way to the other. -/
def RootsApart (config config' : SmbStorageConfig) : Prop :=
  ¬ rootPath config <+: rootPath config' ∧ ¬ rootPath config' <+: rootPath config

instance (config config' : SmbStorageConfig) : Decidable (RootsApart config config') :=
  inferInstanceAs (Decidable (_ ∧ _))

theorem keyPath_ne_of_apart {config config' : SmbStorageConfig} {key key' : Str}
    (hroot : ValidRoot config) (hroot' : ValidRoot config') (hapart : RootsApart config config')
    (hk : ValidKey key) (hk' : ValidKey key') : keyPath config key ≠ keyPath config' key' := by
  intro heq
  rw [keyPath_eq, keyPath_eq] at heq
  have hpath := intercalate_injective (plain_append (plain_rootPath hroot) (plain_of_valid hk))
    (plain_append (plain_rootPath hroot') (plain_of_valid hk')) heq
  rcases List.prefix_or_prefix_of_prefix ⟨_, rfl⟩ ⟨_, hpath.symm⟩ with hpre | hpre
  · exact hapart.1 hpre
  · exact hapart.2 hpre

section AtOnce

variable {D : Digest} {config : SmbStorageConfig} {calls : List TenantCall} {s : Server}
  {y z : Server × List TenantThread}

open Classical in
/-- Whether a path is that of a key of the backend. -/
noncomputable def ownerOf (config : SmbStorageConfig) (path : Str) : Bool :=
  decide (∃ key, ValidKey key ∧ path = keyPath config key)

theorem ownerOf_eq_true {path : Str} :
    ownerOf config path = true ↔ ∃ key, ValidKey key ∧ path = keyPath config key := by
  classical exact decide_eq_true_iff

theorem tenants_confined (hroot : ValidRoot config)
    (hcalls : ∀ call ∈ calls, call.config.rootPrefix = config.rootPrefix ∨
      ValidRoot call.config ∧ RootsApart config call.config) :
    Disciplined (tenancy (ownerOf config)) (fun _ _ => True) (calls.map (·.start D config)) := by
  intro th hth
  obtain ⟨call, hcall, rfl⟩ := List.mem_map.mp hth
  have howns : Owns (ownerOf config) (decide (call.config.rootPrefix = config.rootPrefix))
      call.config := by
    intro key hk
    rcases hcalls call hcall with hsame | ⟨hroot', hapart⟩
    · rw [decide_eq_true hsame]
      refine ownerOf_eq_true.mpr ⟨key, hk, ?_⟩
      simp only [keyPath, belowRoot, hsame]
    · have hother : call.config.rootPrefix ≠ config.rootPrefix := fun he =>
        hapart.1 (by simp only [rootPath, he, List.prefix_refl])
      rw [decide_eq_false hother, Bool.eq_false_iff]
      intro hmine
      obtain ⟨key', hk', heq⟩ := ownerOf_eq_true.mp hmine
      exact keyPath_ne_of_apart hroot hroot' hapart hk' hk heq.symm
  have hcall : Confined _ _ [] noHandles (storeCall D call.config call.uuid call.op) :=
    storeCall_confined D howns call.uuid call.op
  exact (hcall _ rfl (List.nil_subset _)).mono fun _ _ _ => trivial

theorem tenants_separate (hroot : ValidRoot config)
    (hcalls : ∀ call ∈ calls, call.config.rootPrefix = config.rootPrefix ∨
      ValidRoot call.config ∧ RootsApart config call.config)
    (hs : Orderly s) (hy : TenantsReach (s, calls.map (·.start D config)) y) :
    Disciplined (tenancy (ownerOf config)) (fun _ _ => True) y.2 ∧
      Separate (ownerOf config) y.1 (Holding (y.2.map Thread.phase)) := by
  refine Reach.invariant (D := tenancy (ownerOf config))
    (fun s qs => Separate (ownerOf config) s (Holding qs))
    (fun s s' before after q c k r hi hc _ hf => hi.step hc hf) hy
    (tenants_confined hroot hcalls) ?_
  have hnone : ∀ h t, ¬ Holding ((calls.map (·.start D config)).map Thread.phase) h t := by
    rintro h t ⟨q, hq, hh, -⟩
    simp only [List.map_map, List.mem_map] at hq
    obtain ⟨call, -, rfl⟩ := hq
    cases hh
  exact ⟨hs, fun h t hh => absurd hh (hnone h t), fun h t _ _ hh => absurd hh (hnone h t),
    fun h t _ _ _ hh => absurd hh (hnone h t)⟩

/-- Wherever the calls of all backends have got to, whatever those of the others do next, over
requests that fail, take effect without a reply and lose their handles, leaves what the keys of a
backend hold. -/
theorem tenants_isolated (D : Digest) (config : SmbStorageConfig) (hroot : ValidRoot config)
    (calls : List TenantCall)
    (hcalls : ∀ call ∈ calls, call.config.rootPrefix = config.rootPrefix ∨
      ValidRoot call.config ∧ RootsApart config call.config)
    (s : Server) (hs : Orderly s) (y : Server × List TenantThread)
    (hy : TenantsReach (s, calls.map (·.start D config)) y) (z : Server × List TenantThread)
    (hz : OthersReach y z) (key : Str) (hk : ValidKey key) (old : Option Bytes)
    (hold : KeyHolds y.1 (keyPath config key) old) : KeyHolds z.1 (keyPath config key) old := by
  obtain ⟨hconfined, hseparate⟩ := tenants_separate hroot hcalls hs hy
  refine (Reach.invariant (D := tenancy (ownerOf config))
    (fun s qs => Separate (ownerOf config) s (Holding qs) ∧ KeyHolds s (keyPath config key) old)
    (fun s s' before after q c k r hi hc hother hf => ⟨hi.1.step hc hf, ?_⟩) hz hconfined
    ⟨hseparate, hold⟩).2.2
  refine hi.1.keyHolds_step hc hf (fun howner => ?_) hi.2
  have hmine : ownerOf config (keyPath config key) = true := ownerOf_eq_true.mpr ⟨key, hk, rfl⟩
  have hother : q.tenant = false := hother
  rw [hmine, hother] at howner
  cases howner

def firstRoot : SmbStorageConfig := ⟨some "p".toList, 1⟩

def secondRoot : SmbStorageConfig := ⟨some "q".toList, 1⟩

/-- Two backends below roots of their own. -/
def sampleTenants : List TenantCall :=
  [⟨firstRoot, zeroUuid, .headBlob "k".toList⟩,
    ⟨secondRoot, zeroUuid, .putBlob "k".toList (.fromBytes [1]) ⟨none⟩⟩]

/-- One blob below the first root, and the calls before their first requests. -/
def tenantsStart : Server × List TenantThread :=
  (oneBlob (keyPath firstRoot "k".toList) [9],
    sampleTenants.map (·.start Digest.sha256 firstRoot))

/-- The put below the second root, whose rename is not answered, leaves the blob alone. -/
theorem tenants_isolated_sample : KeyHolds
    (runSchedule (I := Requests) Tenancy.next losesRenames tenantsStart (List.replicate 20 1)).1
    (keyPath firstRoot "k".toList) (some [9]) := by
  obtain ⟨horderly, hold⟩ := oneBlob_holds (keyPath firstRoot "k".toList) [9]
  refine tenants_isolated Digest.sha256 firstRoot ?_ sampleTenants ?_ _ horderly tenantsStart .refl
    _ (runSchedule_reach losesRenames_faulty ?_) "k".toList (by decide) (some [9]) hold
  · intro root hr
    obtain rfl := Option.some.inj hr
    decide
  · intro call hcall
    simp only [sampleTenants, List.mem_cons, List.not_mem_nil, or_false] at hcall
    rcases hcall with rfl | rfl
    · exact Or.inl rfl
    · refine Or.inr ⟨fun root hr => ?_, by decide⟩
      obtain rfl := Option.some.inj hr
      decide
  · decide +kernel

end AtOnce

end GraphqlOrmStorage.Smb
