import GraphqlOrmStorage.SmbProbe

/-!
# What a probe leaves on the share

The file server is given directories: a file or a directory is only made in a
directory that exists, and asking for a directory that is missing makes it. A
request may also fail for no reason, and then has no effect; it never claims
that a file is missing which is there. Against such a share a probe takes its
file away again, but the ordinary write path has made every missing directory
of the root prefix on the way, whatever the options say.
-/
namespace GraphqlOrmStorage.Smb

open Text Program Program.Prog

/-! ### A share with directories -/

/-- The directory that a path is in; the root has the empty path. -/
def directoryPath (path : Str) : Str := ((rsplitOnce '\\' path).map (·.1)).getD []

structure ShareState where
  files : Server
  dirs : Str → Bool

namespace ShareState

/-- The root is always there. -/
def isDir (v : ShareState) (path : Str) : Bool := path = [] || v.dirs path

/-- The bytes of the file that a path names. -/
def fileAt (v : ShareState) (path : Str) : Option Bytes :=
  (v.files.names path).map v.files.content

def withFiles (v : ShareState) (s : Server) : ShareState := { v with files := s }

def makeDir (v : ShareState) (path : Str) : ShareState :=
  { v with dirs := Function.update v.dirs path true }

/-- The answer of the files to one request. -/
def answerFiles (v : ShareState) (o : Choice) (c : SmbCall) : SmbCall.Reply c × ShareState :=
  ((v.files.answer o c).1, v.withFiles (v.files.answer o c).2)

/-- The answer to one request. -/
def answer (v : ShareState) (o : Choice) : (c : SmbCall) → SmbCall.Reply c × ShareState
  | .createDirectory path =>
    if v.isDir path then (.ok (.directory 0), v)
    else if (v.files.names path).isSome then (.error (statusError o .other), v)
    else if v.isDir (directoryPath path) then (.ok (.directory 0), v.makeDir path)
    else (.error (statusError o .objectPathNotFound), v)
  | .createFile path exclusive =>
    if v.isDir path then (.error (statusError o .objectNameCollision), v)
    else if v.isDir (directoryPath path) then v.answerFiles o (.createFile path exclusive)
    else (.error (statusError o .objectPathNotFound), v)
  | .openExisting path access =>
    if v.isDir path then (.ok (.directory 0), v) else v.answerFiles o (.openExisting path access)
  | .setRename h path replace =>
    if v.isDir path then (.error (statusError o .accessDenied), v)
    else if v.isDir (directoryPath path) then v.answerFiles o (.setRename h path replace)
    else (.error (statusError o .objectPathNotFound), v)
  | .reconnect => (.ok (), v)
  | c => v.answerFiles o c

end ShareState

/-- The reply says that something is missing. -/
def reportsMissing : (c : SmbCall) → SmbCall.Reply c → Bool
  | .openExisting _ _, .error (.failed e) => smbErrorKind e.cause = .remotePathNotFound
  | .reconnect, .error e => isNotFound e
  | _, _ => false

/-- A request is answered, or it fails without an effect. -/
def ShareServes (v : ShareState) (c : SmbCall) (r : SmbCall.Reply c) (v' : ShareState) : Prop :=
  (∃ o, r = (v.answer o c).1 ∧ v' = (v.answer o c).2) ∨
    (Fails c r ∧ reportsMissing c r = false ∧ v' = v)

/-- The requests of a probe: those on directories and on the connection change nothing. -/
def ProbeServes (v : ShareState) :
    (c : ProbeRequests.Call) → ProbeRequests.Reply c → ShareState → Prop
  | .inl (.inl c), r, v' => ShareServes v c r v'
  | .inl (.inr _), _, v' => v' = v
  | .inr _, _, v' => v' = v

/-- Nothing is open, and the named files are known. -/
structure Idle (s : Server) : Prop where
  closed : ∀ h, s.file h = none
  named_lt : ∀ p f, s.names p = some f → f < s.handles.length

/-- The directories of the root prefix. -/
def RootDirectory (config : SmbStorageConfig) (d : Str) : Prop :=
  ∃ q, q ≠ [] ∧ q <+: rootPath config ∧ d = ['\\'].intercalate q

/-- The same directories, and the same files with the same content. -/
def Unchanged (v v' : ShareState) : Prop :=
  (∀ d, v'.isDir d = v.isDir d) ∧ ∀ path, v'.fileAt path = v.fileAt path

section Idle

variable {s : Server} {path : Str} {h f : Handle}

/-- One handle is open, on this file, which stays when it is closed. -/
structure Busy (s : Server) (h f : Handle) : Prop where
  held : s.file h = some f
  others : ∀ k, k ≠ h → s.file k = none
  named_lt : ∀ p g, s.names p = some g → g < s.handles.length

theorem Busy.close (hb : Busy s h f) : Idle (s.close h) where
  closed k := by
    rw [s.file_close hb.held]
    split_ifs with hk
    · rfl
    · exact hb.others k hk
  named_lt p g hp := by
    rw [Server.length_close]
    exact hb.named_lt p g (Server.names_of_close hp)

theorem close_kept (hf : s.file h = some f) (hp : s.pending f = false) :
    (s.close h).names = s.names ∧ (s.close h).content = s.content := by
  rcases s.close_cases hf with ⟨hpending, _, _⟩ | ⟨_, hc⟩
  · rw [hp] at hpending
    cases hpending
  · rw [hc]
    exact ⟨rfl, rfl⟩

/-- The last handle of a marked file takes its names with it. -/
theorem Busy.close_marked (hb : Busy s h f) (hp : s.pending f = true) :
    (s.close h).names = Server.unname s.names f ∧ (s.close h).content = s.content := by
  rcases s.close_cases hb.held with ⟨_, _, hc⟩ | ⟨hnot, _⟩
  · rw [hc]
    exact ⟨rfl, rfl⟩
  · refine absurd ⟨hp, fun k hk => ?_⟩ hnot
    by_contra hne
    rw [hb.others k hne] at hk
    cases hk

theorem Idle.create (hi : Idle s) (path : Str) :
    Busy (s.create path) s.handles.length s.handles.length where
  held := by rw [Server.file_create, if_pos rfl]
  others k hk := by rw [Server.file_create, if_neg hk, hi.closed]
  named_lt p g hp := by
    rw [Server.names_create] at hp
    rw [Server.length_create]
    split_ifs at hp
    · rw [← Option.some.inj hp]
      exact Nat.lt_succ_self _
    · exact Nat.lt_succ_of_lt (hi.named_lt p g hp)

theorem Idle.openOn (hi : Idle s) (f : Handle) : Busy (s.openOn f) s.handles.length f where
  held := by rw [Server.file_openOn, if_pos rfl]
  others k hk := by rw [Server.file_openOn, if_neg hk, hi.closed]
  named_lt p g hp := by
    rw [Server.length_openOn]
    exact Nat.lt_succ_of_lt (hi.named_lt p g hp)

theorem Busy.setContent (hb : Busy s h f) (g : Handle) (b : Bytes) : Busy (s.setContent g b) h f :=
  ⟨hb.held, hb.others, hb.named_lt⟩

theorem Busy.mark (hb : Busy s h f) (g : Handle) : Busy (s.mark g) h f :=
  ⟨hb.held, hb.others, hb.named_lt⟩

theorem Busy.rename (hb : Busy s h f) (hf : f < s.handles.length) (path : Str) :
    Busy (s.rename f path) h f where
  held := hb.held
  others := hb.others
  named_lt p g hp := by
    rw [Server.names_rename] at hp
    split_ifs at hp
    · exact Option.some.inj hp ▸ hf
    · exact hb.named_lt p g hp

end Idle

/-- The content of one file is changed at most. -/
def Rewrites (v : ShareState) (f : Handle) (v' : ShareState) : Prop :=
  ∃ b, v' = v.withFiles (v.files.setContent f b)

theorem Rewrites.refl (v : ShareState) (f : Handle) : Rewrites v f v := by
  refine ⟨v.files.content f, ?_⟩
  rw [Server.setContent, Function.update_eq_self]
  rfl

theorem Rewrites.trans {v v' v'' : ShareState} {f : Handle} (h : Rewrites v f v')
    (h' : Rewrites v' f v'') : Rewrites v f v'' := by
  obtain ⟨b, rfl⟩ := h
  obtain ⟨b', rfl⟩ := h'
  exact ⟨b', by simp [ShareState.withFiles, Server.setContent]⟩

theorem Rewrites.file {v v' : ShareState} {f : Handle} (h : Rewrites v f v') (k : Handle) :
    v'.files.file k = v.files.file k := by
  obtain ⟨b, rfl⟩ := h
  rfl

/-! ### What single requests do -/

section Requests

variable {v v' : ShareState} {path : Str} {h f : Handle} {e : Failure SmbError}

@[simp] theorem ShareState.files_withFiles (v : ShareState) (s : Server) :
    (v.withFiles s).files = s := rfl

@[simp] theorem ShareState.isDir_withFiles (v : ShareState) (s : Server) (d : Str) :
    (v.withFiles s).isDir d = v.isDir d := rfl

theorem ShareState.isDir_makeDir (v : ShareState) (path d : Str) :
    (v.makeDir path).isDir d = true ↔ v.isDir d = true ∨ d = path := by
  simp only [isDir, makeDir, Function.update_apply, Bool.or_eq_true, decide_eq_true_eq]
  split_ifs with hd
  · simp [hd]
  · simp [hd]

theorem createDirectory_served {r : Except (Failure SmbError) Resource}
    (hserves : ShareServes v (.createDirectory path) r v') :
    v'.files = v.files ∧ ((∃ e, r = .error e) ∧ v' = v ∨
      (∃ resource, r = .ok resource) ∧ ∀ d, v'.isDir d = true ↔ v.isDir d = true ∨ d = path) := by
  rcases hserves with ⟨o, hr, hv⟩ | ⟨he, -, hv⟩
  · subst hr hv
    simp only [ShareState.answer]
    split_ifs with hdir hfile hparent
    · exact ⟨rfl, Or.inr ⟨⟨_, rfl⟩, fun d => by
        constructor
        · exact Or.inl
        · rintro (h | h)
          · exact h
          · exact h ▸ hdir⟩⟩
    · exact ⟨rfl, Or.inl ⟨⟨_, rfl⟩, rfl⟩⟩
    · exact ⟨rfl, Or.inr ⟨⟨_, rfl⟩, v.isDir_makeDir path⟩⟩
    · exact ⟨rfl, Or.inl ⟨⟨_, rfl⟩, rfl⟩⟩
  · subst hv
    exact ⟨rfl, Or.inl ⟨he, rfl⟩⟩

/-- The requests that change nothing, whatever the answer. -/
def Looks : SmbCall → Prop
  | .acquirePermit | .releasePermit | .closeResource _ | .queryInfo _ | .flush _
  | .readBlock _ _ _ | .reconnect => True
  | _ => False

theorem looks_served {c : SmbCall} {r : SmbCall.Reply c} (hserves : ShareServes v c r v')
    (hc : Looks c) : v' = v := by
  rcases hserves with ⟨o, -, hv⟩ | ⟨-, -, hv⟩
  · subst hv
    cases c with
    | queryInfo h =>
      simp only [ShareState.answer, ShareState.answerFiles, Server.answer]
      split <;> rfl
    | flush h =>
      simp only [ShareState.answer, ShareState.answerFiles, Server.answer]
      split <;> rfl
    | readBlock h length offset =>
      simp only [ShareState.answer, ShareState.answerFiles, Server.answer]
      split <;> rfl
    | acquirePermit => rfl
    | releasePermit => rfl
    | closeResource h => rfl
    | reconnect => rfl
    | _ => exact hc.elim
  · exact hv

theorem createFile_served {resource : Resource}
    (hserves : ShareServes v (.createFile path false) (.ok resource) v') :
    resource = .file v.files.handles.length ∧
      ((v.files.names path = none ∧ v' = v.withFiles (v.files.create path)) ∨
        ∃ g, v.files.names path = some g ∧ v.files.pending g = false ∧
          v' = v.withFiles ((v.files.setContent g []).openOn g)) := by
  rcases hserves with ⟨o, hr, hv⟩ | ⟨⟨e, he⟩, -, -⟩
  · subst hv
    simp only [ShareState.answer] at hr ⊢
    split_ifs at hr ⊢
    cases hn : v.files.names path with
    | none =>
      simp only [ShareState.answerFiles, Server.answer, hn] at hr ⊢
      exact ⟨Except.ok.inj hr, Or.inl ⟨trivial, trivial⟩⟩
    | some g =>
      simp only [ShareState.answerFiles, Server.answer, hn, Bool.false_eq_true, if_false] at hr ⊢
      split_ifs at hr ⊢ with hp
      exact ⟨Except.ok.inj hr, Or.inr ⟨g, rfl, by simpa using hp, rfl⟩⟩
  · cases he

theorem openExisting_served {access : Access} {r : Except (Failure SmbError) Resource}
    (hserves : ShareServes v (.openExisting path access) r v') :
    (∃ f, v.files.names path = some f ∧ v.files.pending f = false ∧
      r = .ok (.file v.files.handles.length) ∧ v' = v.withFiles (v.files.openOn f)) ∨
    (v' = v ∧ (∀ h, r ≠ .ok (.file h)) ∧
      (reportsMissing (.openExisting path access) r = true → v.files.names path = none)) := by
  rcases hserves with ⟨o, hr, hv⟩ | ⟨⟨e, he⟩, hnot, hv⟩
  · subst hr hv
    simp only [ShareState.answer]
    split_ifs
    · exact Or.inr ⟨rfl, by simp, by simp [reportsMissing]⟩
    · cases hn : v.files.names path with
      | none =>
        simp only [ShareState.answerFiles, Server.answer, hn]
        exact Or.inr ⟨rfl, by simp [statusError], fun _ => trivial⟩
      | some g =>
        simp only [ShareState.answerFiles, Server.answer, hn]
        split_ifs with hp
        · have hkind : reportsMissing (.openExisting path access)
              (.error (statusError o .other)) = false := rfl
          exact Or.inr ⟨rfl, by simp [statusError], fun h => Bool.noConfusion (hkind.symm.trans h)⟩
        · exact Or.inl ⟨g, rfl, by simpa using hp, rfl, rfl⟩
  · subst he hv
    exact Or.inr ⟨rfl, by simp, fun h => by simp [hnot] at h⟩

theorem close_served (hserves : ShareServes v (.close h) (.ok ()) v') :
    v' = v.withFiles (v.files.close h) := by
  rcases hserves with ⟨o, -, hv⟩ | ⟨⟨e, he⟩, -, -⟩
  · exact hv
  · cases he

theorem setDelete_served (hf : v.files.file h = some f)
    (hserves : ShareServes v (.setDelete h) (.ok ()) v') :
    v' = v.withFiles (v.files.mark f) := by
  rcases hserves with ⟨o, -, hv⟩ | ⟨⟨e, he⟩, -, -⟩
  · simp only [hv, ShareState.answer, ShareState.answerFiles, Server.answer, hf]
  · cases he

theorem setRename_served (hf : v.files.file h = some f)
    (hserves : ShareServes v (.setRename h path true) (.ok ()) v') :
    v' = v.withFiles (v.files.rename f path) := by
  rcases hserves with ⟨o, hr, hv⟩ | ⟨⟨e, he⟩, -, -⟩
  · simp only [ShareState.answer] at hr hv
    split_ifs at hr hv
    cases hn : v.files.names path with
    | none =>
      simp only [ShareState.answerFiles, Server.answer, hf, hn] at hv
      exact hv
    | some g =>
      simp only [ShareState.answerFiles, Server.answer, hf, hn, Bool.true_eq_false, if_false]
        at hr hv
      split_ifs at hr hv
      exact hv
  · cases he

theorem writeBlock_served {bytes : Bytes} {offset : ℕ} {r : Except (Failure IoError) ℕ}
    (hf : v.files.file h = some f) (hserves : ShareServes v (.writeBlock h bytes offset) r v') :
    Rewrites v f v' := by
  rcases hserves with ⟨o, -, hv⟩ | ⟨-, -, hv⟩
  · simp only [ShareState.answer, ShareState.answerFiles, Server.answer, hf] at hv
    split_ifs at hv
    · exact hv ▸ .refl v f
    · split at hv
      · exact ⟨_, hv⟩
      · exact ⟨_, hv⟩
  · exact hv ▸ .refl v f

end Requests

/-! ### What the parts of a probe do -/

section Stages

variable {α : Type} {v v' : ShareState} {log : List (Sigma Requests.Reply)}
  {config : SmbStorageConfig} {key : Str} {h f : Handle}

theorem runsIn_request {c : SmbCall} {k : SmbCall.Reply c → SmbM α} {a : α} :
    RunsIn ShareServes v ((request c).bind k) log v' a ↔ ∃ r v₁ rest, log = ⟨c, r⟩ :: rest ∧
      ShareServes v c r v₁ ∧ RunsIn ShareServes v₁ (k r) rest v' a := runsIn_call

/-- Directories that are asked for one below the other are all there afterwards. -/
theorem ensureSegments_served {done segments : Path} (hplain : Plain (done ++ segments))
    (hrun : RunsIn ShareServes v (ensureSegments (joinPath done) segments) log v' (.ok ())) :
    v'.files = v.files ∧ ∀ d, v'.isDir d = true ↔ v.isDir d = true ∨
      ∃ q, q ≠ [] ∧ q <+: segments ∧ d = ['\\'].intercalate (done ++ q) := by
  induction segments generalizing done v log with
  | nil =>
    obtain ⟨-, hv, -⟩ := runsIn_ret.mp hrun
    subst hv
    simp
  | cons segment rest ih =>
    have hdone : Plain done := fun c hc => hplain c (List.mem_append_left _ hc)
    have hsegment := hplain segment (by simp)
    have hnext : Plain (done ++ [segment]) := fun c hc => hplain c (by
      simp only [List.mem_append, List.mem_cons, List.not_mem_nil, or_false] at hc ⊢
      tauto)
    have hcurrent : (if joinPath done = [] then segment else joinPath done ++ '/' :: segment) =
        joinPath (done ++ [segment]) := childPath_joinPath hdone hsegment.2.1
    have hpath : replaceChar '/' '\\' (joinPath (done ++ [segment])) =
        ['\\'].intercalate (done ++ [segment]) :=
      replaceChar_joinPath fun c hc => (hnext c hc).2.1
    obtain ⟨r, v₁, log₁, -, hserves, hrun⟩ := runsIn_request.mp hrun
    obtain ⟨hfiles, hdirs⟩ := createDirectory_served hserves
    rw [hcurrent, hpath] at hdirs
    rcases hdirs with ⟨⟨e, he⟩, -⟩ | ⟨⟨resource, hresource⟩, hdirs⟩
    · subst he
      cases e <;> cases (runsIn_ret.mp hrun).2.2
    · subst hresource
      obtain ⟨closed, v₂, log₂, -, hclose, hrun⟩ := runsIn_request.mp hrun
      obtain rfl := looks_served hclose trivial
      cases closed with
      | error e => cases (runsIn_ret.mp hrun).2.2
      | ok _ =>
        rw [hcurrent] at hrun
        obtain ⟨hfiles', hdirs'⟩ := ih (by simpa using hplain) hrun
        refine ⟨hfiles'.trans hfiles, fun d => ?_⟩
        rw [hdirs', hdirs, or_assoc]
        refine or_congr_right ?_
        constructor
        · rintro (hd | ⟨q, hq, hbegins, hd⟩)
          · exact ⟨[segment], by simp, by simp, hd⟩
          · exact ⟨segment :: q, by simp, by simpa using hbegins, by simpa using hd⟩
        · rintro ⟨q, hq, hbegins, hd⟩
          cases q with
          | nil => exact absurd rfl hq
          | cons c q =>
            obtain ⟨hc, hrest⟩ := List.cons_prefix_cons.mp hbegins
            subst hc
            cases q with
            | nil => exact Or.inl hd
            | cons c' q => exact Or.inr ⟨c' :: q, by simp, hrest, by simpa using hd⟩

/-- The parent of a key of one part is the root prefix. -/
theorem ensureParentDirectories_served (hroot : ValidRoot config) (hk : ValidKey key)
    (hflat : '/' ∉ key)
    (hrun : RunsIn ShareServes v (ensureParentDirectories config key) log v' (.ok ())) :
    v'.files = v.files ∧
      ∀ d, v'.isDir d = true ↔ v.isDir d = true ∨ RootDirectory config d := by
  simp only [ensureParentDirectories, mappedKey_of_valid config hk] at hrun
  cases hr : config.rootPrefix with
  | none =>
    have hsplit : rsplitOnce '/' (belowRoot config key) = none := by
      simp only [belowRoot, hr]
      exact rsplitOnce_eq_none.mpr hflat
    simp only [hsplit] at hrun
    obtain ⟨-, hv, -⟩ := runsIn_ret.mp hrun
    subst hv
    simp [RootDirectory, rootPath, hr]
  | some root =>
    have hsplit : rsplitOnce '/' (belowRoot config key) = some (root, key) := by
      simp only [belowRoot, hr]
      exact rsplitOnce_eq_some.mpr ⟨rfl, hflat⟩
    have hpath : rootPath config = root.splitOn '/' := by
      simp only [rootPath, hr]
    simp only [hsplit] at hrun
    have hplain : Plain ([] ++ root.splitOn '/') := hpath ▸ plain_rootPath hroot
    have hmade := ensureSegments_served hplain hrun
    simpa only [RootDirectory, hpath, List.nil_append] using hmade

theorem expectFile_served {operation message : Str} {resource : Resource}
    {result : Except StorageError Handle}
    (hrun : RunsIn ShareServes v (expectFile operation message resource) log v' result) :
    v' = v ∧ ((∃ h, resource = .file h ∧ result = .ok h) ∨
      (∀ h, resource ≠ .file h) ∧ ∃ e, result = .error e ∧ isNotFound e = false) := by
  cases resource with
  | file h =>
    obtain ⟨-, hv, hresult⟩ := runsIn_ret.mp hrun
    exact ⟨hv, Or.inl ⟨h, rfl, hresult⟩⟩
  | directory h =>
    obtain ⟨_, v₁, _, -, hclose, hrest⟩ := runsIn_request.mp hrun
    obtain rfl := looks_served hclose trivial
    obtain ⟨-, hv, hresult⟩ := runsIn_ret.mp hrest
    exact ⟨hv, Or.inr ⟨by simp, _, hresult, rfl⟩⟩
  | pipe h =>
    obtain ⟨_, v₁, _, -, hclose, hrest⟩ := runsIn_request.mp hrun
    obtain rfl := looks_served hclose trivial
    obtain ⟨-, hv, hresult⟩ := runsIn_ret.mp hrest
    exact ⟨hv, Or.inr ⟨by simp, _, hresult, rfl⟩⟩

/-- An open that ends with "not found" was answered so. -/
theorem openExisting_missing {path : Str} {access : Access} {failure : Failure SmbError}
    (hserves : ShareServes v (.openExisting path access) (.error failure) v') :
    v' = v ∧ ∃ e, withTimeout "open".toList (.error failure : Except _ Resource) = .error e ∧
      (isNotFound e = true → v.files.names path = none) := by
  rcases openExisting_served hserves with ⟨f, -, -, hr, -⟩ | ⟨hv, -, hmissing⟩
  · cases hr
  · refine ⟨hv, ?_⟩
    cases failure with
    | timedOut => exact ⟨_, rfl, fun h => by cases h⟩
    | failed e =>
      refine ⟨_, rfl, fun h => hmissing ?_⟩
      simp only [mapSmbError, remoteError, isNotFound] at h
      split at h
      · rename_i heq
        simp only [StorageError.remoteProvider.injEq] at heq
        exact decide_eq_true heq.2.1
      · cases h

theorem reconnect_served {r : Except StorageError Unit} (hserves : ShareServes v .reconnect r v') :
    v' = v ∧ ∀ e, r = .error e → isNotFound e = false := by
  refine ⟨looks_served hserves trivial, ?_⟩
  rcases hserves with ⟨o, hr, -⟩ | ⟨-, hnot, -⟩
  · subst hr
    intro e he
    cases he
  · intro e he
    subst he
    exact hnot

/-- Opening a file: it is there, or nothing happens; only a file that is not there is reported as
missing. -/
theorem openFile_served (hk : ValidKey key) {access : Access} {result : Except StorageError Handle}
    (hrun : RunsIn ShareServes v (openFile config key access) log v' result) :
    (∃ f, v.files.names (keyPath config key) = some f ∧ v.files.pending f = false ∧
      result = .ok v.files.handles.length ∧ v' = v.withFiles (v.files.openOn f)) ∨
    v' = v ∧ ∃ e, result = .error e ∧
      (isNotFound e = true → v.files.names (keyPath config key) = none) := by
  have hexpect : ∀ {resource v₁ log}, ShareServes v
      (.openExisting (keyPath config key) access) (.ok resource) v₁ →
      RunsIn ShareServes v₁ (expectFile "open".toList "remote key is not a file".toList resource)
        log v' result →
      (∃ f, v.files.names (keyPath config key) = some f ∧ v.files.pending f = false ∧
        result = .ok v.files.handles.length ∧ v' = v.withFiles (v.files.openOn f)) ∨
      v' = v ∧ ∃ e, result = .error e ∧
        (isNotFound e = true → v.files.names (keyPath config key) = none) := by
    intro resource v₁ log hserves hrest
    obtain ⟨hv', hresult⟩ := expectFile_served hrest
    rcases openExisting_served hserves with ⟨f, hn, hp, hr, hv⟩ | ⟨hv, hnot, -⟩
    · obtain rfl := Except.ok.inj hr
      rcases hresult with ⟨h, hh, hresult⟩ | ⟨hno, -⟩
      · obtain rfl := Resource.file.inj hh
        exact Or.inl ⟨f, hn, hp, hresult, hv'.trans hv⟩
      · exact absurd rfl (hno _)
    · rcases hresult with ⟨h, hh, -⟩ | ⟨-, e, hresult, hfound⟩
      · exact absurd (hh ▸ rfl) (hnot h)
      · exact Or.inr ⟨hv'.trans hv, e, hresult, fun h => by simp [hfound] at h⟩
  simp only [openFile, remotePath_of_valid config hk] at hrun
  obtain ⟨r, v₁, log₁, -, hserves, hrest⟩ := runsIn_request.mp hrun
  cases r with
  | ok resource => exact hexpect hserves hrest
  | error failure =>
    obtain ⟨hv, e, he, hfound⟩ := openExisting_missing hserves
    subst hv
    simp only [he] at hrest
    split_ifs at hrest
    · obtain ⟨reconnected, v₂, log₂, -, hreconnect, hrest⟩ := runsIn_request.mp hrest
      obtain ⟨hv, hnot⟩ := reconnect_served hreconnect
      subst hv
      cases reconnected with
      | error e' =>
        obtain ⟨-, hv, hresult⟩ := runsIn_ret.mp hrest
        exact Or.inr ⟨hv, e', hresult, fun h => by simp [hnot e' rfl] at h⟩
      | ok _ =>
        obtain ⟨r', v₃, log₃, -, hserves', hagain⟩ := runsIn_request.mp hrest
        cases r' with
        | ok resource => exact hexpect hserves' hagain
        | error failure' =>
          obtain ⟨hv, e', he', hfound'⟩ := openExisting_missing hserves'
          subst hv
          simp only [he'] at hagain
          obtain ⟨-, hv, hresult⟩ := runsIn_ret.mp hagain
          exact Or.inr ⟨hv, e', hresult, hfound'⟩
    · obtain ⟨-, hv, hresult⟩ := runsIn_ret.mp hrest
      exact Or.inr ⟨hv, e, hresult, hfound⟩

/-- Writing a chunk changes the content of its file. -/
theorem writeBlocks_served {fuel : ℕ} {bytes : Bytes} {offset : ℕ} {result : Except StorageError ℕ}
    (hf : v.files.file h = some f)
    (hrun : RunsIn ShareServes v (writeBlocks h fuel bytes offset) log v' result) :
    Rewrites v f v' := by
  induction fuel generalizing bytes offset v log with
  | zero => exact (runsIn_ret.mp hrun).2.1 ▸ .refl v f
  | succ fuel ih =>
    cases bytes with
    | nil => exact (runsIn_ret.mp hrun).2.1 ▸ .refl v f
    | cons b bytes =>
      obtain ⟨r, v₁, log₁, -, hserves, hrest⟩ := runsIn_request.mp hrun
      have hfirst := writeBlock_served hf hserves
      rcases r with (_ | _) | (_ | count)
      · exact (runsIn_ret.mp hrest).2.1 ▸ hfirst
      · exact (runsIn_ret.mp hrest).2.1 ▸ hfirst
      · exact (runsIn_ret.mp hrest).2.1 ▸ hfirst
      · exact hfirst.trans (ih ((hfirst.file h).trans hf) hrest)

theorem writeChunks_served {D : Digest} {fuel : ℕ} {chunks : List (Except StorageError Bytes)}
    {hasher : D.Hasher} {offset : ℕ} {result : Except StorageError (D.Hasher × ℕ)}
    {source : BodySource} (hf : v.files.file h = some f)
    (hrun : RunsIn ShareServes v (writeChunks D h fuel (.external chunks) hasher offset) log v'
      (result, source)) : Rewrites v f v' ∧ ∃ rest, source = .external rest := by
  induction fuel generalizing chunks hasher offset v log with
  | zero =>
    obtain ⟨-, hv, hresult⟩ := runsIn_ret.mp hrun
    exact ⟨hv ▸ .refl v f, _, (Prod.mk.inj hresult).2⟩
  | succ fuel ih =>
    cases chunks with
    | nil =>
      obtain ⟨-, hv, hresult⟩ := runsIn_ret.mp hrun
      exact ⟨hv ▸ .refl v f, _, (Prod.mk.inj hresult).2⟩
    | cons chunk rest =>
      cases chunk with
      | error e =>
        obtain ⟨-, hv, hresult⟩ := runsIn_ret.mp hrun
        exact ⟨hv ▸ .refl v f, _, (Prod.mk.inj hresult).2⟩
      | ok chunk =>
        have hblocks : RunsIn ShareServes v ((writeBlocks h chunk.length chunk offset).bind _)
          log v' (result, source) := hrun
        obtain ⟨log₁, v₁, written, log₂, -, hblocks, hrest⟩ := runsIn_bind.mp hblocks
        have hfirst := writeBlocks_served hf hblocks
        cases written with
        | error e =>
          obtain ⟨-, hv, hresult⟩ := runsIn_ret.mp hrest
          exact ⟨hv ▸ hfirst, _, (Prod.mk.inj hresult).2⟩
        | ok n =>
          obtain ⟨hsecond, hsource⟩ := ih ((hfirst.file h).trans hf) hrest
          exact ⟨hfirst.trans hsecond, hsource⟩

/-- A file that is filled without an error is written and closed. -/
theorem fillFile_served {D : Digest} {chunks : List (Except StorageError Bytes)}
    {outcome : BlobWriteOutcome} {source : BodySource} (hf : v.files.file h = some f)
    (hrun : RunsIn ShareServes v (fillFile D config key h (.external chunks)) log v'
      (.ok outcome, source)) :
    (∃ v₁, Rewrites v f v₁ ∧ v' = v₁.withFiles (v₁.files.close h)) ∧
      ∃ rest, source = .external rest := by
  obtain ⟨log₁, v₁, ⟨written, source'⟩, log₂, -, hchunks, hrest⟩ := runsIn_bind.mp hrun
  obtain ⟨hfirst, hsource⟩ := writeChunks_served hf hchunks
  cases written with
  | error e =>
    obtain ⟨_, _, _, _, -, -, hend⟩ := runsIn_bind.mp hrest
    cases (runsIn_ret.mp hend).2.2
  | ok written =>
    obtain ⟨flushed, v₂, log₃, -, hflush, hrest⟩ := runsIn_request.mp hrest
    have hv₂ := looks_served hflush trivial
    cases flushed with
    | error failure =>
      cases failure <;>
      · obtain ⟨_, _, _, _, -, -, hend⟩ := runsIn_bind.mp hrest
        cases (runsIn_ret.mp hend).2.2
    | ok _ =>
      obtain ⟨closed, v₃, log₄, -, hclose, hrest⟩ := runsIn_request.mp hrest
      cases closed with
      | ok _ =>
        have hv₃ := close_served hclose
        obtain ⟨-, hv, hresult⟩ := runsIn_ret.mp hrest
        exact ⟨⟨v₁, hfirst, by rw [hv, hv₃, hv₂]⟩, (Prod.mk.inj hresult).2 ▸ hsource⟩
      | error failure =>
        have hremove : ∀ {e v log}, RunsIn ShareServes v ((removeFile config key).bind fun _ =>
            .ret ((.error e, source') : Except StorageError BlobWriteOutcome × BodySource)) log v'
            (.ok outcome, source) → False := by
          intro e v log h
          obtain ⟨_, _, _, _, -, -, hend⟩ := runsIn_bind.mp h
          cases (runsIn_ret.mp hend).2.2
        cases failure <;>
        · simp only [withTimeout] at hrest
          split_ifs at hrest
          · obtain ⟨_, _, _, -, -, hrest⟩ := runsIn_request.mp hrest
            exact (hremove hrest).elim
          · exact (hremove hrest).elim

/-- What an upload to this path makes of the files: the path names the file that was written, and
unless there was one before, it is a new one and no other name changes. -/
structure Uploaded (s s' : Server) (path : Str) (f : Handle) : Prop where
  idle : Idle s'
  named : s'.names path = some f
  fresh : s.names path = none →
    s.handles.length ≤ f ∧ ∀ p, p ≠ path → s'.names p = s.names p
  content : ∀ g, g ≠ f → s'.content g = s.content g

/-- Filling the file behind the only open handle. -/
theorem fillFile_uploaded {D : Digest} {chunks : List (Except StorageError Bytes)}
    {outcome : BlobWriteOutcome} {source : BodySource}
    (hb : Busy v.files h f) (hp : v.files.pending f = false)
    (hrun : RunsIn ShareServes v (fillFile D config key h (.external chunks)) log v'
      (.ok outcome, source)) :
    (∃ rest, source = .external rest) ∧ v'.isDir = v.isDir ∧ Idle v'.files ∧
      v'.files.names = v.files.names ∧ ∀ g, g ≠ f → v'.files.content g = v.files.content g := by
  obtain ⟨⟨v₁, ⟨b, hv₁⟩, hv⟩, hsource⟩ := fillFile_served hb.held hrun
  subst hv₁ hv
  have hb' := hb.setContent f b
  obtain ⟨hnames, hcontent⟩ := close_kept hb'.held hp
  refine ⟨hsource, rfl, hb'.close, hnames, fun g hg => ?_⟩
  exact (congrFun hcontent g).trans (Function.update_of_ne hg _ _)

theorem createAndFill_served {D : Digest} {chunks : List (Except StorageError Bytes)}
    {outcome : BlobWriteOutcome} {source : BodySource} (hroot : ValidRoot config)
    (hk : ValidKey key) (hflat : '/' ∉ key) (hi : Idle v.files)
    (hrun : RunsIn ShareServes v (createAndFill D config key (.external chunks) false) log v'
      (.ok outcome, source)) :
    (∃ rest, source = .external rest) ∧
      (∃ f, Uploaded v.files v'.files (keyPath config key) f) ∧
      ∀ d, v'.isDir d = true ↔ v.isDir d = true ∨ RootDirectory config d := by
  obtain ⟨_, v₁, ensured, _, -, hensure, hrest⟩ := runsIn_bind.mp hrun
  cases ensured with
  | error e => cases (runsIn_ret.mp hrest).2.2
  | ok _ =>
    obtain ⟨hfiles, hdirs⟩ := ensureParentDirectories_served hroot hk hflat hensure
    simp only [remotePath_of_valid config hk] at hrest
    obtain ⟨created, v₂, _, -, hcreate, hrest⟩ := runsIn_request.mp hrest
    cases created with
    | error failure => cases failure <;> cases (runsIn_ret.mp hrest).2.2
    | ok resource =>
      obtain ⟨hresource, hcase⟩ := createFile_served hcreate
      rw [hfiles] at hresource hcase
      subst hresource
      obtain ⟨_, v₃, opened, _, -, hexpect, hfill⟩ := runsIn_bind.mp hrest
      obtain ⟨-, hv, hopened⟩ := runsIn_ret.mp hexpect
      subst hv hopened
      rcases hcase with ⟨hnone, hv⟩ | ⟨g, hsome, hp, hv⟩
      · subst hv
        have hb := hi.create (keyPath config key)
        obtain ⟨hsource, hsame, hidle, hnames, hcontent⟩ :=
          fillFile_uploaded hb (Function.update_self ..) hfill
        refine ⟨hsource, ⟨_, hidle, ?_, fun _ => ⟨le_refl _, fun p hne => ?_⟩, fun g hg => ?_⟩, ?_⟩
        · rw [hnames, ShareState.files_withFiles, Server.names_create, if_pos rfl]
        · rw [hnames, ShareState.files_withFiles, Server.names_create, if_neg hne]
        · exact (hcontent g hg).trans (Function.update_of_ne hg _ _)
        · intro d
          rw [hsame, ShareState.isDir_withFiles]
          exact hdirs d
      · subst hv
        have hb := (hi.openOn g).setContent g []
        obtain ⟨hsource, hsame, hidle, hnames, hcontent⟩ := fillFile_uploaded
          (v := v₁.withFiles ((v.files.setContent g []).openOn g)) hb hp hfill
        refine ⟨hsource, ⟨g, hidle, ?_, fun hnone => ?_, fun k hk => ?_⟩, ?_⟩
        · rw [hnames]
          exact hsome
        · rw [hnone] at hsome
          cases hsome
        · exact (hcontent k hk).trans (Function.update_of_ne hk _ _)
        · intro d
          rw [hsame, ShareState.isDir_withFiles]
          exact hdirs d

theorem writeFile_served {D : Digest} {chunks : List (Except StorageError Bytes)}
    {outcome : BlobWriteOutcome} (hroot : ValidRoot config) (hk : ValidKey key) (hflat : '/' ∉ key)
    (hi : Idle v.files)
    (hrun : RunsIn ShareServes v (writeFile D config key (.external chunks) false) log v'
      (.ok outcome)) :
    (∃ f, Uploaded v.files v'.files (keyPath config key) f) ∧
      ∀ d, v'.isDir d = true ↔ v.isDir d = true ∨ RootDirectory config d := by
  obtain ⟨_, v₁, permit, _, -, hpermit, hrest⟩ := runsIn_bind.mp hrun
  obtain ⟨admitted, v₂, _, -, hacquire, hpermit⟩ := runsIn_request.mp hpermit
  obtain rfl := looks_served hacquire trivial
  cases admitted with
  | false =>
    obtain ⟨-, -, hresult⟩ := runsIn_ret.mp hpermit
    subst hresult
    cases (runsIn_ret.mp hrest).2.2
  | true =>
    obtain ⟨-, hv, hresult⟩ := runsIn_ret.mp hpermit
    subst hv hresult
    obtain ⟨_, v₃, ⟨result, source⟩, _, -, hfill, hrest⟩ := runsIn_bind.mp hrest
    obtain ⟨_, v₄, _, _, -, hdrop, hrest⟩ := runsIn_bind.mp hrest
    obtain ⟨_, v₅, _, -, hrelease, hend⟩ := runsIn_request.mp hrest
    obtain ⟨-, hv, hresult⟩ := runsIn_ret.mp hend
    subst hresult
    obtain ⟨⟨rest, hsource⟩, huploaded, hdirs⟩ := createAndFill_served hroot hk hflat hi hfill
    subst hsource
    have hv₄ : v₄ = v₃ := (runsIn_ret.mp hdrop).2.1
    have hv₅ := looks_served hrelease trivial
    subst hv hv₄ hv₅
    exact ⟨huploaded, hdirs⟩

theorem andThen_eq_ok {operation operation' : Str} {r r' : Except (Failure SmbError) Unit}
    (h : andThen (withTimeout operation r) (withTimeout operation' r') = .ok ()) :
    r = .ok () ∧ r' = .ok () := by
  rcases r with (_ | _) | _
  · cases h
  · cases h
  · rcases r' with (_ | _) | _
    · cases h
    · cases h
    · exact ⟨rfl, rfl⟩

theorem rename_served {src dst : Str} (hroot : ValidRoot config) (hsrc : ValidKey src)
    (hdst : ValidKey dst) (hflat : '/' ∉ dst) (hi : Idle v.files)
    (hn : v.files.names (keyPath config src) = some f)
    (hrun : RunsIn ShareServes v (rename config src dst true) log v' (.ok ())) :
    (∀ d, v'.isDir d = true ↔ v.isDir d = true ∨ RootDirectory config d) ∧ Idle v'.files ∧
      v'.files.names = (v.files.rename f (keyPath config dst)).names ∧
      v'.files.content = v.files.content := by
  obtain ⟨_, v₁, ensured, _, -, hensure, hrest⟩ := runsIn_bind.mp hrun
  cases ensured with
  | error e => cases (runsIn_ret.mp hrest).2.2
  | ok _ =>
    obtain ⟨hfiles, hdirs⟩ := ensureParentDirectories_served hroot hdst hflat hensure
    obtain ⟨_, v₂, opened, _, -, hopen, hrest⟩ := runsIn_bind.mp hrest
    rcases openFile_served hsrc hopen with ⟨g, hg, hp, hopened, hv₂⟩ | ⟨-, e, hopened, -⟩
    · rw [hfiles] at hg hp hopened hv₂
      obtain rfl := Option.some.inj (hn.symm.trans hg)
      subst hopened hv₂
      simp only [mappedKey_of_valid config hdst] at hrest
      obtain ⟨renamed, v₃, _, -, hrename, hrest⟩ := runsIn_request.mp hrest
      obtain ⟨closed, v₄, _, -, hclose, hend⟩ := runsIn_request.mp hrest
      obtain ⟨-, hv, hresult⟩ := runsIn_ret.mp hend
      obtain ⟨hr, hc⟩ := andThen_eq_ok hresult.symm
      subst hr hc
      have hb := hi.openOn f
      have hv₃ := setRename_served hb.held hrename
      subst hv₃
      have hv₄ := close_served hclose
      subst hv hv₄
      have hlt : f < (v.files.openOn f).handles.length := hb.named_lt _ f hn
      have hb' := hb.rename hlt (keyPath config dst)
      obtain ⟨hnames, hcontent⟩ := close_kept hb'.held hp
      exact ⟨hdirs, hb'.close, hnames, hcontent⟩
    · subst hopened
      cases (runsIn_ret.mp hrest).2.2

/-- A key of one part has a temporary key of one part. -/
theorem tempBeside_flat (uuid : Uuid) (hflat : '/' ∉ key) : '/' ∉ tempBeside uuid key := by
  have hu : '/' ∉ uuid.toStr := uuid.not_mem_toStr (by decide)
  have hs : '/' ∉ tempSuffix := by decide
  simp only [tempBeside, rsplitOnce_eq_none.mpr hflat, Option.getD_none, if_true, tempName]
  simp [hflat, hu, hs]

/-- What a completed upload of a key of one part makes of the share. -/
theorem putBlob_served {D : Digest} {uuid : Uuid} {chunks : List (Except StorageError Bytes)}
    {outcome : BlobWriteOutcome} (hroot : ValidRoot config) (hk : ValidKey key) (hflat : '/' ∉ key)
    (hi : Idle v.files)
    (hrun : RunsIn ShareServes v (putBlob D config uuid key (.external chunks)) log v'
      (.ok outcome)) :
    (∀ d, v'.isDir d = true ↔ v.isDir d = true ∨ RootDirectory config d) ∧ Idle v'.files ∧
      v'.files.names (keyPath config (tempBeside uuid key)) = none ∧
      ∃ f, v'.files.names (keyPath config key) = some f ∧
        (v.files.names (keyPath config (tempBeside uuid key)) = none →
          v.files.handles.length ≤ f ∧
            ∀ p, p ≠ keyPath config key → v'.files.names p = v.files.names p) ∧
        ∀ g, g ≠ f → v'.files.content g = v.files.content g := by
  simp only [putBlob, validateBlobKey_eq_ok.mpr hk, tempKey_of_valid uuid hk] at hrun
  -- Giving up ends with an error.
  have hgiveUp : ∀ {e : StorageError} {v log}, RunsIn ShareServes v (do
        if e.isRetryable then
          let _ ← request .reconnect
        let _ ← removeFile config (tempBeside uuid key)
        return (.error e : Except StorageError BlobWriteOutcome)) log v' (.ok outcome) → False := by
    intro e v log h
    have hremove : ∀ {v log}, RunsIn ShareServes v ((removeFile config (tempBeside uuid key)).bind
        fun _ => .ret (.error e : Except StorageError BlobWriteOutcome)) log v' (.ok outcome) →
        False := by
      intro v log h
      obtain ⟨_, _, _, _, -, -, hend⟩ := runsIn_bind.mp h
      cases (runsIn_ret.mp hend).2.2
    simp only at h
    split_ifs at h
    · obtain ⟨_, _, _, -, -, h⟩ := runsIn_request.mp h
      exact hremove h
    · exact hremove h
  obtain ⟨_, v₁, written, _, -, hwrite, hrest⟩ := runsIn_bind.mp hrun
  cases written with
  | error e => exact (hgiveUp hrest).elim
  | ok written =>
    obtain ⟨_, v₂, renamed, _, -, hrename, hrest⟩ := runsIn_bind.mp hrest
    cases renamed with
    | error e => exact (hgiveUp hrest).elim
    | ok _ =>
      obtain ⟨-, hv, -⟩ := runsIn_ret.mp hrest
      subst hv
      have htemp := validKey_tempBeside uuid hk
      obtain ⟨⟨f, hup⟩, hdirs⟩ :=
        writeFile_served hroot htemp (tempBeside_flat uuid hflat) hi hwrite
      obtain ⟨hdirs', hidle, hnames, hcontent⟩ :=
        rename_served hroot htemp hk hflat hup.idle hup.named hrename
      refine ⟨fun d => ?_, hidle, ?_, f, ?_, fun hnone => ?_, fun g hg => ?_⟩
      · rw [hdirs', hdirs]
        tauto
      · rw [hnames, Server.names_rename, if_neg (tempPath_ne config uuid key), if_pos hup.named]
      · rw [hnames, Server.names_rename, if_pos rfl]
      · obtain ⟨hle, hother⟩ := hup.fresh hnone
        refine ⟨hle, fun p hp => ?_⟩
        rw [hnames, Server.names_rename, if_neg hp]
        by_cases hpt : p = keyPath config (tempBeside uuid key)
        · rw [hpt, if_pos hup.named, hnone]
        · rw [hother p hpt, if_neg]
          intro hpf
          exact absurd (hi.named_lt p f hpf) (not_lt.mpr hle)
      · rw [hcontent, hup.content g hg]

/-- Collecting a body to its end closes its file. -/
theorem collectBody_served {fuel offset size : ℕ} {bytes b : Bytes} (hsize : size ≤ u64Max)
    (hfuel : size - offset < fuel)
    (hrun : RunsIn ShareServes v (collectBody fuel (.blob h offset size) bytes) log v' (.ok b)) :
    v' = v.withFiles (v.files.close h) := by
  induction fuel generalizing offset bytes v log with
  | zero => omega
  | succ fuel ih =>
    obtain ⟨_, v₁, ⟨item, source⟩, _, -, hnext, hrest⟩ := runsIn_bind.mp hrun
    have herror : ∀ {e : StorageError} {v log}, RunsIn ShareServes v (BodySource.finished.drop.bind
        fun _ => .ret (.error e : Except StorageError Bytes)) log v' (.ok b) → False := by
      intro e v log h
      obtain ⟨_, _, _, _, -, -, hend⟩ := runsIn_bind.mp h
      cases (runsIn_ret.mp hend).2.2
    simp only [BodySource.next] at hnext
    split_ifs at hnext with hle
    · obtain ⟨closed, v₂, _, -, hclose, hnext⟩ := runsIn_request.mp hnext
      cases closed with
      | error failure =>
        cases failure <;>
        · obtain ⟨_, _, _, -, -, hnext⟩ := runsIn_request.mp hnext
          obtain ⟨-, -, hitem⟩ := runsIn_ret.mp hnext
          obtain ⟨rfl, rfl⟩ := Prod.mk.inj hitem
          exact (herror hrest).elim
      | ok _ =>
        have hv₂ := close_served hclose
        obtain ⟨_, v₃, _, -, hrelease, hend⟩ := runsIn_request.mp hnext
        have hv₃ := looks_served hrelease trivial
        obtain ⟨-, hv₁, hitem⟩ := runsIn_ret.mp hend
        obtain ⟨rfl, rfl⟩ := Prod.mk.inj hitem
        obtain ⟨_, v₄, _, _, -, hdrop, hend⟩ := runsIn_bind.mp hrest
        have hv₄ : v₄ = v₁ := (runsIn_ret.mp hdrop).2.1
        have hv : v' = v₄ := (runsIn_ret.mp hend).2.1
        rw [hv, hv₄, hv₁, hv₃, hv₂]
    · obtain ⟨reply, v₂, _, -, hread, hnext⟩ := runsIn_request.mp hnext
      have hv₂ := looks_served hread trivial
      subst hv₂
      have hlost : ∀ {e : StorageError} {v log}, RunsIn ShareServes v
          ((request (.dropFile h)).bind fun _ => (request .releasePermit).bind fun _ =>
            .ret (some (.error e), BodySource.finished)) log v₁ (item, source) → False := by
        intro e v log hlost
        obtain ⟨_, _, _, -, -, hlost⟩ := runsIn_request.mp hlost
        obtain ⟨_, _, _, -, -, hlost⟩ := runsIn_request.mp hlost
        obtain ⟨-, -, hitem⟩ := runsIn_ret.mp hlost
        obtain ⟨rfl, rfl⟩ := Prod.mk.inj hitem
        exact herror hrest
      rcases reply with (_ | _) | (_ | ⟨c, chunk⟩)
      · exact (hlost hnext).elim
      · exact (hlost hnext).elim
      · exact (hlost hnext).elim
      · obtain ⟨-, hv₁, hitem⟩ := runsIn_ret.mp hnext
        obtain ⟨rfl, rfl⟩ := Prod.mk.inj hitem
        subst hv₁
        refine ih ?_ hrest
        simp only [saturatingAdd, List.length_cons]
        omega

/-- What a completed read leaves: the files as they were, and nothing open. -/
theorem readBlob_served {b : Bytes} (hk : ValidKey key) (hi : Idle v.files)
    (hrun : RunsIn ShareServes v (readBlob config key) log v' (.ok b)) :
    v'.isDir = v.isDir ∧ Idle v'.files ∧ v'.files.names = v.files.names ∧
      v'.files.content = v.files.content := by
  obtain ⟨_, v₁, opened, _, -, hget, hrest⟩ := runsIn_bind.mp hrun
  cases opened with
  | error e => cases (runsIn_ret.mp hrest).2.2
  | ok blob =>
    simp only [getBlob, validateBlobKey_eq_ok.mpr hk] at hget
    obtain ⟨_, v₂, permit, _, -, hpermit, hget⟩ := runsIn_bind.mp hget
    obtain ⟨admitted, v₃, _, -, hacquire, hpermit⟩ := runsIn_request.mp hpermit
    obtain rfl := looks_served hacquire trivial
    cases admitted with
    | false =>
      obtain ⟨-, -, hresult⟩ := runsIn_ret.mp hpermit
      subst hresult
      cases (runsIn_ret.mp hget).2.2
    | true =>
      obtain ⟨-, hv₂, hresult⟩ := runsIn_ret.mp hpermit
      subst hv₂ hresult
      obtain ⟨_, v₃, opened, _, -, hopen, hget⟩ := runsIn_bind.mp hget
      rcases openFile_served hk hopen with ⟨f, hn, hp, hopened, hv₃⟩ | ⟨-, e, hopened, -⟩
      · subst hopened hv₃
        obtain ⟨reply, v₄, _, -, hquery, hget⟩ := runsIn_request.mp hget
        have hv₄ := looks_served hquery trivial
        cases reply with
        | error failure =>
          cases failure <;>
          · obtain ⟨_, _, _, -, -, hget⟩ := runsIn_request.mp hget
            obtain ⟨_, _, _, -, -, hend⟩ := runsIn_request.mp hget
            cases (runsIn_ret.mp hend).2.2
        | ok size =>
          obtain ⟨-, hv₁, hblob⟩ := runsIn_ret.mp hget
          obtain rfl := Except.ok.inj hblob
          simp only at hrest
          split_ifs at hrest with hlarge
          · obtain ⟨_, _, _, _, -, -, hend⟩ := runsIn_bind.mp hrest
            cases (runsIn_ret.mp hend).2.2
          · obtain ⟨_, v₅, collected, _, -, hcollect, hend⟩ := runsIn_bind.mp hrest
            cases collected with
            | error e => cases (runsIn_ret.mp hend).2.2
            | ok bytes =>
              have hv : v' = v₅ := (runsIn_ret.mp hend).2.1
              have hsize : size ≤ u64Max := by
                unfold isizeMax at hlarge
                unfold u64Max
                omega
              have hv₅ := collectBody_served hsize (by simp [BodySource.bound]) hcollect
              have hb := hi.openOn f
              obtain ⟨hnames, hcontent⟩ := close_kept hb.held hp
              rw [hv, hv₅, hv₁, hv₄]
              exact ⟨rfl, hb.close, hnames, hcontent⟩
      · subst hopened
        obtain ⟨_, _, _, -, -, hend⟩ := runsIn_request.mp hget
        cases (runsIn_ret.mp hend).2.2

/-- What a completed deletion makes of the share. -/
theorem deleteBlob_served (hk : ValidKey key) (hi : Idle v.files)
    (hrun : RunsIn ShareServes v (deleteBlob config key) log v' (.ok ())) :
    v'.isDir = v.isDir ∧ v'.files.content = v.files.content ∧
      ((v.files.names (keyPath config key) = none ∧ v'.files.names = v.files.names) ∨
        ∃ f, v.files.names (keyPath config key) = some f ∧
          v'.files.names = Server.unname v.files.names f) := by
  simp only [deleteBlob, validateBlobKey_eq_ok.mpr hk] at hrun
  obtain ⟨_, v₁, opened, _, -, hopen, hrest⟩ := runsIn_bind.mp hrun
  rcases openFile_served hk hopen with ⟨f, hn, hp, hopened, hv₁⟩ | ⟨hv₁, e, hopened, hmissing⟩
  · subst hopened hv₁
    obtain ⟨deleted, v₂, _, -, hdelete, hrest⟩ := runsIn_request.mp hrest
    obtain ⟨closed, v₃, _, -, hclose, hend⟩ := runsIn_request.mp hrest
    obtain ⟨-, hv, hresult⟩ := runsIn_ret.mp hend
    obtain ⟨hr, hc⟩ := andThen_eq_ok hresult.symm
    subst hr hc
    have hb := hi.openOn f
    have hv₂ := setDelete_served hb.held hdelete
    subst hv₂
    have hv₃ := close_served hclose
    subst hv hv₃
    obtain ⟨hnames, hcontent⟩ := (hb.mark f).close_marked (Function.update_self ..)
    exact ⟨rfl, hcontent, Or.inr ⟨f, hn, hnames⟩⟩
  · subst hopened
    simp only at hrest
    split_ifs at hrest with hfound
    · obtain ⟨-, hv, -⟩ := runsIn_ret.mp hrest
      subst hv hv₁
      exact ⟨rfl, rfl, Or.inl ⟨hmissing hfound, rfl⟩⟩
    · cases (runsIn_ret.mp hrest).2.2

end Stages

/-! ### The share after a probe -/

section Probe

variable {α : Type} {D : Digest} {parsesUuid : Str → Bool} {config : SmbProbeConfig}
  {options : SmbProbeOptions} {fuel : ℕ} {ids : ProbeIds} {v v' : ShareState}
  {log : List (Sigma ProbeRequests.Reply)}

theorem runsIn_onFiles {p : SmbM α} {a : α} (h : RunsIn ProbeServes v (onFiles p) log v' a) :
    ∃ own, RunsIn ShareServes v p own v' a := by
  obtain ⟨_, h⟩ := runsIn_left h
  exact runsIn_left h

theorem runsIn_onDirectories {p : ListM α} {a : α}
    (h : RunsIn ProbeServes v (onDirectories p) log v' a) : v' = v := by
  obtain ⟨_, h⟩ := runsIn_left h
  obtain ⟨_, h⟩ := runsIn_right h
  exact h.unchanged fun _ _ _ _ ha => ha

theorem runsIn_connRequest {c : ConnCall} {r : ConnCall.Reply c}
    (h : RunsIn ProbeServes v (connRequest c) log v' r) : v' = v := by
  obtain ⟨_, h⟩ := runsIn_right h
  exact h.unchanged fun _ _ _ _ ha => ha

theorem ensureRootPrefix_served {config : SmbStorageConfig} {log : List (Sigma Requests.Reply)}
    (hroot : ValidRoot config)
    (hrun : RunsIn ShareServes v (ensureRootPrefix config) log v' (.ok ())) :
    v'.files = v.files ∧
      ∀ d, v'.isDir d = true ↔ v.isDir d = true ∨ RootDirectory config d := by
  cases hr : config.rootPrefix with
  | none =>
    simp only [ensureRootPrefix, hr] at hrun
    obtain ⟨-, hv, -⟩ := runsIn_ret.mp hrun
    subst hv
    simp [RootDirectory, rootPath, hr]
  | some root =>
    have hpath : rootPath config = root.splitOn '/' := by
      simp only [rootPath, hr]
    have hplain : Plain ([] ++ root.splitOn '/') := hpath ▸ plain_rootPath hroot
    simp only [ensureRootPrefix, hr] at hrun
    have hmade := ensureSegments_served hplain hrun
    simpa only [RootDirectory, hpath, List.nil_append] using hmade

theorem probeKey_flat (ids : ProbeIds) : '/' ∉ probeKey ids := by
  rw [probeKey, List.mem_append, not_or]
  exact ⟨by decide, ids.name.not_mem_toStr (by decide)⟩

/-- The share once the probe has put its file. -/
theorem writeProbe_served {readable : Bool} (hroot : ValidRoot config.toSmbStorageConfig)
    (hi : Idle v.files)
    (hrun : RunsIn ProbeServes v (writeProbe D parsesUuid config options fuel ids) log v'
      (.ok readable)) :
    (∀ d, v'.isDir d = true ↔ v.isDir d = true ∨ RootDirectory config.toSmbStorageConfig d) ∧
      Idle v'.files ∧
      v'.files.names (keyPath config.toSmbStorageConfig (tempBeside ids.temp (probeKey ids))) =
        none ∧
      ∃ f, v'.files.names (keyPath config.toSmbStorageConfig (probeKey ids)) = some f ∧
        (v.files.names (keyPath config.toSmbStorageConfig (tempBeside ids.temp (probeKey ids))) =
            none → v.files.handles.length ≤ f ∧
          ∀ p, p ≠ keyPath config.toSmbStorageConfig (probeKey ids) →
            v'.files.names p = v.files.names p) ∧
        ∀ g, g ≠ f → v'.files.content g = v.files.content g := by
  obtain ⟨_, v₁, connected, _, -, hconnect, hrest⟩ := runsIn_bind.mp hrun
  obtain rfl := runsIn_connRequest hconnect
  cases connected with
  | error e => cases (runsIn_ret.mp hrest).2.2
  | ok _ =>
    obtain ⟨_, v₂, ensured, _, -, hensure, hrest⟩ := runsIn_bind.mp hrest
    obtain ⟨own, hensure⟩ := runsIn_onFiles hensure
    cases ensured with
    | error e => cases (runsIn_ret.mp hrest).2.2
    | ok _ =>
      have hensured : v₂.files = v₁.files ∧ ∀ d,
          v₂.isDir d = true ∨ RootDirectory config.toSmbStorageConfig d ↔
            v₁.isDir d = true ∨ RootDirectory config.toSmbStorageConfig d := by
        split_ifs at hensure
        · obtain ⟨hfiles, hdirs⟩ := ensureRootPrefix_served hroot hensure
          refine ⟨hfiles, fun d => ?_⟩
          rw [hdirs]
          tauto
        · obtain ⟨-, hv, -⟩ := runsIn_ret.mp hensure
          subst hv
          exact ⟨rfl, fun d => Iff.rfl⟩
      obtain ⟨hfiles, hensured⟩ := hensured
      obtain ⟨_, v₃, listed, _, -, hlist, hrest⟩ := runsIn_bind.mp hrest
      have hv₃ := runsIn_onDirectories hlist
      subst hv₃
      cases listed with
      | error stop => cases (runsIn_ret.mp hrest).2.2
      | ok readable =>
        obtain ⟨_, v₄, put, _, -, hput, hrest⟩ := runsIn_bind.mp hrest
        obtain ⟨_, hput⟩ := runsIn_onFiles hput
        cases put with
        | error e => cases (runsIn_ret.mp hrest).2.2
        | ok outcome =>
          have hv := (runsIn_ret.mp hrest).2.1
          subst hv
          rw [← hfiles] at hi ⊢
          obtain ⟨hdirs, hafter⟩ :=
            putBlob_served hroot (validKey_probeKey ids) (probeKey_flat ids) hi hput
          exact ⟨fun d => (hdirs d).trans (hensured d), hafter⟩

/-- The share once the probe has put its file, read it and deleted it. -/
theorem share_after_delete {v₁ v₂ v₃ : ShareState} {readable : Bool} {content : Bytes}
    {log log' log'' : List (Sigma ProbeRequests.Reply)}
    (hroot : ValidRoot config.toSmbStorageConfig) (hi : Idle v.files)
    (hwrite : RunsIn ProbeServes v (writeProbe D parsesUuid config options fuel ids) log v₁
      (.ok readable))
    (hread : RunsIn ProbeServes v₁ (onFiles (readBlob config.toSmbStorageConfig (probeKey ids)))
      log' v₂ (.ok content))
    (hdelete : RunsIn ProbeServes v₂ (onFiles (deleteBlob config.toSmbStorageConfig (probeKey ids)))
      log'' v₃ (.ok ())) :
    (∀ d, v₃.isDir d = true ↔ v.isDir d = true ∨ RootDirectory config.toSmbStorageConfig d) ∧
      v₃.fileAt (keyPath config.toSmbStorageConfig (probeKey ids)) = none ∧
      v₃.fileAt (keyPath config.toSmbStorageConfig (tempBeside ids.temp (probeKey ids))) = none ∧
      (v.fileAt (keyPath config.toSmbStorageConfig (tempBeside ids.temp (probeKey ids))) = none →
        ∀ p, p ≠ keyPath config.toSmbStorageConfig (probeKey ids) →
          v₃.fileAt p = v.fileAt p) := by
  have hk := validKey_probeKey ids
  obtain ⟨hdirs, hidle, htemp, f, hnamed, hfresh, hcontent⟩ := writeProbe_served hroot hi hwrite
  obtain ⟨_, hread⟩ := runsIn_onFiles hread
  obtain ⟨hdirs₂, hidle₂, hnames₂, hcontent₂⟩ := readBlob_served hk hidle hread
  obtain ⟨_, hdelete⟩ := runsIn_onFiles hdelete
  obtain ⟨hdirs₃, hcontent₃, hcase⟩ := deleteBlob_served hk hidle₂ hdelete
  have hnames₃ : v₃.files.names = Server.unname v₁.files.names f := by
    rw [hnames₂, hnamed] at hcase
    rcases hcase with ⟨hnone, -⟩ | ⟨g, hg, hnames₃⟩
    · cases hnone
    · rw [hnames₃, Option.some.inj hg]
  refine ⟨fun d => ?_, ?_, ?_, fun hnone p hp => ?_⟩
  · rw [hdirs₃, hdirs₂]
    exact hdirs d
  · simp [ShareState.fileAt, hnames₃, Server.unname, hnamed]
  · simp [ShareState.fileAt, hnames₃, Server.unname, htemp]
  · obtain ⟨hle, hother⟩ := hfresh (by simpa [ShareState.fileAt] using hnone)
    have hold : v.files.names p ≠ some f := fun h => absurd (hi.named_lt p f h) (not_lt.mpr hle)
    have hname : v₃.files.names p = v.files.names p := by
      rw [hnames₃, Server.unname, hother p hp, if_neg hold]
    simp only [ShareState.fileAt, hname]
    cases hn : v.files.names p with
    | none => rfl
    | some g =>
      have hg : g ≠ f := by
        intro he
        exact hold (he ▸ hn)
      rw [Option.map_some, Option.map_some, hcontent₃, hcontent₂, hcontent g hg]

theorem reportProbe_served {readable : Bool} {result : Except Stop SmbProbeResult}
    (hrun : RunsIn ProbeServes v (reportProbe config readable) log v' result) : v' = v := by
  obtain ⟨_, v₁, info, _, -, hinfo, hrest⟩ := runsIn_bind.mp hrun
  obtain rfl := runsIn_connRequest hinfo
  rcases info with _ | (_ | dialect)
  · exact (runsIn_ret.mp hrest).2.1
  · exact (runsIn_ret.mp hrest).2.1
  · exact (runsIn_ret.mp hrest).2.1

/-- A probe that succeeds has put its file and read it back. -/
theorem read_of_probe_ok {result : SmbProbeResult}
    (hrun : RunsTo (probe D parsesUuid config options fuel ids) log (.ok result)) :
    PutReturned D parsesUuid config options fuel ids log ∧
      ReadUndisturbed D parsesUuid config options fuel ids log := by
  obtain ⟨before, written, after, hlog, hwrite, hrest⟩ := runsTo_bind.mp hrun
  cases written with
  | error stop => cases (runsTo_ret.mp hrest).2
  | ok readable =>
    obtain ⟨part, read, rest, hafter, hread, hrest⟩ := runsTo_bind.mp hrest
    obtain ⟨reads, hreads, hpart⟩ := runsTo_onFiles.mp hread
    cases read with
    | error stop => cases (runsTo_ret.mp hrest).2
    | ok actual =>
      exact ⟨⟨before, after, readable, hlog, hwrite⟩, before, reads, rest, readable, .ok actual,
        by rw [hlog, hafter, hpart], hwrite, hreads, (readBlob_goesThrough hreads).mp ⟨_, rfl⟩⟩

end Probe

/-! ### Runs on an empty share -/

def emptyShare : ShareState := ⟨Server.empty, fun _ => false⟩

def zeroIds : ProbeIds := ⟨zeroUuid, zeroUuid, zeroUuid⟩

/-- Everything is answered at once; nothing is found to list. -/
def calmAnswer : (c : ProbeRequests.Call) → ShareState → ProbeRequests.Reply c × ShareState
  | .inl (.inl c), v => v.answer .smooth c
  | .inl (.inr (.openDirectory _)), v => (.error (.failed ⟨.status .objectNameNotFound, []⟩), v)
  | .inl (.inr (.closeResource _)), v => (.ok (), v)
  | .inl (.inr (.query _)), v => (.ok [], v)
  | .inl (.inr (.close _)), v => (.ok (), v)
  | .inr .connect, v => (.ok (), v)
  | .inr .connInfo, v => (.ok (some .smb0311), v)

theorem calmAnswer_serves (v : ShareState) (c : ProbeRequests.Call) :
    ProbeServes v c (calmAnswer c v).1 (calmAnswer c v).2 := by
  rcases c with (c | c) | c
  · exact Or.inl ⟨.smooth, rfl, rfl⟩
  · cases c <;> rfl
  · cases c <;> rfl

theorem idle_emptyShare : Idle emptyShare.files where
  closed h := by simp [emptyShare, Server.empty, Server.file]
  named_lt p f hp := by simp [emptyShare, Server.empty] at hp

/-! ### Results -/

/-- Without a root prefix and with no request failing the probe of an empty share succeeds. -/
theorem exists_calm_probe : ∃ log v' result, RunsIn ProbeServes emptyShare
    (probe Digest.sha256 (fun _ => false) ⟨⟨none, 1⟩, false⟩ ⟨false⟩ 2 zeroIds) log v'
      (.ok result) := by
  obtain ⟨log, hrun⟩ := exec_runsIn calmAnswer_serves (probe Digest.sha256 (fun _ => false)
    ⟨⟨none, 1⟩, false⟩ ⟨false⟩ 2 zeroIds) emptyShare
  have hresult : ((probe Digest.sha256 (fun _ => false) ⟨⟨none, 1⟩, false⟩ ⟨false⟩ 2 zeroIds).exec
      calmAnswer emptyShare).1 = .ok ⟨.smb3_1_1, true, false, true, true, true, true⟩ := by
    decide +kernel
  rw [hresult] at hrun
  exact ⟨log, _, _, hrun⟩

/-- A probe that may not create the prefix, and succeeds, leaves the share as it was just when
every directory of the root prefix was there, and neither of its random names. -/
theorem probe_leaves_share_iff (D : Digest) (parsesUuid : Str → Bool) (config : SmbProbeConfig)
    (hroot : ValidRoot config.toSmbStorageConfig) (fuel : ℕ) (ids : ProbeIds) (v v' : ShareState)
    (hi : Idle v.files) (log : List (Sigma ProbeRequests.Reply)) (result : SmbProbeResult)
    (hrun : RunsIn ProbeServes v (probe D parsesUuid config ⟨false⟩ fuel ids) log v' (.ok result)) :
    Unchanged v v' ↔
      (∀ d, RootDirectory config.toSmbStorageConfig d → v.isDir d = true) ∧
      v.fileAt (keyPath config.toSmbStorageConfig (probeKey ids)) = none ∧
      v.fileAt (keyPath config.toSmbStorageConfig (tempBeside ids.temp (probeKey ids))) = none := by
  obtain ⟨_, v₁, written, _, -, hwrite, hrest⟩ := runsIn_bind.mp hrun
  cases written with
  | error stop => cases (runsIn_ret.mp hrest).2.2
  | ok readable =>
    obtain ⟨_, v₂, read, _, -, hread, hrest⟩ := runsIn_bind.mp hrest
    cases read with
    | error stop => cases (runsIn_ret.mp hrest).2.2
    | ok actual =>
      simp only at hrest
      split_ifs at hrest
      · obtain ⟨_, _, _, _, -, -, hend⟩ := runsIn_bind.mp hrest
        cases (runsIn_ret.mp hend).2.2
      · obtain ⟨_, v₃, deleted, _, -, hdelete, hrest⟩ := runsIn_bind.mp hrest
        cases deleted with
        | error e => cases (runsIn_ret.mp hrest).2.2
        | ok _ =>
          have hv := reportProbe_served hrest
          subst hv
          obtain ⟨hdirs, hkey, htemp, hfresh⟩ := share_after_delete hroot hi hwrite hread hdelete
          constructor
          · rintro ⟨hsame, hfiles⟩
            refine ⟨fun d hd => ?_, (hfiles _).symm.trans hkey, (hfiles _).symm.trans htemp⟩
            rw [← hsame]
            exact (hdirs d).mpr (Or.inr hd)
          · rintro ⟨hbegins, hkey', htemp'⟩
            refine ⟨fun d => ?_, fun p => ?_⟩
            · rw [Bool.eq_iff_iff, hdirs]
              exact ⟨fun h => h.elim id (hbegins d), Or.inl⟩
            · by_cases hp : p = keyPath config.toSmbStorageConfig (probeKey ids)
              · rw [hp, hkey, hkey']
              · exact hfresh htemp' p hp

theorem probe_leaves_share_iff_no_root : ∃ log v' result,
    RunsIn ProbeServes emptyShare (probe Digest.sha256 (fun _ => false) ⟨⟨none, 1⟩, false⟩ ⟨false⟩ 2
      zeroIds) log v' (.ok result) ∧ Unchanged emptyShare v' := by
  obtain ⟨log, v', result, hrun⟩ := exists_calm_probe
  have hroot : ValidRoot ⟨none, 1⟩ := by
    intro root h
    cases h
  refine ⟨log, _, _, hrun, (probe_leaves_share_iff Digest.sha256 (fun _ => false)
    ⟨⟨none, 1⟩, false⟩ hroot 2 zeroIds emptyShare _ idle_emptyShare log _ hrun).mpr
    ⟨?_, rfl, rfl⟩⟩
  rintro d ⟨q, hq, hbegins, -⟩
  exact absurd (List.prefix_nil.mp hbegins) hq

/-- A successful probe that may not create the root prefix creates it. -/
theorem probe_creates_prefix : ¬ ∀ (D : Digest) (parsesUuid : Str → Bool) (config : SmbProbeConfig)
    (fuel : ℕ) (ids : ProbeIds) (v v' : ShareState) (log : List (Sigma ProbeRequests.Reply))
    (result : SmbProbeResult), ValidRoot config.toSmbStorageConfig → Idle v.files →
    v.fileAt (keyPath config.toSmbStorageConfig (probeKey ids)) = none →
    v.fileAt (keyPath config.toSmbStorageConfig (tempBeside ids.temp (probeKey ids))) = none →
    RunsIn ProbeServes v (probe D parsesUuid config ⟨false⟩ fuel ids) log v' (.ok result) →
    Unchanged v v' := by
  intro h
  obtain ⟨log, hrun⟩ := exec_runsIn calmAnswer_serves (probe Digest.sha256 (fun _ => false)
    ⟨⟨some "r".toList, 1⟩, false⟩ ⟨false⟩ 2 zeroIds) emptyShare
  have hresult : ((probe Digest.sha256 (fun _ => false) ⟨⟨some "r".toList, 1⟩, false⟩ ⟨false⟩ 2
      zeroIds).exec calmAnswer emptyShare).1 =
        .ok ⟨.smb3_1_1, true, false, true, true, true, true⟩ := by
    decide +kernel
  have hmade : ((probe Digest.sha256 (fun _ => false) ⟨⟨some "r".toList, 1⟩, false⟩ ⟨false⟩ 2
      zeroIds).exec calmAnswer emptyShare).2.isDir "r".toList = true := by
    decide +kernel
  rw [hresult] at hrun
  have hroot : ValidRoot ⟨some "r".toList, 1⟩ := by
    intro root hroot
    obtain rfl := Option.some.inj hroot
    decide
  have hsame := (h _ _ _ _ _ _ _ _ _ hroot idle_emptyShare rfl rfl hrun).1 "r".toList
  rw [hmade] at hsame
  exact absurd hsame (by decide)

/-- Once the probe's file is put, it is deleted just when it can be read back; and a deletion that
succeeds leaves none behind. -/
theorem failed_probe_cleans_up_iff (D : Digest) (parsesUuid : Str → Bool) (config : SmbProbeConfig)
    (options : SmbProbeOptions) (fuel : ℕ) (ids : ProbeIds)
    (log : List (Sigma ProbeRequests.Reply)) (result : Except Stop SmbProbeResult)
    (hrun : RunsTo (probe D parsesUuid config options fuel ids) log result)
    (hput : PutReturned D parsesUuid config options fuel ids log) :
    ((∃ r, DeleteReturned D parsesUuid config options fuel ids log r) ↔
      ReadUndisturbed D parsesUuid config options fuel ids log) ∧
    (DeleteAttempted config ids log ↔
      ReadUndisturbed D parsesUuid config options fuel ids log) ∧
    ∀ v v', ValidRoot config.toSmbStorageConfig → Idle v.files →
      RunsIn ProbeServes v (probe D parsesUuid config options fuel ids) log v' result →
      DeleteReturned D parsesUuid config options fuel ids log (.ok ()) →
      v'.fileAt (keyPath config.toSmbStorageConfig (probeKey ids)) = none := by
  obtain ⟨hreturned, hattempted⟩ := probe_deletes_iff hrun hput
  refine ⟨hreturned, hattempted, fun v v' hroot hi hserved hdeleted => ?_⟩
  obtain ⟨before, reads, deletes, after, readable, content, hlog, hbefore, hreads, hdeletes⟩ :=
    hdeleted
  obtain ⟨first, v₁, written, rest, hlog₁, hwrite, hrest⟩ := runsIn_bind.mp hserved
  obtain ⟨-, hwritten, hrest₁⟩ := hbefore.unique hwrite.runsTo (hlog.symm.trans hlog₁)
  subst hwritten
  obtain ⟨second, v₂, read, rest₂, hlog₂, hread, hrest⟩ := runsIn_bind.mp hrest
  have hreads' := runsTo_onFiles.mpr ⟨reads, hreads, rfl⟩
  obtain ⟨-, hread', hrest₂⟩ := hreads'.unique hread.runsTo (hrest₁.trans hlog₂)
  subst hread'
  have hdeletes' := runsTo_onFiles.mpr ⟨deletes, hdeletes, rfl⟩
  have hdone : ∀ {third v₃ r rest₃}, rest₂ = third ++ rest₃ → RunsIn ProbeServes v₂
      (onFiles (deleteBlob config.toSmbStorageConfig (probeKey ids))) third v₃ r → r = .ok () :=
    fun hlog₃ h => (hdeletes'.unique h.runsTo (hrest₂.trans hlog₃)).2.1.symm
  cases content with
  | error stop =>
    -- Nothing is requested after a read that failed.
    have hnil : rest₂ = [] := (runsIn_ret.mp hrest).1
    obtain ⟨reply, hmem⟩ := deleteBlob_opens _ (validKey_probeKey ids) hdeletes
    rw [hnil, List.append_eq_nil_iff, List.map_eq_nil_iff] at hrest₂
    rw [hrest₂.1] at hmem
    cases hmem
  | ok actual =>
    simp only at hrest
    split_ifs at hrest
    · obtain ⟨third, v₃, r, rest₃, hlog₃, hdelete, hend⟩ := runsIn_bind.mp hrest
      have hr := hdone hlog₃ hdelete
      subst hr
      have hv : v' = v₃ := (runsIn_ret.mp hend).2.1
      subst hv
      exact (share_after_delete hroot hi hwrite hread hdelete).2.1
    · obtain ⟨third, v₃, r, rest₃, hlog₃, hdelete, hend⟩ := runsIn_bind.mp hrest
      have hr := hdone hlog₃ hdelete
      subst hr
      have hv := reportProbe_served hend
      subst hv
      exact (share_after_delete hroot hi hwrite hread hdelete).2.1

theorem failed_probe_cleans_up_iff_ok : ∃ log r, PutReturned Digest.sha256 (fun _ => false)
      ⟨⟨none, 1⟩, false⟩ ⟨false⟩ 2 zeroIds log ∧
    DeleteReturned Digest.sha256 (fun _ => false) ⟨⟨none, 1⟩, false⟩ ⟨false⟩ 2 zeroIds log r := by
  obtain ⟨log, v', result, hrun⟩ := exists_calm_probe
  obtain ⟨hput, hread⟩ := read_of_probe_ok hrun.runsTo
  obtain ⟨r, hr⟩ := (failed_probe_cleans_up_iff Digest.sha256 (fun _ => false) ⟨⟨none, 1⟩, false⟩
    ⟨false⟩ 2 zeroIds log _ hrun.runsTo hput).1.mpr hread
  exact ⟨log, r, hput, hr⟩

/-- The probe's file cannot be opened for reading, and is left behind. -/
theorem failed_probe_leaves_file : ¬ ∀ (D : Digest) (parsesUuid : Str → Bool)
    (config : SmbProbeConfig) (options : SmbProbeOptions) (fuel : ℕ) (ids : ProbeIds)
    (log : List (Sigma ProbeRequests.Reply)) (result : Except Stop SmbProbeResult),
    RunsTo (probe D parsesUuid config options fuel ids) log result →
    PutReturned D parsesUuid config options fuel ids log → DeleteAttempted config ids log := by
  intro h
  obtain ⟨before, hbefore⟩ := exec_runsIn calmAnswer_serves (writeProbe Digest.sha256
    (fun _ => false) ⟨⟨none, 1⟩, false⟩ ⟨false⟩ 2 zeroIds) emptyShare
  have hresult : ((writeProbe Digest.sha256 (fun _ => false) ⟨⟨none, 1⟩, false⟩ ⟨false⟩ 2
      zeroIds).exec calmAnswer emptyShare).1 = .ok true := by
    decide +kernel
  rw [hresult] at hbefore
  have hwrite := hbefore.runsTo
  have hread : ∃ reads e, RunsTo (readBlob ⟨none, 1⟩ (probeKey zeroIds)) reads (.error e) := by
    have hk := validKey_probeKey zeroIds
    have hopen : RunsTo (openFile ⟨none, 1⟩ (probeKey zeroIds) .read)
        [⟨.openExisting (keyPath ⟨none, 1⟩ (probeKey zeroIds)) .read,
          .error (.failed ⟨.status .accessDenied, []⟩)⟩]
        (.error (remoteError .permissionDenied "open".toList [] false)) := by
      simp only [openFile, remotePath_of_valid _ hk]
      exact .call _ _ _ (.ret _)
    have hget : ∃ reads, RunsTo (getBlob ⟨none, 1⟩ (probeKey zeroIds)) reads
        (.error (remoteError .permissionDenied "open".toList [] false)) := by
      have hpermit : RunsTo transferPermit [⟨.acquirePermit, true⟩] (.ok ()) := .call _ _ _ (.ret _)
      simp only [getBlob, validateBlobKey_eq_ok.mpr hk]
      exact ⟨_, .bind hpermit (.bind hopen (runsTo_request.mpr ⟨(), [], rfl, .ret _⟩))⟩
    obtain ⟨reads, hget⟩ := hget
    exact ⟨_, _, .bind hget (.ret _)⟩
  obtain ⟨reads, e, hread⟩ := hread
  have hrun : RunsTo (probe Digest.sha256 (fun _ => false) ⟨⟨none, 1⟩, false⟩ ⟨false⟩ 2 zeroIds)
      (before ++ (List.map fileEntry reads ++ [])) (.error e) :=
    .bind hwrite (.bind (runsTo_onFiles.mpr ⟨reads, hread, rfl⟩) (.ret _))
  obtain ⟨reply, hmem⟩ := h _ _ _ _ _ _ _ _ hrun ⟨before, _, true, rfl, hwrite⟩
  rw [List.append_nil, List.mem_append, mem_fileEntries] at hmem
  cases hmem with
  | inl hmem => exact writeProbe_never hwrite reply hmem
  | inr hmem => exact (never_readBlob _ _).not_mem hread reply hmem

end GraphqlOrmStorage.Smb
