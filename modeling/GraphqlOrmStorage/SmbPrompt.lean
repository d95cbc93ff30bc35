import GraphqlOrmStorage.SmbProbeShare
import GraphqlOrmStorage.SmbTempNames
import GraphqlOrmStorage.Triples

/-!
# Calls on a prompt share

The share with directories, without faults: every request is served that can be, though
blocks and reads may still be cut short. What the calls of the backend answer then, and
what they make of the files that the paths name, is the same however they are cut.
-/
namespace GraphqlOrmStorage.Smb

open Text Program Program.Prog

/-! ### Requests -/

/-- No fault, and every block and read moves on. -/
def Choice.Steady (o : Choice) : Prop := o.fault = none ∧ 0 < o.count

/-- The share serves a request, or says why it cannot be served. -/
def Prompt (v : ShareState) (c : SmbCall) (r : SmbCall.Reply c) (v' : ShareState) : Prop :=
  ∃ o : Choice, o.Steady ∧ r = (v.answer o c).1 ∧ v' = (v.answer o c).2

theorem steady_smooth : Choice.smooth.Steady := ⟨rfl, by decide⟩

/-- Every request is answered. -/
theorem prompt_total (v : ShareState) (c : SmbCall) : ∃ r v', Prompt v c r v' :=
  ⟨_, _, .smooth, steady_smooth, rfl, rfl⟩

theorem Prompt.serves {v v' : ShareState} {c : SmbCall} {r : SmbCall.Reply c}
    (h : Prompt v c r v') : ShareServes v c r v' := by
  obtain ⟨o, _, hr, hv⟩ := h
  exact Or.inl ⟨o, hr, hv⟩

section Requests

variable {α : Type} {v v₁ : ShareState} {c : SmbCall} {k : SmbCall.Reply c → SmbM α}
  {post : ShareState → α → Prop} {path : Str} {f : Handle} {o : Choice}

theorem ensures_request : Ensures Prompt v ((request c).bind k) post ↔
    ∀ r v', Prompt v c r v' → Ensures Prompt v' (k r) post := ensures_call

/-- A request whose answer is known. -/
theorem ensures_step {r : SmbCall.Reply c} (ha : ∀ o : Choice, o.Steady → v.answer o c = (r, v₁))
    (hk : Ensures Prompt v₁ (k r) post) : Ensures Prompt v ((request c).bind k) post := by
  refine ensures_request.mpr fun r' v' hprompt => ?_
  obtain ⟨o, ho, hr, hv⟩ := hprompt
  rw [ha o ho] at hr hv
  subst hr hv
  exact hk

theorem ShareState.answer_create (hdir : v.isDir path = false)
    (hparent : v.isDir (directoryPath path) = true) (hn : v.files.names path = none)
    (exclusive : Bool) : v.answer o (.createFile path exclusive) =
      (.ok (.file v.files.handles.length), v.withFiles (v.files.create path)) := by
  simp only [answer, hdir, hparent, answerFiles, Server.answer_create_absent hn,
    Bool.false_eq_true, if_false, if_true]

theorem ShareState.answer_create_taken (hdir : v.isDir path = false)
    (hparent : v.isDir (directoryPath path) = true) (hn : v.files.names path = some f) :
    v.answer o (.createFile path true) = (.error (statusError o .objectNameCollision), v) := by
  simp only [answer, hdir, hparent, answerFiles, Server.answer_create_taken hn,
    Bool.false_eq_true, if_false, if_true]
  rfl

theorem ShareState.answer_open (hdir : v.isDir path = false) (hn : v.files.names path = some f)
    (hp : v.files.pending f = false) (access : Access) :
    v.answer o (.openExisting path access) =
      (.ok (.file v.files.handles.length), v.withFiles (v.files.openOn f)) := by
  simp only [answer, hdir, answerFiles, Server.answer_open_file hn hp, Bool.false_eq_true, if_false]

theorem ShareState.answer_open_absent (hdir : v.isDir path = false)
    (hn : v.files.names path = none) (access : Access) : v.answer o (.openExisting path access) =
      (.error (statusError o .objectNameNotFound), v) := by
  simp only [answer, hdir, answerFiles, Server.answer_open_absent hn, Bool.false_eq_true, if_false]
  rfl

end Requests

/-! ### Directories -/

section Directories

variable {v : ShareState} {config : SmbStorageConfig} {key : Str}

/-- Nothing is in the way of a path. -/
def Clear (v : ShareState) (path : Path) : Prop :=
  ∀ q, q ≠ [] → q <+: path → v.files.names (['\\'].intercalate q) = none

/-- The directories of a path have been added. -/
structure Grown (path : Path) (v v' : ShareState) : Prop where
  files : v'.files = v.files
  dirs : ∀ d, v'.isDir d = true ↔
    v.isDir d = true ∨ ∃ q, q ≠ [] ∧ q <+: path ∧ d = ['\\'].intercalate q

theorem intercalate_injective {p q : Path} (hp : Plain p) (hq : Plain q)
    (h : ['\\'].intercalate p = ['\\'].intercalate q) : p = q := by
  rw [← sharePath_joinPath hp, ← sharePath_joinPath hq,
    replaceChar_joinPath fun c hc => (hp c hc).2.1,
    replaceChar_joinPath fun c hc => (hq c hc).2.1, h]

/-- What is above a path, as it is written. -/
theorem directoryPath_intercalate {p : Path} {name : Str} (hp : Plain p) (hname : '\\' ∉ name) :
    directoryPath (['\\'].intercalate (p ++ [name])) = ['\\'].intercalate p := by
  cases p using List.reverseRecOn with
  | nil => simp [directoryPath, rsplitOnce_eq_none.mpr hname]
  | append_singleton p c =>
    have hjoin : ['\\'].intercalate (p ++ [c] ++ [name]) =
        ['\\'].intercalate (p ++ [c]) ++ '\\' :: name := by
      have hback : ∀ d ∈ p ++ [c], '\\' ∉ d := fun d hd => (hp d hd).2.2
      apply splitOn_injective '\\'
      rw [List.splitOn_append_cons_self, List.splitOn_eq_singleton hname,
        List.splitOn_intercalate '\\' hback (by simp), List.splitOn_intercalate '\\' _ (by simp)]
      intro d hd
      rcases List.mem_append.mp hd with hd | hd
      · exact hback d hd
      · rwa [List.mem_singleton.mp hd]
    rw [hjoin, directoryPath, rsplitOnce_eq_some.mpr ⟨rfl, hname⟩]
    rfl

theorem keyPath_eq (config : SmbStorageConfig) (key : Str) :
    keyPath config key = ['\\'].intercalate (rootPath config ++ key.splitOn '/') := by
  have hslash : ∀ c ∈ rootPath config ++ key.splitOn '/', '/' ∉ c := by
    intro c hc
    rcases List.mem_append.mp hc with hc | hc
    · unfold rootPath at hc
      cases hroot : config.rootPrefix with
      | none => simp [hroot] at hc
      | some root =>
        simp only [hroot] at hc
        exact not_mem_of_mem_splitOn hc
    · exact not_mem_of_mem_splitOn hc
  rw [keyPath, ← joinPath_rootPath, replaceChar_joinPath hslash]

/-- The directories that a key is in. -/
def parentPath (config : SmbStorageConfig) (key : Str) : Path :=
  rootPath config ++ (key.splitOn '/').dropLast

theorem splitOn_dropLast (key : Str) : ∃ name,
    key.splitOn '/' = (key.splitOn '/').dropLast ++ [name] := by
  have hne := List.splitOn_ne_nil '/' key
  exact ⟨_, (List.dropLast_append_getLast hne).symm⟩

theorem plain_of_valid (hk : ValidKey key) : Plain (key.splitOn '/') := by
  intro c hc
  refine ⟨(hk.2 c hc).1, not_mem_of_mem_splitOn hc, fun hb => hk.1 ?_⟩
  exact (mem_splitOn_iff (by decide) key).mpr ⟨c, hc, hb⟩

theorem plain_append {p q : Path} (hp : Plain p) (hq : Plain q) : Plain (p ++ q) := by
  intro c hc
  rcases List.mem_append.mp hc with hc | hc
  · exact hp c hc
  · exact hq c hc

/-- A key's path is below its directories. -/
theorem keyPath_split (hroot : ValidRoot config) (hk : ValidKey key) : ∃ name,
    '\\' ∉ name ∧ '/' ∉ name ∧ key.splitOn '/' = (key.splitOn '/').dropLast ++ [name] ∧
      Plain (parentPath config key) ∧
        keyPath config key = ['\\'].intercalate (parentPath config key ++ [name]) := by
  obtain ⟨name, hsplit⟩ := splitOn_dropLast key
  have hplain := plain_of_valid hk
  have hname := hplain name (by rw [hsplit]; simp)
  refine ⟨name, hname.2.2, hname.2.1, hsplit, ?_, ?_⟩
  · exact plain_append (plain_rootPath hroot) fun c hc => hplain c (List.mem_of_mem_dropLast hc)
  · rw [keyPath_eq, parentPath, List.append_assoc, ← hsplit]

theorem directoryPath_keyPath (hroot : ValidRoot config) (hk : ValidKey key) :
    directoryPath (keyPath config key) = ['\\'].intercalate (parentPath config key) := by
  obtain ⟨name, hback, _, _, hplain, hpath⟩ := keyPath_split hroot hk
  rw [hpath, directoryPath_intercalate hplain hback]

/-- A directory is made where nothing is in its way. -/
theorem createDirectory_ensures {v' : ShareState} {path : Str}
    {r : Except (Failure SmbError) Resource} (hn : v.files.names path = none)
    (hparent : v.isDir (directoryPath path) = true)
    (hprompt : Prompt v (.createDirectory path) r v') :
    (∃ resource, r = .ok resource) ∧ v'.files = v.files ∧
      ∀ d, v'.isDir d = true ↔ v.isDir d = true ∨ d = path := by
  have hok : ∃ resource, r = .ok resource := by
    obtain ⟨o, _, hr, _⟩ := hprompt
    rw [hr]
    simp only [ShareState.answer, hn, hparent, Option.isSome_none, Bool.false_eq_true, if_false,
      if_true]
    split_ifs
    · exact ⟨_, rfl⟩
    · exact ⟨_, rfl⟩
  obtain ⟨hfiles, ⟨⟨e, he⟩, _⟩ | ⟨_, hdirs⟩⟩ := createDirectory_served hprompt.serves
  · obtain ⟨resource, hresource⟩ := hok
    rw [hresource] at he
    cases he
  · exact ⟨hok, hfiles, hdirs⟩

/-- Where nothing is in the way, every directory is made. -/
theorem ensureSegments_ensures {done segments : Path} (hplain : Plain (done ++ segments))
    (hclear : Clear v (done ++ segments)) (hdone : v.isDir (['\\'].intercalate done) = true) :
    Ensures Prompt v (ensureSegments (joinPath done) segments) fun _ r => r = .ok () := by
  induction segments generalizing done v with
  | nil => exact ensures_ret.mpr rfl
  | cons segment rest ih =>
    have hprefix : Plain done := fun c hc => hplain c (List.mem_append_left _ hc)
    have hsegment := hplain segment (by simp)
    have hnext : Plain (done ++ [segment]) :=
      plain_append hprefix fun c hc => List.mem_singleton.mp hc ▸ hsegment
    have hcurrent : (if joinPath done = [] then segment else joinPath done ++ '/' :: segment) =
        joinPath (done ++ [segment]) := childPath_joinPath hprefix hsegment.2.1
    have hpath : replaceChar '/' '\\' (joinPath (done ++ [segment])) =
        ['\\'].intercalate (done ++ [segment]) :=
      replaceChar_joinPath fun c hc => (hnext c hc).2.1
    refine ensures_request.mpr fun r v₁ hprompt => ?_
    rw [hcurrent, hpath] at hprompt
    obtain ⟨⟨resource, rfl⟩, hfiles, hdirs⟩ := createDirectory_ensures
      (hclear _ (by simp) (by simp)) (by rwa [directoryPath_intercalate hprefix hsegment.2.2])
      hprompt
    have hclose : ∀ o : Choice, o.Steady →
        v₁.answer o (.closeResource resource.handle) = (.ok (), v₁) := fun _ _ => rfl
    refine ensures_step hclose ?_
    rw [hcurrent]
    refine ih (by simpa using hplain) (fun q hq hpre => ?_) ((hdirs _).mpr (Or.inr rfl))
    rw [hfiles]
    exact hclear q hq (by simpa using hpre)

/-- The directories of a key are made. -/
theorem ensureParentDirectories_ensures (hroot : ValidRoot config) (hk : ValidKey key)
    (hclear : Clear v (parentPath config key)) :
    Ensures Prompt v (ensureParentDirectories config key) fun v' r =>
      r = .ok () ∧ Grown (parentPath config key) v v' := by
  obtain ⟨name, hback, hslash, hsplit, hplain, hpath⟩ := keyPath_split hroot hk
  simp only [ensureParentDirectories, mappedKey_of_valid config hk]
  have hmapped : belowRoot config key = joinPath (parentPath config key ++ [name]) := by
    rw [← joinPath_rootPath, parentPath, List.append_assoc, ← hsplit]
  by_cases hnil : parentPath config key = []
  · have hflat : rsplitOnce '/' (belowRoot config key) = none := by
      rw [hmapped, hnil]
      exact rsplitOnce_eq_none.mpr (by simpa [joinPath] using hslash)
    simp only [hflat]
    refine ensures_ret.mpr ⟨rfl, rfl, fun d => ?_⟩
    simp [hnil]
  · have hparent : rsplitOnce '/' (belowRoot config key) =
        some (joinPath (parentPath config key), name) := by
      rw [hmapped, ← childPath_joinPath hplain hslash, childPath,
        if_neg (joinPath_ne_nil hplain hnil)]
      exact rsplitOnce_eq_some.mpr ⟨rfl, hslash⟩
    simp only [hparent, ensureDirectories, splitOn_joinPath hplain hnil]
    intro log v' r hrun
    have hall : Plain ([] ++ parentPath config key) := hplain
    have hok := ensureSegments_ensures hall hclear rfl log v' r hrun
    subst hok
    obtain ⟨hfiles, hdirs⟩ := ensureSegments_served hall (hrun.weaken fun _ _ _ _ => Prompt.serves)
    exact ⟨rfl, hfiles, hdirs⟩

end Directories

/-! ### Files -/

/-- Every file that is named or open exists; one that is named is not marked for deletion and has
no other name; files are no larger than offsets reach; and nothing is open but these handles. -/
structure Tidy (s : Server) (hs : List Handle) : Prop where
  named_lt : ∀ p f, s.names p = some f → f < s.handles.length
  live : ∀ p f, s.names p = some f → s.pending f = false
  single : ∀ p p' f, s.names p = some f → s.names p' = some f → p = p'
  short : ∀ f, (s.content f).length ≤ maxOffset
  opened : ∀ h f, s.file h = some f → h ∈ hs ∧ f < s.handles.length

/-- The bytes of the file that a path names. -/
def Server.fileAt (s : Server) (path : Str) : Option Bytes := (s.names path).map s.content

section Files

variable {s : Server} {path dst : Str} {h f : Handle} {hs : List Handle} {b : Bytes}

theorem fileAt_eq_none : s.fileAt path = none ↔ s.names path = none := by
  simp [Server.fileAt]

theorem fileAt_of_name (hn : s.names path = some f) : s.fileAt path = some (s.content f) := by
  simp [Server.fileAt, hn]

theorem Tidy.idle (ht : Tidy s []) : Idle s where
  named_lt := ht.named_lt
  closed h := by
    cases hf : s.file h with
    | none => rfl
    | some f => exact absurd (ht.opened h f hf).1 List.not_mem_nil

theorem Tidy.of_subset {hs' : List Handle} (ht : Tidy s hs) (hsub : hs ⊆ hs') : Tidy s hs' where
  named_lt := ht.named_lt
  live := ht.live
  single := ht.single
  short := ht.short
  opened h f hf := ⟨hsub (ht.opened h f hf).1, (ht.opened h f hf).2⟩

/-- One more handle is open. -/
theorem Tidy.openOn (ht : Tidy s hs) (hn : s.names path = some f) :
    Tidy (s.openOn f) (s.handles.length :: hs) where
  named_lt p g hg := by
    rw [Server.length_openOn]
    exact Nat.lt_succ_of_lt (ht.named_lt p g hg)
  live := ht.live
  single := ht.single
  short := ht.short
  opened h g hg := by
    rw [Server.file_openOn] at hg
    rw [Server.length_openOn]
    split_ifs at hg with heq
    · obtain rfl := Option.some.inj hg
      exact ⟨heq ▸ List.mem_cons_self, Nat.lt_succ_of_lt (ht.named_lt path f hn)⟩
    · obtain ⟨hmem, hlt⟩ := ht.opened h g hg
      exact ⟨List.mem_cons_of_mem _ hmem, Nat.lt_succ_of_lt hlt⟩

/-- A new file is open. -/
theorem Tidy.create (ht : Tidy s hs) (path : Str) :
    Tidy (s.create path) (s.handles.length :: hs) where
  named_lt p g hg := by
    rw [Server.names_create] at hg
    rw [Server.length_create]
    split_ifs at hg
    · exact Option.some.inj hg ▸ Nat.lt_succ_self _
    · exact Nat.lt_succ_of_lt (ht.named_lt p g hg)
  live p g hg := by
    rw [Server.names_create] at hg
    simp only [Server.create, Function.update_apply]
    split_ifs at hg ⊢ with hnew hp hp
    · rfl
    · rfl
    · exact absurd (Option.some.inj hg).symm hnew
    · exact ht.live p g hg
  single p p' g hg hg' := by
    rw [Server.names_create] at hg hg'
    split_ifs at hg hg' with hp hp' hp'
    · rw [hp, hp']
    · exact absurd (ht.named_lt p' g hg') (by rw [← Option.some.inj hg]; exact lt_irrefl _)
    · exact absurd (ht.named_lt p g hg) (by rw [← Option.some.inj hg']; exact lt_irrefl _)
    · exact ht.single p p' g hg hg'
  short g := by
    simp only [Server.create, Function.update_apply]
    split_ifs
    · exact Nat.zero_le _
    · exact ht.short g
  opened h g hg := by
    rw [Server.file_create] at hg
    rw [Server.length_create]
    split_ifs at hg with heq
    · exact ⟨heq ▸ List.mem_cons_self, Option.some.inj hg ▸ Nat.lt_succ_self _⟩
    · obtain ⟨hmem, hlt⟩ := ht.opened h g hg
      exact ⟨List.mem_cons_of_mem _ hmem, Nat.lt_succ_of_lt hlt⟩

theorem Tidy.setContent (ht : Tidy s hs) (hb : b.length ≤ maxOffset) (f : Handle) :
    Tidy (s.setContent f b) hs where
  named_lt := ht.named_lt
  live := ht.live
  single := ht.single
  short g := by
    simp only [Server.setContent, Function.update_apply]
    split_ifs
    · exact hb
    · exact ht.short g
  opened := ht.opened

/-- A handle of a file that stays is closed. -/
theorem Tidy.close (ht : Tidy s (h :: hs)) (hf : s.file h = some f) (hp : s.pending f = false) :
    Tidy (s.close h) hs := by
  obtain ⟨hnames, hcontent⟩ := close_kept hf hp
  have hpending := (s.contents_close hf).2.1
  refine ⟨?_, ?_, ?_, ?_, fun k g hg => ?_⟩
  · rw [hnames, Server.length_close]
    exact ht.named_lt
  · rw [hnames, hpending]
    exact ht.live
  · rw [hnames]
    exact ht.single
  · rw [hcontent]
    exact ht.short
  · rw [s.file_close hf] at hg
    rw [Server.length_close]
    split_ifs at hg with heq
    obtain ⟨hmem, hlt⟩ := ht.opened k g hg
    exact ⟨(List.mem_cons.mp hmem).resolve_left heq, hlt⟩

theorem fileAt_close (hf : s.file h = some f) (hp : s.pending f = false) :
    (s.close h).fileAt = s.fileAt := by
  obtain ⟨hnames, hcontent⟩ := close_kept hf hp
  funext path
  rw [Server.fileAt, Server.fileAt, hnames, hcontent]

/-- A file is written. -/
theorem Tidy.fileAt_setContent (ht : Tidy s hs) (hn : s.names path = some f) (b : Bytes) :
    (s.setContent f b).fileAt = Function.update s.fileAt path (some b) := by
  funext p
  simp only [Server.fileAt, Server.setContent, Function.update_apply]
  split_ifs with hp
  · rw [hp, hn, Option.map_some, Function.update_self]
  · cases hg : s.names p with
    | none => rfl
    | some g =>
      have hne : g ≠ f := by
        rintro rfl
        exact hp (ht.single p path g hg hn)
      rw [Option.map_some, Option.map_some, Function.update_of_ne hne]

theorem Tidy.fileAt_create (ht : Tidy s hs) (path : Str) :
    (s.create path).fileAt = Function.update s.fileAt path (some []) := by
  funext p
  simp only [Server.fileAt, Server.names_create, Function.update_apply]
  split_ifs with hp
  · simp [Server.create]
  · cases hg : s.names p with
    | none => rfl
    | some g =>
      have hne : g ≠ s.handles.length := (ht.named_lt p g hg).ne
      simp [Server.create, Function.update_of_ne hne]

/-- A file is given another name, whatever had it. -/
theorem Tidy.rename (ht : Tidy s hs) (hn : s.names path = some f) (dst : Str) :
    Tidy (s.rename f dst) hs where
  named_lt p g hg := by
    rw [Server.names_rename] at hg
    split_ifs at hg
    · exact Option.some.inj hg ▸ ht.named_lt path f hn
    · exact ht.named_lt p g hg
  live p g hg := by
    rw [Server.names_rename] at hg
    split_ifs at hg
    · exact Option.some.inj hg ▸ ht.live path f hn
    · exact ht.live p g hg
  single p p' g hg hg' := by
    rw [Server.names_rename] at hg hg'
    split_ifs at hg hg' with hp hp' hold' hold hp'
    · rw [hp, hp']
    · exact absurd (hg'.trans hg.symm) hold'
    · exact absurd (hg.trans hg'.symm) hold
    · exact ht.single p p' g hg hg'
  short := ht.short
  opened := ht.opened

theorem Tidy.fileAt_rename (ht : Tidy s hs) (hn : s.names path = some f) (dst : Str) :
    (s.rename f dst).fileAt =
      Function.update (Function.update s.fileAt path none) dst (some (s.content f)) := by
  funext p
  simp only [Server.fileAt, Server.names_rename, Function.update_apply]
  split_ifs with hp hold hpath hpath
  · rfl
  · rfl
  · exact absurd (ht.single p path f hold hn) hpath
  · exact absurd (hpath ▸ hn) hold
  · rfl

/-- A file is opened, marked and closed. -/
theorem Tidy.delete (ht : Tidy s []) (hn : s.names path = some f) :
    Tidy (((s.openOn f).mark f).close s.handles.length) [] ∧
      (((s.openOn f).mark f).close s.handles.length).fileAt =
        Function.update s.fileAt path none := by
  have hb : Busy ((s.openOn f).mark f) s.handles.length f := (ht.idle.openOn f).mark f
  obtain ⟨hnames, hcontent⟩ := hb.close_marked (Function.update_self ..)
  have hpending := (((s.openOn f).mark f).contents_close hb.held).2.1
  have hnames' : ∀ p, (((s.openOn f).mark f).close s.handles.length).names p =
      if s.names p = some f then none else s.names p := congrFun hnames
  refine ⟨⟨hb.close.named_lt, fun p g hg => ?_, fun p p' g hg hg' => ?_, ?_, fun k g hg => ?_⟩, ?_⟩
  · rw [hnames'] at hg
    split_ifs at hg with hpf
    have hne : g ≠ f := fun heq => hpf (hg.trans (heq ▸ rfl))
    rw [hpending]
    exact (Function.update_of_ne hne ..).trans (ht.live p g hg)
  · rw [hnames'] at hg hg'
    split_ifs at hg hg'
    exact ht.single p p' g hg hg'
  · rw [hcontent]
    exact ht.short
  · rw [hb.close.closed] at hg
    cases hg
  · funext p
    rw [Server.fileAt, hnames', hcontent, Function.update_apply]
    split_ifs with hpf hp hp
    · rfl
    · exact absurd (ht.single p path f hpf hn) hp
    · exact absurd (hp ▸ hn) hpf
    · rfl

end Files

/-! ### Opening, looking and removing -/

section Opening

variable {v : ShareState} {config : SmbStorageConfig} {key : Str} {f : Handle}

/-- A file that is there is opened. -/
theorem openFile_present (hk : ValidKey key) (hdir : v.isDir (keyPath config key) = false)
    (hn : v.files.names (keyPath config key) = some f) (hp : v.files.pending f = false)
    (access : Access) : Ensures Prompt v (openFile config key access) fun v' r =>
      r = .ok v.files.handles.length ∧ v' = v.withFiles (v.files.openOn f) := by
  simp only [openFile, remotePath_of_valid config hk]
  exact ensures_step (fun o _ => ShareState.answer_open hdir hn hp access)
    (ensures_ret.mpr ⟨rfl, rfl⟩)

/-- A file that is missing is reported as missing. -/
theorem openFile_missing (hk : ValidKey key) (hdir : v.isDir (keyPath config key) = false)
    (hn : v.files.names (keyPath config key) = none) (access : Access) :
    Ensures Prompt v (openFile config key access) fun v' r =>
      v' = v ∧ ∃ e, r = .error e ∧ isNotFound e = true := by
  simp only [openFile, remotePath_of_valid config hk]
  refine ensures_request.mpr fun r v' hprompt => ?_
  obtain ⟨o, _, hr, hv⟩ := hprompt
  rw [ShareState.answer_open_absent hdir hn] at hr hv
  subst hr hv
  exact ensures_ret.mpr ⟨rfl, _, rfl, rfl⟩

/-- A file is removed if it is there. -/
theorem removeFile_ensures (hk : ValidKey key) (hdir : v.isDir (keyPath config key) = false)
    (ht : Tidy v.files []) : Ensures Prompt v (removeFile config key) fun v' r =>
      r = .ok () ∧ Tidy v'.files [] ∧ v'.dirs = v.dirs ∧
        v'.files.fileAt = Function.update v.files.fileAt (keyPath config key) none := by
  cases hn : v.files.names (keyPath config key) with
  | none =>
    refine (openFile_missing hk hdir hn .delete).bind fun v' r hr => ?_
    obtain ⟨rfl, e, rfl, he⟩ := hr
    simp only [he, if_true]
    refine ensures_ret.mpr ⟨rfl, ht, rfl, ?_⟩
    rw [← fileAt_eq_none.mpr hn, Function.update_eq_self]
  | some f =>
    refine (openFile_present hk hdir hn (ht.live _ f hn) .delete).bind fun v' r hr => ?_
    obtain ⟨rfl, rfl⟩ := hr
    have hmark : ∀ o : Choice, o.Steady → (v.withFiles (v.files.openOn f)).answer o
        (.setDelete v.files.handles.length) =
          (.ok (), v.withFiles ((v.files.openOn f).mark f)) := by
      intro o _
      simp only [ShareState.answer, ShareState.answerFiles, ShareState.files_withFiles,
        Server.answer_setDelete (ht.idle.openOn f).held]
      rfl
    have hclose : ∀ o : Choice, o.Steady → (v.withFiles ((v.files.openOn f).mark f)).answer o
        (.close v.files.handles.length) = (.ok (), v.withFiles
          (((v.files.openOn f).mark f).close v.files.handles.length)) := fun _ _ => rfl
    obtain ⟨ht', hfiles⟩ := ht.delete hn
    exact ensures_step hmark (ensures_step hclose (ensures_ret.mpr ⟨rfl, ht', rfl, hfiles⟩))

end Opening

/-! ### Bodies -/

/-- The handle that a body reads from. -/
def BodySource.handle? : BodySource → Option Handle
  | .blob file _ _ => some file
  | .external _ | .finished => none

/-- The handle of a body is closed. -/
def ShareState.finish (v : ShareState) (source : BodySource) : ShareState :=
  match source.handle? with
  | none => v
  | some h => v.withFiles (v.files.close h)

/-- What a body delivers: these bytes, and then it ends or fails. -/
inductive Delivers (s : Server) : BodySource → Bytes → Option StorageError → Prop
  | external (items : List (Except StorageError Bytes)) :
    Delivers s (.external items) (okChunks items).flatten (firstError items)
  | blob {file f : Handle} (offset : ℕ) : s.file file = some f → s.pending f = false →
    (s.content f).length ≤ maxOffset →
    Delivers s (.blob file offset (s.content f).length) ((s.content f).drop offset) none

section Bodies

variable {v : ShareState} {source : BodySource} {b : Bytes} {err : Option StorageError}

/-- One item of a body. -/
inductive Follows (v : ShareState) (source : BodySource) (b : Bytes) (err : Option StorageError) :
    ShareState → Option (Except StorageError Bytes) × BodySource → Prop
  | chunk {chunk b' : Bytes} {source' : BodySource} : b = chunk ++ b' →
    Delivers v.files source' b' err → source'.handle? = source.handle? →
    source'.bound < source.bound → Follows v source b err v (some (.ok chunk), source')
  | fails {e : StorageError} {source' : BodySource} : err = some e → b = [] →
    source'.handle? = none →
    Follows v source b err (v.finish source) (some (.error e), source')
  | ends {source' : BodySource} : err = none → b = [] → source'.handle? = none →
    Follows v source b err (v.finish source) (none, source')

theorem next_ensures (h : Delivers v.files source b err) :
    Ensures Prompt v source.next (Follows v source b err) := by
  cases h with
  | external items =>
    cases items with
    | nil => exact ensures_ret.mpr (.ends rfl rfl rfl)
    | cons item items =>
      cases item with
      | error e => exact ensures_ret.mpr (.fails rfl rfl rfl)
      | ok chunk =>
        exact ensures_ret.mpr (.chunk (List.flatten_cons ..) (.external items) rfl
          (by simp [BodySource.bound]))
  | @blob file f offset hf hp hshort =>
    rw [BodySource.next]
    split_ifs with hle
    · have hclose : ∀ o : Choice, o.Steady → v.answer o (.close file) =
          (.ok (), v.withFiles (v.files.close file)) := fun _ _ => rfl
      have hrelease : ∀ o : Choice, o.Steady → (v.withFiles (v.files.close file)).answer o
          .releasePermit = ((), v.withFiles (v.files.close file)) := fun _ _ => rfl
      refine ensures_step hclose (ensures_step hrelease (ensures_ret.mpr ?_))
      exact .ends rfl (List.drop_eq_nil_of_le hle) rfl
    · refine ensures_request.mpr fun r v' hprompt => ?_
      obtain ⟨o, ⟨_, hcount⟩, hr, hv⟩ := hprompt
      simp only [ShareState.answer, ShareState.answerFiles, Server.answer_readBlock hf] at hr hv
      have hsame : v' = v := hv
      subst hr hsame
      generalize hn : min o.count (min ((v'.files.content f).length - offset) readChunkSize) = n
      have hpos : 0 < n := by
        have hchunk : 0 < readChunkSize := by decide
        omega
      have hcut : (v'.files.content f).drop offset =
          ((v'.files.content f).drop offset).take n ++ (v'.files.content f).drop (offset + n) := by
        rw [← List.drop_drop, List.take_append_drop]
      cases hbytes : ((v'.files.content f).drop offset).take n with
      | nil =>
        have hlength := congrArg List.length hbytes
        simp only [List.length_take, List.length_drop, List.length_nil] at hlength
        omega
      | cons c chunk =>
        have hlength : (c :: chunk).length = min n ((v'.files.content f).length - offset) := by
          rw [← hbytes, List.length_take, List.length_drop]
        have hle' : n ≤ (v'.files.content f).length - offset := by omega
        rw [min_eq_left hle'] at hlength
        have hoffset : saturatingAdd offset (c :: chunk).length = offset + n := by
          rw [hlength]
          exact saturatingAdd_eq (m := maxOffset) (by omega) (by decide)
        refine ensures_ret.mpr ?_
        rw [hoffset]
        refine .chunk (by rw [hcut, hbytes]) (.blob (offset + n) hf hp hshort) rfl ?_
        simp only [BodySource.bound]
        omega

end Bodies

/-! ### Writing -/

/-- A file's bytes are replaced. -/
def ShareState.write (v : ShareState) (f : Handle) (b : Bytes) : ShareState :=
  v.withFiles (v.files.setContent f b)

@[simp] theorem ShareState.file_write (v : ShareState) (f : Handle) (b : Bytes) (h : Handle) :
    (v.write f b).files.file h = v.files.file h := rfl

@[simp] theorem ShareState.content_write (v : ShareState) (f : Handle) (b : Bytes) :
    (v.write f b).files.content f = b := Function.update_self ..

@[simp] theorem ShareState.write_write (v : ShareState) (f : Handle) (b b' : Bytes) :
    (v.write f b).write f b' = v.write f b' := by
  simp [write, withFiles, Server.setContent]

theorem ShareState.write_self {v : ShareState} {f : Handle} {b : Bytes}
    (h : v.files.content f = b) : v.write f b = v := by
  subst h
  rw [write, Server.setContent, Function.update_eq_self]
  rfl

section Writing

variable {v : ShareState} {source : BodySource} {b old : Bytes} {err : Option StorageError}
  {h f : Handle} {D : Digest}

/-- Other files can be written while a body is read. -/
theorem Delivers.write (hd : Delivers v.files source b err)
    (hapart : ∀ k, source.handle? = some k → v.files.file k ≠ some f) (b' : Bytes) :
    Delivers (v.write f b').files source b err := by
  cases hd with
  | external items => exact .external items
  | @blob file g offset hg hp hshort =>
    have hne : g ≠ f := fun heq => hapart file rfl (heq ▸ hg)
    have hsame : (v.write f b').files.content g = v.files.content g :=
      Function.update_of_ne hne ..
    rw [← hsame] at hshort ⊢
    exact .blob offset hg hp hshort

/-- Some of a block is taken at the end of the file. -/
theorem writeBlock_prompt {v' : ShareState} {bytes : Bytes} {r : Except (Failure IoError) ℕ}
    (hf : v.files.file h = some f) (hold : v.files.content f = old) (hne : bytes ≠ [])
    (hfit : old.length + bytes.length ≤ maxOffset)
    (hprompt : Prompt v (.writeBlock h bytes old.length) r v') : ∃ n, 0 < n ∧ n ≤ bytes.length ∧
      r = .ok n ∧ v' = v.write f (old ++ bytes.take n) := by
  obtain ⟨o, ⟨hfault, hcount⟩, hr, hv⟩ := hprompt
  have hpos := List.length_pos_iff.mpr hne
  have htaken : (bytes.take o.count).length = min o.count bytes.length := List.length_take
  have hroom : ¬ maxOffset < old.length + (bytes.take o.count).length := by omega
  simp only [ShareState.answer, ShareState.answerFiles, Server.answer, hf, hfault, hold,
    writeAt_end] at hr hv
  rw [if_neg hroom] at hr hv
  refine ⟨min o.count bytes.length, by omega, min_le_right .., by rw [hr, htaken], ?_⟩
  rw [hv, ← List.take_eq_take_min]
  rfl

/-- So can new ones be made. -/
theorem Delivers.create {s : Server} {hs : List Handle} (hd : Delivers s source b err)
    (ht : Tidy s hs) (path : Str) : Delivers (s.create path) source b err := by
  cases hd with
  | external items => exact .external items
  | @blob file g offset hg hp hshort =>
    have hne : g ≠ s.handles.length := (ht.opened file g hg).2.ne
    have hsame : (s.create path).content g = s.content g := Function.update_of_ne hne ..
    rw [← hsame] at hshort ⊢
    refine .blob offset ?_ ((Function.update_of_ne hne ..).trans hp) hshort
    rw [Server.file_create, if_neg (Server.file_lt hg).ne, hg]

theorem Delivers.opened {s : Server} {k : Handle} (hd : Delivers s source b err)
    (hk : source.handle? = some k) : ∃ g, s.file k = some g := by
  cases hd with
  | external items => cases hk
  | blob offset hg hp hshort => exact ⟨_, Option.some.inj hk ▸ hg⟩

/-- A chunk is written whole, however it is cut. -/
theorem writeBlocks_ensures {fuel : ℕ} {bytes : Bytes} (hf : v.files.file h = some f)
    (hold : v.files.content f = old) (hfuel : bytes.length ≤ fuel)
    (hfit : old.length + bytes.length ≤ maxOffset) :
    Ensures Prompt v (writeBlocks h fuel bytes old.length) fun v' r =>
      r = .ok (old.length + bytes.length) ∧ v' = v.write f (old ++ bytes) := by
  have hnone : v = v.write f (old ++ []) := by rw [List.append_nil, ShareState.write_self hold]
  induction fuel generalizing bytes old v with
  | zero =>
    obtain rfl := List.length_eq_zero_iff.mp (Nat.le_zero.mp hfuel)
    exact ensures_ret.mpr ⟨rfl, hnone⟩
  | succ fuel ih =>
    cases bytes with
    | nil => exact ensures_ret.mpr ⟨rfl, hnone⟩
    | cons c bytes =>
      refine ensures_request.mpr fun r v₁ hprompt => ?_
      obtain ⟨n, hpos, hle, rfl, rfl⟩ :=
        writeBlock_prompt hf hold (List.cons_ne_nil c bytes) hfit hprompt
      obtain ⟨n, rfl⟩ : ∃ k, n = k + 1 := ⟨n - 1, by omega⟩
      have hlength : (old ++ (c :: bytes).take (n + 1)).length = old.length + (n + 1) := by
        rw [List.length_append, List.length_take, min_eq_left hle]
      have hoffset : saturatingAdd old.length (n + 1) =
          (old ++ (c :: bytes).take (n + 1)).length := by
        rw [hlength]
        exact saturatingAdd_eq (m := maxOffset) (by omega) (by decide)
      have hrest : ((c :: bytes).drop (n + 1)).length = (c :: bytes).length - (n + 1) :=
        List.length_drop
      simp only [withIoTimeout]
      rw [hoffset]
      refine (ih ((ShareState.file_write ..).trans hf) (ShareState.content_write ..) (by omega)
        (by omega) ?_).mono fun v' r hr => ?_
      · rw [List.append_nil, ShareState.write_write]
      · obtain ⟨rfl, rfl⟩ := hr
        refine ⟨by rw [hlength, hrest]; congr 1; omega, ?_⟩
        rw [ShareState.write_write, List.append_assoc, List.take_append_drop]

/-- What is known of the chunks that were written. -/
def Carried (D : Digest) (hasher : D.Hasher) (n : ℕ) (b : Bytes) (err : Option StorageError)
    (r : Except StorageError (D.Hasher × ℕ)) : Prop :=
  match err with
  | some e => r = .error e
  | none => ∃ chunks : List Bytes, chunks.flatten = b ∧
      r = .ok (chunks.foldl D.update hasher, n + b.length)

/-- A body is written chunk by chunk until it ends or fails. -/
theorem writeChunks_ensures {fuel : ℕ} {hasher : D.Hasher} (hd : Delivers v.files source b err)
    (hf : v.files.file h = some f) (hold : v.files.content f = old)
    (hapart : ∀ k, source.handle? = some k → v.files.file k ≠ some f)
    (hfuel : source.bound ≤ fuel) (hfit : old.length + b.length ≤ maxOffset) :
    Ensures Prompt v (writeChunks D h fuel source hasher old.length) fun v' r =>
      Carried D hasher old.length b err r.1 ∧ r.2.handle? = none ∧
        v' = (v.write f (old ++ b)).finish source := by
  have hend : v.finish source = (v.write f (old ++ [])).finish source := by
    rw [List.append_nil, ShareState.write_self hold]
  induction fuel generalizing v source b hasher old with
  | zero =>
    cases source <;> simp [BodySource.bound] at hfuel
  | succ fuel ih =>
    refine (next_ensures hd).bind fun v₁ r hnext => ?_
    cases hnext with
    | @chunk chunk b' source' hb hd' hhandle hbound =>
      subst hb
      rw [List.length_append] at hfit
      refine (writeBlocks_ensures hf hold le_rfl (by omega)).bind fun v₂ r hwritten => ?_
      obtain ⟨rfl, rfl⟩ := hwritten
      have hlength : old.length + chunk.length = (old ++ chunk).length :=
        (List.length_append ..).symm
      simp only [hlength]
      have hapart' : ∀ k, source'.handle? = some k → v.files.file k ≠ some f := hhandle ▸ hapart
      refine Ensures.mono (ih (hd'.write hapart' _) ((ShareState.file_write ..).trans hf)
        (ShareState.content_write ..) hapart' (by omega) (by omega) ?_) fun v' r hr => ?_
      · rw [List.append_nil, ShareState.write_write]
      · obtain ⟨hcarried, hnone, hv⟩ := hr
        refine ⟨?_, hnone, ?_⟩
        · cases err with
          | some e => exact hcarried
          | none =>
            obtain ⟨chunks, rfl, hr⟩ := hcarried
            refine ⟨chunk :: chunks, rfl, ?_⟩
            rw [hr, ← hlength, List.foldl_cons, List.length_append, Nat.add_assoc]
        · rw [hv, ShareState.finish, ShareState.finish, hhandle, ShareState.write_write,
            List.append_assoc]
    | fails he hb hnone =>
      subst he hb
      exact ensures_ret.mpr ⟨rfl, hnone, hend⟩
    | ends he hb hnone =>
      subst he hb
      exact ensures_ret.mpr ⟨⟨[], rfl, rfl⟩, hnone, hend⟩

/-- What the path of a written file holds in the end. -/
def storedBytes (b : Bytes) : Option StorageError → Option Bytes
  | none => some b
  | some _ => none

/-- What writing a file returns. -/
def writeResult (D : Digest) (b : Bytes) :
    Option StorageError → Except StorageError BlobWriteOutcome
  | none => .ok ⟨b.length, sha256Hex D b⟩
  | some e => .error e

/-- The handle of a body is closed and nothing else changes. -/
theorem Delivers.finish (hd : Delivers v.files source b err) :
    (v.finish source).files.names = v.files.names ∧
      (v.finish source).files.content = v.files.content ∧
      (v.finish source).files.pending = v.files.pending ∧ (v.finish source).dirs = v.dirs ∧
        ∀ k, source.handle? ≠ some k → (v.finish source).files.file k = v.files.file k := by
  cases hd with
  | external items => exact ⟨rfl, rfl, rfl, rfl, fun _ _ => rfl⟩
  | @blob file g offset hg hp hshort =>
    obtain ⟨hnames, hcontent⟩ := close_kept hg hp
    refine ⟨hnames, hcontent, (v.files.contents_close hg).2.1, rfl, fun k hk => ?_⟩
    exact v.files.file_close_of_ne fun heq => hk (heq ▸ rfl)

theorem Delivers.finish_tidy {hs : List Handle} (hd : Delivers v.files source b err)
    (ht : Tidy v.files (source.handle?.toList ++ hs)) : Tidy (v.finish source).files hs := by
  cases hd with
  | external items => exact ht
  | blob offset hg hp hshort => exact ht.close hg hp

/-- A file that was just created is filled, or removed again. -/
theorem fillFile_ensures {config : SmbStorageConfig} {key : Str} (hk : ValidKey key)
    (hdir : v.isDir (keyPath config key) = false) (hd : Delivers v.files source b err)
    (ht : Tidy v.files (source.handle?.toList ++ [h])) (hf : v.files.file h = some f)
    (hn : v.files.names (keyPath config key) = some f) (hnew : v.files.content f = [])
    (hother : source.handle? ≠ some h)
    (hapart : ∀ k, source.handle? = some k → v.files.file k ≠ some f)
    (hfit : b.length ≤ maxOffset) :
    Ensures Prompt v (fillFile D config key h source) fun v' r =>
      r.1 = writeResult D b err ∧ r.2.handle? = none ∧ Tidy v'.files [] ∧ v'.dirs = v.dirs ∧
        v'.files.fileAt =
          Function.update v.files.fileAt (keyPath config key) (storedBytes b err) := by
  have hd' := hd.write hapart b
  obtain ⟨hnames, hcontent, hpending, hdirs, hfile⟩ := hd'.finish
  have ht₁ : Tidy ((v.write f b).finish source).files [h] :=
    hd'.finish_tidy (ht.setContent hfit f)
  have hf₁ : ((v.write f b).finish source).files.file h = some f := (hfile h hother).trans hf
  have hp₁ : ((v.write f b).finish source).files.pending f = false := by
    rw [hpending]
    exact ht.live _ f hn
  have hat₁ : ((v.write f b).finish source).files.fileAt =
      Function.update v.files.fileAt (keyPath config key) (some b) := by
    rw [← ht.fileAt_setContent hn b]
    funext p
    rw [Server.fileAt, hnames, hcontent]
    rfl
  have ht₂ := ht₁.close hf₁ hp₁
  have hat₂ := (fileAt_close hf₁ hp₁).trans hat₁
  have hclose : ∀ o : Choice, o.Steady → ((v.write f b).finish source).answer o (.close h) =
      (.ok (), ((v.write f b).finish source).withFiles
        (((v.write f b).finish source).files.close h)) := fun _ _ => rfl
  have hflush : ∀ o : Choice, o.Steady → ((v.write f b).finish source).answer o (.flush h) =
      (.ok (), (v.write f b).finish source) := by
    intro o ho
    simp only [ShareState.answer, ShareState.answerFiles, Server.answer_flush hf₁ ho.1]
    rfl
  refine (writeChunks_ensures hd hf hnew hapart le_rfl (by simpa using hfit)).bind
    fun v₁ r hr => ?_
  obtain ⟨result, source'⟩ := r
  obtain ⟨hcarried, hnone, rfl⟩ := hr
  simp only [List.nil_append]
  cases err with
  | none =>
    obtain ⟨chunks, rfl, rfl⟩ := hcarried
    refine ensures_step hflush (ensures_step hclose (ensures_ret.mpr ?_))
    refine ⟨?_, hnone, ht₂, hdirs, hat₂⟩
    simp only [writeResult, sha256Hex, D.finalize_foldl, List.length_nil, Nat.zero_add]
  | some e =>
    obtain rfl : result = .error e := hcarried
    have hdir₂ : (((v.write f b).finish source).withFiles
        (((v.write f b).finish source).files.close h)).isDir (keyPath config key) = false := by
      rw [ShareState.isDir_withFiles, ShareState.isDir, hdirs]
      exact hdir
    have hremove := removeFile_ensures hk hdir₂ ht₂
    have hcleaned : Ensures Prompt ((v.write f b).finish source) (cleanupFailedWrite config key h)
        fun v' _ => Tidy v'.files [] ∧ v'.dirs = v.dirs ∧
          v'.files.fileAt = Function.update v.files.fileAt (keyPath config key) none := by
      refine ensures_step hclose (hremove.bind fun v' r hr => ensures_ret.mpr ?_)
      obtain ⟨_, ht', hdirs', hat⟩ := hr
      refine ⟨ht', hdirs'.trans hdirs, ?_⟩
      rw [hat, ShareState.files_withFiles, hat₂, Function.update_idem]
    exact hcleaned.bind fun v' _ hv' => ensures_ret.mpr ⟨rfl, hnone, hv'⟩

end Writing

/-! ### Whole writes -/

/-- Nothing is open, the paths hold these bytes, and the directories of a path may be new. -/
structure Leaves (path : Path) (fileAt : Str → Option Bytes) (v v' : ShareState) : Prop where
  tidy : Tidy v'.files []
  files : v'.files.fileAt = fileAt
  dirs : ∀ d, v'.isDir d = true ↔
    v.isDir d = true ∨ ∃ q, q ≠ [] ∧ q <+: path ∧ d = ['\\'].intercalate q

section Writes

variable {v v₁ v' : ShareState} {source : BodySource} {b : Bytes} {err : Option StorageError}
  {config : SmbStorageConfig} {key : Str} {D : Digest} {path : Path}
  {files files' : Str → Option Bytes}

/-- Other paths do not become directories. -/
theorem Leaves.isDir_eq (hl : Leaves path files v v') {p : Str}
    (hne : ∀ q, q <+: path → ['\\'].intercalate q ≠ p) : v'.isDir p = v.isDir p := by
  rw [Bool.eq_iff_iff, hl.dirs]
  constructor
  · rintro (hdir | ⟨q, _, hpre, heq⟩)
    · exact hdir
    · exact absurd heq.symm (hne q hpre)
  · exact Or.inl

/-- One after another, in the same directories. -/
theorem Leaves.trans (hl : Leaves path files v v₁) (hl' : Leaves path files' v₁ v') :
    Leaves path files' v v' where
  tidy := hl'.tidy
  files := hl'.files
  dirs d := by
    rw [hl'.dirs, hl.dirs, or_assoc, or_self]

theorem Leaves.of_dirs (ht : Tidy v'.files []) (hfiles : v'.files.fileAt = files)
    (hdirs : v'.dirs = v.dirs) : Leaves [] files v v' where
  tidy := ht
  files := hfiles
  dirs d := by
    simp [ShareState.isDir, hdirs]

/-- What comes after makes no directory. -/
theorem Leaves.then (hl : Leaves path files v v₁) (hl' : Leaves [] files' v₁ v') :
    Leaves path files' v v' where
  tidy := hl'.tidy
  files := hl'.files
  dirs d := by
    rw [hl'.dirs, hl.dirs]
    simp

/-- A path that is not in the way stays so. -/
theorem Leaves.clear (hl : Leaves path files v v')
    (hsame : ∀ q, q ≠ [] → q <+: path → files (['\\'].intercalate q) = none) : Clear v' path := by
  intro q hne hpre
  rw [← fileAt_eq_none, hl.files]
  exact hsame q hne hpre

theorem not_prefix_append_singleton (p : Path) (name : Str) : ¬ p ++ [name] <+: p := by
  intro hpre
  have hlen := hpre.length_le
  rw [List.length_append, List.length_singleton] at hlen
  omega

/-- Once the directories are there, so is the one that the file goes to, and the path is free. -/
theorem Grown.ready (hroot : ValidRoot config) (hk : ValidKey key)
    (hg : Grown (parentPath config key) v v₁) (hdir : v.isDir (keyPath config key) = false) :
    v₁.isDir (keyPath config key) = false ∧
      v₁.isDir (directoryPath (keyPath config key)) = true := by
  obtain ⟨name, hback, hslash, hsplit, hplain, hpath⟩ := keyPath_split hroot hk
  constructor
  · rw [← Bool.not_eq_true, hg.dirs]
    rintro (hd | ⟨q, _, hpre, heq⟩)
    · rw [hdir] at hd
      cases hd
    · have hq : Plain q := fun c hc => hplain c (hpre.subset hc)
      have hwhole : Plain (parentPath config key ++ [name]) := by
        rw [parentPath, List.append_assoc, ← hsplit]
        exact plain_append (plain_rootPath hroot) (plain_of_valid hk)
      rw [hpath] at heq
      exact not_prefix_append_singleton _ name (intercalate_injective hwhole hq heq ▸ hpre)
  · rw [directoryPath_keyPath hroot hk, hg.dirs]
    by_cases hnil : parentPath config key = []
    · rw [hnil]
      exact Or.inl rfl
    · exact Or.inr ⟨_, hnil, List.prefix_refl _, rfl⟩

theorem drop_closed (h : source.handle? = none) : source.drop = .ret () := by
  cases source with
  | external | finished => rfl
  | blob => cases h

/-- A file that is not there yet is created and filled. -/
theorem createAndFill_ensures (hroot : ValidRoot config) (hk : ValidKey key)
    (hclear : Clear v (parentPath config key)) (hdir : v.isDir (keyPath config key) = false)
    (hn : v.files.names (keyPath config key) = none) (hd : Delivers v.files source b err)
    (ht : Tidy v.files source.handle?.toList) (hfit : b.length ≤ maxOffset) (exclusive : Bool) :
    Ensures Prompt v (createAndFill D config key source exclusive) fun v' r =>
      r.1 = writeResult D b err ∧ r.2.handle? = none ∧ Leaves (parentPath config key)
        (Function.update v.files.fileAt (keyPath config key) (storedBytes b err)) v v' := by
  refine (ensureParentDirectories_ensures hroot hk hclear).bind fun v₁ r hr => ?_
  obtain ⟨rfl, hgrown⟩ := hr
  obtain ⟨hdir₁, hparent⟩ := hgrown.ready hroot hk hdir
  simp only [remotePath_of_valid config hk]
  rw [← hgrown.files] at hn hd ht
  have hcreate : ∀ o : Choice, o.Steady → v₁.answer o (.createFile (keyPath config key) exclusive) =
      (.ok (.file v₁.files.handles.length), v₁.withFiles (v₁.files.create (keyPath config key))) :=
    fun _ _ => ShareState.answer_create hdir₁ hparent hn exclusive
  have hsub : v₁.files.handles.length :: source.handle?.toList ⊆
      source.handle?.toList ++ [v₁.files.handles.length] := by simp
  have hopen : (v₁.files.create (keyPath config key)).file v₁.files.handles.length =
      some v₁.files.handles.length := by rw [Server.file_create, if_pos rfl]
  have hnamed : (v₁.files.create (keyPath config key)).names (keyPath config key) =
      some v₁.files.handles.length := by rw [Server.names_create, if_pos rfl]
  have hother : source.handle? ≠ some v₁.files.handles.length := by
    intro heq
    obtain ⟨g, hg⟩ := hd.opened heq
    exact (Server.file_lt hg).ne rfl
  have hapart : ∀ k, source.handle? = some k →
      (v₁.files.create (keyPath config key)).file k ≠ some v₁.files.handles.length := by
    intro k hk
    obtain ⟨g, hg⟩ := hd.opened hk
    rw [Server.file_create, if_neg (Server.file_lt hg).ne, hg]
    exact fun heq => (ht.opened k g hg).2.ne (Option.some.inj heq)
  have hfill := fillFile_ensures (D := D) (v := v₁.withFiles (v₁.files.create (keyPath config key)))
    hk hdir₁ (hd.create ht _) ((ht.create (keyPath config key)).of_subset hsub) hopen hnamed
    (Function.update_self ..) hother hapart hfit
  refine ensures_step hcreate (hfill.mono fun v' r hr => ?_)
  obtain ⟨hresult, hnone, ht', hdirs, hat⟩ := hr
  refine ⟨hresult, hnone, ht', ?_, fun d => ?_⟩
  · rw [hat, ShareState.files_withFiles, ht.fileAt_create, Function.update_idem, hgrown.files]
  · rw [← hgrown.dirs, ShareState.isDir, hdirs]
    rfl

/-- The limiter admits a call. -/
theorem transferPermit_ensures :
    Ensures Prompt v transferPermit fun v' r => r = .ok () ∧ v' = v := by
  have hacquire : ∀ o : Choice, o.Steady → v.answer o .acquirePermit = (true, v) := fun _ _ => rfl
  exact ensures_step hacquire (ensures_ret.mpr ⟨rfl, rfl⟩)

theorem writeFile_ensures (hroot : ValidRoot config) (hk : ValidKey key)
    (hclear : Clear v (parentPath config key)) (hdir : v.isDir (keyPath config key) = false)
    (hn : v.files.names (keyPath config key) = none) (hd : Delivers v.files source b err)
    (ht : Tidy v.files source.handle?.toList) (hfit : b.length ≤ maxOffset) (exclusive : Bool) :
    Ensures Prompt v (writeFile D config key source exclusive) fun v' r =>
      r = writeResult D b err ∧ Leaves (parentPath config key)
        (Function.update v.files.fileAt (keyPath config key) (storedBytes b err)) v v' := by
  refine transferPermit_ensures.bind fun v₁ r hr => ?_
  obtain ⟨rfl, rfl⟩ := hr
  refine (createAndFill_ensures hroot hk hclear hdir hn hd ht hfit exclusive).bind
    fun v₂ r hr => ?_
  obtain ⟨result, source'⟩ := r
  obtain ⟨rfl, hnone, hleaves⟩ := hr
  simp only [drop_closed hnone]
  have hrelease : ∀ o : Choice, o.Steady → v₂.answer o .releasePermit = ((), v₂) := fun _ _ => rfl
  exact ensures_step hrelease (ensures_ret.mpr ⟨rfl, hleaves⟩)

/-- A file that is there is not created again. -/
theorem writeFile_collides {f : Handle} (hroot : ValidRoot config) (hk : ValidKey key)
    (hclear : Clear v (parentPath config key)) (hdir : v.isDir (keyPath config key) = false)
    (hn : v.files.names (keyPath config key) = some f) (hclosed : source.handle? = none)
    (ht : Tidy v.files []) : Ensures Prompt v (writeFile D config key source true) fun v' r =>
      (∃ e, r = .error e ∧ isCollision e = true) ∧
        Leaves (parentPath config key) v.files.fileAt v v' := by
  refine transferPermit_ensures.bind fun v₁ r hr => ?_
  obtain ⟨rfl, rfl⟩ := hr
  have hcreate : Ensures Prompt v₁ (createAndFill D config key source true) fun v' r =>
      (∃ e, r = (.error e, source) ∧ isCollision e = true) ∧
        Grown (parentPath config key) v₁ v' := by
    refine (ensureParentDirectories_ensures hroot hk hclear).bind fun v₂ r hr => ?_
    obtain ⟨rfl, hgrown⟩ := hr
    obtain ⟨hdir₂, hparent⟩ := hgrown.ready hroot hk hdir
    simp only [remotePath_of_valid config hk]
    rw [← hgrown.files] at hn
    refine ensures_request.mpr fun r v₃ hprompt => ?_
    obtain ⟨o, _, hr, hv⟩ := hprompt
    rw [ShareState.answer_create_taken hdir₂ hparent hn] at hr hv
    subst hr hv
    exact ensures_ret.mpr ⟨⟨_, rfl, rfl⟩, hgrown⟩
  refine hcreate.bind fun v₂ r hr => ?_
  obtain ⟨⟨e, rfl, he⟩, hgrown⟩ := hr
  simp only [drop_closed hclosed]
  have hrelease : ∀ o : Choice, o.Steady → v₂.answer o .releasePermit = ((), v₂) := fun _ _ => rfl
  refine ensures_step hrelease (ensures_ret.mpr ⟨⟨e, rfl, he⟩, ?_, ?_, hgrown.dirs⟩)
  · rw [hgrown.files]
    exact ht
  · rw [hgrown.files]

/-- A file that is open only here is moved over one that is not open. -/
theorem answer_rename {path dst : Str} {f : Handle} {o : Choice}
    (hdir : v.isDir dst = false) (hparent : v.isDir (directoryPath dst) = true)
    (ht : Tidy v.files []) (hn : v.files.names path = some f) (hne : dst ≠ path) :
    (v.withFiles (v.files.openOn f)).answer o (.setRename v.files.handles.length dst true) =
      (.ok (), v.withFiles ((v.files.openOn f).rename f dst)) := by
  have hbusy := ht.idle.openOn f
  simp only [ShareState.answer, ShareState.isDir_withFiles, hdir, hparent, Bool.false_eq_true,
    if_false, if_true, ShareState.answerFiles, ShareState.files_withFiles, Server.answer,
    hbusy.held]
  cases hg : (v.files.openOn f).names dst with
  | none => rfl
  | some g =>
    have hclosed : ¬ some g ∈ (v.files.openOn f).handles := by
      rw [Server.mem_handles]
      rintro ⟨h, hh⟩
      by_cases heq : h = v.files.handles.length
      · rw [heq, hbusy.held] at hh
        obtain rfl := Option.some.inj hh
        exact hne (ht.single dst path f hg hn)
      · rw [hbusy.others h heq] at hh
        cases hh
    simp only [Bool.true_eq_false, if_false, hclosed]
    rfl

/-- A file is moved, over another if there is one. -/
theorem rename_ensures {src dst : Str} {f : Handle} (hroot : ValidRoot config) (hs : ValidKey src)
    (hd : ValidKey dst) (hclear : Clear v (parentPath config dst))
    (hdir : v.isDir (keyPath config dst) = false)
    (hsrc : ∀ v', Grown (parentPath config dst) v v' → v'.isDir (keyPath config src) = false)
    (hn : v.files.names (keyPath config src) = some f)
    (hne : keyPath config dst ≠ keyPath config src) (ht : Tidy v.files []) :
    Ensures Prompt v (rename config src dst true) fun v' r => r = .ok () ∧
      Leaves (parentPath config dst) (Function.update (Function.update v.files.fileAt
        (keyPath config src) none) (keyPath config dst) (some (v.files.content f))) v v' := by
  refine (ensureParentDirectories_ensures hroot hd hclear).bind fun v₁ r hr => ?_
  obtain ⟨rfl, hgrown⟩ := hr
  obtain ⟨hdir₁, hparent⟩ := hgrown.ready hroot hd hdir
  rw [← hgrown.files] at hn ht ⊢
  have hlive := ht.live _ f hn
  refine (openFile_present hs (hsrc v₁ hgrown) hn hlive .readDelete).bind fun v₂ r hr => ?_
  obtain ⟨rfl, rfl⟩ := hr
  simp only [mappedKey_of_valid config hd]
  have hheld : ((v₁.files.openOn f).rename f (keyPath config dst)).file v₁.files.handles.length =
      some f := (ht.idle.openOn f).held
  have hrename : ∀ o : Choice, o.Steady → (v₁.withFiles (v₁.files.openOn f)).answer o
      (.setRename v₁.files.handles.length (keyPath config dst) true) =
        (.ok (), v₁.withFiles ((v₁.files.openOn f).rename f (keyPath config dst))) :=
    fun _ _ => answer_rename hdir₁ hparent ht hn hne
  have hclose : ∀ o : Choice, o.Steady →
      (v₁.withFiles ((v₁.files.openOn f).rename f (keyPath config dst))).answer o
        (.close v₁.files.handles.length) = (.ok (), v₁.withFiles
          (((v₁.files.openOn f).rename f (keyPath config dst)).close v₁.files.handles.length)) :=
    fun _ _ => rfl
  have hopen := ht.openOn hn
  refine ensures_step hrename (ensures_step hclose (ensures_ret.mpr ⟨rfl, ?_, ?_, hgrown.dirs⟩))
  · exact (hopen.rename hn (keyPath config dst)).close hheld hlive
  · rw [ShareState.files_withFiles, fileAt_close hheld hlive]
    exact hopen.fileAt_rename hn (keyPath config dst)

/-- A directory that a key is in is not the path of the key. -/
theorem directory_ne_keyPath (hroot : ValidRoot config) (hk : ValidKey key) {q : Path}
    (hpre : q <+: parentPath config key) : ['\\'].intercalate q ≠ keyPath config key := by
  obtain ⟨name, _, _, hsplit, hplain, hpath⟩ := keyPath_split hroot hk
  intro heq
  have hwhole : Plain (parentPath config key ++ [name]) := by
    rw [parentPath, List.append_assoc, ← hsplit]
    exact plain_append (plain_rootPath hroot) (plain_of_valid hk)
  have hq : Plain q := fun c hc => hplain c (hpre.subset hc)
  obtain rfl := intercalate_injective hq hwhole (heq.trans hpath)
  exact not_prefix_append_singleton _ name hpre

variable (config) in
/-- The temporary file is in the same directory. -/
theorem parentPath_tempBeside (u : Uuid) (hk : ValidKey key) :
    parentPath config (tempBeside u key) = parentPath config key := by
  rw [parentPath, splitOn_tempBeside u hk, List.dropLast_concat]
  rfl

/-- Giving an upload up removes what there is of it. -/
theorem giveUp_ensures {α : Type} {temp : Str} {e : StorageError} {result : α}
    (hk : ValidKey temp) (hdir : v.isDir (keyPath config temp) = false) (ht : Tidy v.files []) :
    Ensures Prompt v (do
        if e.isRetryable then
          let _ ← request .reconnect
        let _ ← removeFile config temp
        return result) fun v' r =>
      r = result ∧
        Leaves [] (Function.update v.files.fileAt (keyPath config temp) none) v v' := by
  have hremove : Ensures Prompt v ((removeFile config temp).bind fun _ => .ret result) fun v' r =>
      r = result ∧
        Leaves [] (Function.update v.files.fileAt (keyPath config temp) none) v v' := by
    refine (removeFile_ensures hk hdir ht).bind fun v₁ r hr => ?_
    obtain ⟨_, ht', hdirs, hfiles⟩ := hr
    exact ensures_ret.mpr ⟨rfl, .of_dirs ht' hfiles hdirs⟩
  split_ifs
  · have hreconnect : ∀ o : Choice, o.Steady → v.answer o .reconnect = (.ok (), v) := fun _ _ => rfl
    exact ensures_step hreconnect hremove
  · exact hremove

/-- A whole upload: the body is at the key, or nothing has changed. -/
theorem putBlob_ensures {u : Uuid} (hroot : ValidRoot config) (hk : ValidKey key)
    (hclear : Clear v (parentPath config key)) (hdir : v.isDir (keyPath config key) = false)
    (hfree : v.files.names (keyPath config (tempBeside u key)) = none)
    (hfreeDir : v.isDir (keyPath config (tempBeside u key)) = false)
    (hd : Delivers v.files source b err) (ht : Tidy v.files source.handle?.toList)
    (hfit : b.length ≤ maxOffset) :
    Ensures Prompt v (putBlob D config u key source) fun v' r =>
      r = writeResult D b err ∧ Leaves (parentPath config key)
        (err.elim (Function.update v.files.fileAt (keyPath config key) (some b))
          fun _ => v.files.fileAt) v v' := by
  have htemp := validKey_tempBeside u hk
  have hparent := parentPath_tempBeside config u hk
  have hpaths := tempPath_ne config u key
  have hnone : Function.update v.files.fileAt (keyPath config (tempBeside u key)) none =
      v.files.fileAt := by
    rw [← fileAt_eq_none.mpr hfree, Function.update_eq_self]
  simp only [putBlob, validateBlobKey_eq_ok.mpr hk, tempKey_of_valid u hk]
  have hclear' := hclear
  rw [← hparent] at hclear'
  refine (writeFile_ensures hroot htemp hclear' hfreeDir hfree hd ht hfit false).bind
    fun v₁ r hr => ?_
  obtain ⟨rfl, hleaves⟩ := hr
  rw [hparent] at hleaves
  have hdir₁ : v₁.isDir (keyPath config (tempBeside u key)) = false := by
    rw [hleaves.isDir_eq fun q hq => directory_ne_keyPath hroot htemp (hparent ▸ hq), hfreeDir]
  cases err with
  | some e =>
    refine (giveUp_ensures htemp hdir₁ hleaves.tidy).mono fun v' r hr => ?_
    obtain ⟨rfl, hleaves'⟩ := hr
    refine ⟨rfl, hleaves.then ?_⟩
    rw [hleaves.files, Function.update_idem, hnone] at hleaves'
    exact hleaves'
  | none =>
    have hat : v₁.files.fileAt (keyPath config (tempBeside u key)) = some b := by
      rw [hleaves.files, Function.update_self]
      rfl
    obtain ⟨f, hn, hb⟩ := Option.map_eq_some_iff.mp hat
    have hclear₁ : Clear v₁ (parentPath config key) := hleaves.clear fun q hne hq => by
      rw [Function.update_of_ne (directory_ne_keyPath hroot htemp (hparent ▸ hq))]
      exact fileAt_eq_none.mpr (hclear q hne hq)
    have hdirKey : v₁.isDir (keyPath config key) = false := by
      rw [hleaves.isDir_eq fun q hq => directory_ne_keyPath hroot hk hq, hdir]
    have hrename := rename_ensures hroot htemp hk hclear₁ hdirKey
      (fun v' hg => (Grown.ready hroot htemp (hparent.symm ▸ hg) hdir₁).1) hn hpaths.symm
      hleaves.tidy
    refine hrename.bind fun v₂ r hr => ?_
    obtain ⟨rfl, hleaves'⟩ := hr
    refine ensures_ret.mpr ⟨rfl, hleaves.trans ?_⟩
    rw [hleaves.files, Function.update_idem, hnone, hb] at hleaves'
    exact hleaves'

end Writes

end GraphqlOrmStorage.Smb
