import GraphqlOrmStorage.LocalListing
import GraphqlOrmStorage.Smb

/-!
# Listing through the SMB backend

`collect_keys` walks the whole share below the configured root, one directory
query after another, and sorts what it found; the prefix and the continuation
token only filter the sorted keys. The walk uses requests of its own, on
directories instead of files. Against a share that answers truthfully it is
shown to find every file once, other than the temporary ones, whatever order
the entries of a directory come in.
-/
namespace GraphqlOrmStorage.Smb

open Text Program Prog

/-- `FileFullDirectoryInformation`, the parts that are read. -/
structure DirEntry where
  name : Str
  isDirectory : Bool
  deriving DecidableEq

inductive ListCall where
  /-- `make_open_existing` with the right to list. -/
  | openDirectory (path : Str)
  | closeResource (h : Handle)
  /-- `Directory::query` for every name, with its stream read to the end. -/
  | query (h : Handle)
  | close (h : Handle)

abbrev ListCall.Reply : ListCall → Type
  | openDirectory _ => Except (Failure SmbError) Resource
  | closeResource _ => Except SmbError Unit
  | query _ => Except SmbError (List (Except SmbError DirEntry))
  | close _ => Except (Failure SmbError) Unit

abbrev ListRequests : Interface := ⟨ListCall, ListCall.Reply⟩

abbrev ListM := Prog ListRequests

/-- A single request. -/
def listRequest (c : ListCall) : ListM (ListCall.Reply c) := Prog.perform (I := ListRequests) c

variable {α : Type}

theorem runsTo_listRequest {c : ListCall} {k : ListCall.Reply c → ListM α}
    {log : List (Sigma ListRequests.Reply)} {a : α} : RunsTo ((listRequest c).bind k) log a ↔
      ∃ r rest, log = ⟨c, r⟩ :: rest ∧ RunsTo (k r) rest a := runsTo_call

/-! ### The walk -/

/-- `is_temp_key`; which texts `Uuid::parse_str` takes is left to the library. -/
def isTempKey (parsesUuid : Str → Bool) (key : Str) : Bool :=
  match stripSuffix tempSuffix ((key.splitOn '/').getLast?.getD []) with
  | none => false
  | some stem => (rsplitOnce '.' stem).any fun split => parsesUuid split.2

/-- The path of an entry. -/
def childPath (directory name : Str) : Str :=
  if directory = [] then name else directory ++ '/' :: name

/-- The key of a file that was found. -/
def keyOfChild (config : SmbStorageConfig) (child : Str) : Str :=
  match config.rootPrefix with
  | some root => (( stripPrefix root child).bind ( stripPrefix ['/'])).getD child
  | none => child

/-- The loop over the entries of a directory. The stack is given top first. -/
def addEntries (parsesUuid : Str → Bool) (config : SmbStorageConfig) (directory : Str) :
    List (Except SmbError DirEntry) → List Str → List Str →
      Except StorageError (List Str × List Str)
  | [], stack, keys => .ok (stack, keys)
  | .error error :: _, _, _ => .error (mapSmbError "list".toList error)
  | .ok entry :: entries, stack, keys =>
    let child := childPath directory entry.name
    if entry.name = ['.'] ∨ entry.name = ['.', '.'] then
      addEntries parsesUuid config directory entries stack keys
    else if entry.isDirectory then
      addEntries parsesUuid config directory entries (child :: stack) keys
    else if isTempKey parsesUuid child then
      addEntries parsesUuid config directory entries stack keys
    else addEntries parsesUuid config directory entries stack (keys ++ [keyOfChild config child])

/-- The loop of `collect_keys`; the first argument bounds the directories it visits. -/
def collectLoop (parsesUuid : Str → Bool) (config : SmbStorageConfig) :
    ℕ → List Str → List Str → ListM (Except Stop (List Str))
  | _, [], keys => return .ok keys
  | 0, _ :: _, _ => return .error .outOfFuel
  | fuel + 1, directory :: stack, keys => do
    match withTimeout "list".toList
        (← listRequest (.openDirectory (replaceChar '/' '\\' directory))) with
    | .error e =>
      if isNotFound e then collectLoop parsesUuid config fuel stack keys
      else return .error (.error e)
    | .ok (.directory h) =>
      match ← listRequest (.query h) with
      | .error error => return .error (.error (mapSmbError "list".toList error))
      | .ok entries =>
        match addEntries parsesUuid config directory entries stack keys with
        | .error e => return .error (.error e)
        | .ok (stack, keys) =>
          match withTimeout "close".toList (← listRequest (.close h)) with
          | .error e => return .error (.error e)
          | .ok () => collectLoop parsesUuid config fuel stack keys
    | .ok other => do
      let _ ← listRequest (.closeResource other.handle)
      collectLoop parsesUuid config fuel stack keys

/-- `collect_keys`. -/
def collectKeys (parsesUuid : Str → Bool) (config : SmbStorageConfig) (fuel : ℕ) :
    ListM (Except Stop (List Str)) := do
  match ← collectLoop parsesUuid config fuel [config.rootPrefix.getD []] [] with
  | .error stop => return .error stop
  | .ok keys => return .ok (keys.insertionSort (· ≤ ·))

/-- `list_blobs_page`. -/
def listBlobsPage (parsesUuid : Str → Bool) (config : SmbStorageConfig) (fuel : ℕ) (pre : Str)
    (continuation : Option Str) (limit : ℕ) : ListM (Except Stop BlobListPage) :=
  match validateBlobPrefix pre with
  | .error e => return .error (.error e)
  | .ok () =>
    if limit = 0 then
      return .error (.error
        (.preconditionFailed pre "list limit must be greater than zero".toList))
    else do
      match ← collectKeys parsesUuid config fuel with
      | .error stop => return .error stop
      | .ok keys =>
        let keys := keys.filter fun key => pre.isPrefixOf key && continuation.all (· < key)
        if limit < keys.length then
          return .ok ⟨keys.take limit, (keys.take limit).getLast?⟩
        else return .ok ⟨keys, none⟩

/-- The loop of `list_blobs`, for pages of `limit` keys. -/
def drainPages (parsesUuid : Str → Bool) (config : SmbStorageConfig) (walkFuel : ℕ) (pre : Str)
    (limit : ℕ) : ℕ → Option Str → List Str → ListM (Except Stop (List Str))
  | 0, _, _ => return .error .outOfFuel
  | fuel + 1, continuation, keys => do
    match ← listBlobsPage parsesUuid config walkFuel pre continuation limit with
    | .error stop => return .error stop
    | .ok page =>
      match page.nextContinuation with
      | none => return .ok (keys ++ page.keys)
      | some token =>
        drainPages parsesUuid config walkFuel pre limit fuel (some token) (keys ++ page.keys)

/-- `list_blobs`. -/
def listBlobs (parsesUuid : Str → Bool) (config : SmbStorageConfig) (fuel : ℕ) (pre : Str) :
    ListM (Except Stop (List Str)) :=
  drainPages parsesUuid config fuel pre 1000 fuel none []

/-! ### Shares -/

theorem legalName_of_slashless {c : Str} (h : decide (LegalName c ∧ '\\' ∉ c) = true) :
    LegalName c :=
  (of_decide_eq_true h).1

/-- What a share holds; its names have no separator in them. -/
structure Share where
  tree : FileTree
  names : ∀ c, tree.limits.acceptsName c → '\\' ∉ c

/-- The path a request names. -/
def sharePath (target : Str) : Path := if target = [] then [] else target.splitOn '\\'

/-- The entries that a walk follows. -/
def DirEntry.IsChild (e : DirEntry) : Prop := e.name ≠ ['.'] ∧ e.name ≠ ['.', '.']

instance (e : DirEntry) : Decidable e.IsChild := inferInstanceAs (Decidable (_ ∧ _))

/-- The replies of a server with this share: directories open as such, what is not there is
reported so, and a query returns each child once, in any order. -/
def ServesListing (share : Share) (pathOf : Handle → Path) : Sigma ListRequests.Reply → Prop
  | ⟨.openDirectory target, reply⟩ =>
    match share.tree.lookup (sharePath target) with
    | some .dir => ∃ h, reply = .ok (.directory h) ∧ pathOf h = sharePath target
    | some (.file _ _) => ∃ h, reply = .ok (.file h)
    | none => ∃ status text, (status = .objectNameNotFound ∨ status = .objectPathNotFound) ∧
        reply = .error (.failed ⟨.status status, text⟩)
  | ⟨.query h, reply⟩ => ∃ entries : List DirEntry, reply = .ok (entries.map .ok) ∧
      entries.Nodup ∧ ∀ e : DirEntry, e.IsChild → (e ∈ entries ↔
        ∃ node, share.tree.lookup (pathOf h ++ [e.name]) = some node ∧
          (e.isDirectory = true ↔ node = .dir))
  | ⟨.close _, reply⟩ => reply = .ok ()
  | _ => True

/-- A path as the walk writes it. -/
def joinPath (p : Path) : Str := ['/'].intercalate p

section Paths

variable {p : Path}

/-- A path of names that are not empty and hold no separator. -/
def Plain (p : Path) : Prop := ∀ c ∈ p, c ≠ [] ∧ '/' ∉ c ∧ '\\' ∉ c

theorem splitOn_joinPath (h : Plain p) (hp : p ≠ []) : (joinPath p).splitOn '/' = p :=
  List.splitOn_intercalate '/' (fun c hc => (h c hc).2.1) hp

theorem joinPath_ne_nil (h : Plain p) (hp : p ≠ []) : joinPath p ≠ [] := by
  intro he
  have hsplit := splitOn_joinPath h hp
  rw [he, List.splitOn_nil] at hsplit
  exact (h [] (by simp [← hsplit])).1 rfl

theorem joinPath_splitOn (s : Str) : joinPath (s.splitOn '/') = s := List.intercalate_splitOn '/'

/-- The separators are all that changes on the way to the server. -/
theorem replaceChar_joinPath (h : ∀ c ∈ p, '/' ∉ c) :
    replaceChar '/' '\\' (joinPath p) = ['\\'].intercalate p := by
  have hname : ∀ c ∈ p, replaceChar '/' '\\' c = c := by
    intro c hc
    refine (List.map_congr_left fun x hx => if_neg ?_).trans (List.map_id c)
    exact fun hslash => h c hc (hslash ▸ hx)
  induction p with
  | nil => rfl
  | cons c p ih =>
    cases p with
    | nil => simpa [joinPath] using hname c (by simp)
    | cons d p =>
      have hrest := ih (fun e he => h e (by simp [he])) fun e he => hname e (by simp [he])
      have hc := hname c (by simp)
      simp only [joinPath, List.intercalate_cons_cons, replaceChar, List.map_append] at hrest hc ⊢
      rw [hrest, hc]
      simp

theorem sharePath_joinPath (h : Plain p) : sharePath (replaceChar '/' '\\' (joinPath p)) = p := by
  rw [replaceChar_joinPath fun c hc => (h c hc).2.1]
  by_cases hp : p = []
  · subst hp
    rfl
  · have hsplit : (['\\'].intercalate p).splitOn '\\' = p :=
      List.splitOn_intercalate '\\' (fun c hc => (h c hc).2.2) hp
    have hne : ['\\'].intercalate p ≠ [] := by
      intro he
      rw [he, List.splitOn_nil] at hsplit
      exact (h [] (by simp [← hsplit])).1 rfl
    rw [sharePath, if_neg hne, hsplit]

theorem childPath_joinPath (h : Plain p) {name : Str} (hn : '/' ∉ name) :
    childPath (joinPath p) name = joinPath (p ++ [name]) := by
  by_cases hp : p = []
  · subst hp
    simp [childPath, joinPath]
  · rw [childPath, if_neg (joinPath_ne_nil h hp)]
    apply splitOn_injective '/'
    rw [List.splitOn_append_cons_self, splitOn_joinPath h hp, List.splitOn_eq_singleton hn]
    refine (List.splitOn_intercalate '/' (fun c hc => ?_) (by simp)).symm
    rcases List.mem_append.mp hc with hc | hc
    · exact (h c hc).2.1
    · rwa [List.mem_singleton.mp hc]

end Paths

/-! ### One directory -/

section Directory

open Local FileTree

variable (parsesUuid : Str → Bool) (config : SmbStorageConfig) (t : FileTree) (p : Path)

/-- A file that a listing shows. -/
def isShown (q : Path) : Bool := (t.files q).isSome && !isTempKey parsesUuid (joinPath q)

/-- The keys of the files below a directory that a listing shows. -/
def shownKeys : List Str :=
  ((strictlyBelow t p).filter (isShown parsesUuid t)).map fun q => keyOfChild config (joinPath q)

/-- The paths of the entries that are followed. -/
def entryPaths (entries : List DirEntry) : List Path :=
  (entries.filter fun e => e.IsChild).map fun e => p ++ [e.name]

variable {parsesUuid config t p}

theorem strictlyBelow_of_not_dir (h : t.lookup p ≠ some .dir) : strictlyBelow t p = [] := by
  rw [List.eq_nil_iff_forall_not_mem]
  intro q hq
  obtain ⟨hl, name, rest, heq⟩ := mem_strictlyBelow.mp hq
  obtain ⟨n, hn⟩ := Option.ne_none_iff_exists'.mp hl
  rw [heq] at hn
  exact h (lookup_ancestor (List.cons_ne_nil name rest) hn)

theorem shownKeys_of_not_dir (h : t.lookup p ≠ some .dir) :
    shownKeys parsesUuid config t p = [] := by
  rw [shownKeys, strictlyBelow_of_not_dir h]
  rfl

/-- What is shown below a directory: its own files and what is shown below its directories. -/
theorem shownKeys_perm : (shownKeys parsesUuid config t p).Perm
    ((((children t p).filter (isShown parsesUuid t)).map fun q => keyOfChild config (joinPath q)) ++
      ((children t p).filter fun c => t.isDir c).flatMap (shownKeys parsesUuid config t)) := by
  have hsplit := ((strictlyBelow_perm t p).filter (isShown parsesUuid t)).map
    fun q => keyOfChild config (joinPath q)
  refine hsplit.trans ?_
  clear hsplit
  induction children t p with
  | nil => rfl
  | cons c cs ih =>
    rw [List.flatMap_cons, List.filter_append, List.map_append]
    cases hc : t.isDir c with
    | true =>
      have hfile : isShown parsesUuid t c = false := by
        simp [isShown, files_of_lookup_dir (isDir_iff.mp hc)]
      rw [List.filter_cons_of_neg (by simp [hfile]), List.filter_cons_of_neg (by simp [hfile]),
        List.filter_cons_of_pos hc, List.flatMap_cons]
      exact (ih.append_left (shownKeys parsesUuid config t c)).trans
        (List.perm_append_comm_assoc _ _ _)
    | false =>
      have hdir : t.lookup c ≠ some .dir := by
        intro hd
        rw [isDir_iff.mpr hd] at hc
        cases hc
      have hskip : (c :: cs).filter (fun c => t.isDir c) = cs.filter fun c => t.isDir c :=
        List.filter_cons_of_neg (by simp [hc])
      have hone : (c :: cs).filter (isShown parsesUuid t) =
          [c].filter (isShown parsesUuid t) ++ cs.filter (isShown parsesUuid t) := by
        rw [← List.filter_append]
        rfl
      rw [strictlyBelow_of_not_dir hdir, hskip, hone, List.map_append, List.append_assoc]
      exact ih.append_left _

/-- The entries of a directory are its children. -/
theorem entryPaths_perm {entries : List DirEntry} (hnodup : entries.Nodup)
    (h : ∀ e : DirEntry, e.IsChild → (e ∈ entries ↔
      ∃ node, t.lookup (p ++ [e.name]) = some node ∧ (e.isDirectory = true ↔ node = .dir))) :
    (entryPaths p entries).Perm (children t p) := by
  have hinj : ∀ e ∈ entries.filter fun e => e.IsChild, ∀ e' ∈ entries.filter fun e => e.IsChild,
      p ++ [e.name] = p ++ [e'.name] → e = e' := by
    intro e he e' he' heq
    obtain ⟨hmem, hchild⟩ := List.mem_filter.mp he
    obtain ⟨hmem', hchild'⟩ := List.mem_filter.mp he'
    obtain ⟨node, hnode, hdir⟩ := (h e (by simpa using hchild)).mp hmem
    obtain ⟨node', hnode', hdir'⟩ := (h e' (by simpa using hchild')).mp hmem'
    rw [heq, hnode'] at hnode
    obtain rfl := Option.some.inj hnode
    have hname : e.name = e'.name := by simpa using heq
    have hkind : e.isDirectory = e'.isDirectory := Bool.eq_iff_iff.mpr (hdir.trans hdir'.symm)
    cases e
    cases e'
    simp_all
  have hpaths : (entryPaths p entries).Nodup := (hnodup.filter _).map_on hinj
  refine (List.perm_ext_iff_of_nodup hpaths (nodup_children t p)).mpr fun q => ?_
  rw [mem_children, entryPaths, List.mem_map]
  constructor
  · intro hq
    obtain ⟨e, he, heq⟩ := hq
    obtain ⟨hmem, hchild⟩ := List.mem_filter.mp he
    obtain ⟨node, hnode, _⟩ := (h e (by simpa using hchild)).mp hmem
    exact ⟨e.name, heq.symm, by simp [← heq, hnode]⟩
  · intro hq
    obtain ⟨name, heq, hl⟩ := hq
    obtain ⟨node, hnode⟩ := Option.ne_none_iff_exists'.mp hl
    rw [heq] at hnode
    have hlegal := t.limits.legal name (accepted_of_lookup hnode name (by simp))
    have hchild : (DirEntry.mk name (decide (node = .dir))).IsChild := ⟨hlegal.2.1, hlegal.2.2.1⟩
    refine ⟨⟨name, decide (node = .dir)⟩, List.mem_filter.mpr ⟨?_, by simpa using hchild⟩, heq.symm⟩
    exact (h _ hchild).mpr ⟨node, hnode, by simp⟩

/-- The directories among the entries go on the stack, the files that are shown to the keys. -/
theorem addEntries_eq {entries : List DirEntry} (hp : Plain p)
    (h : ∀ e ∈ entries, e.IsChild → '/' ∉ e.name ∧ t.isDir (p ++ [e.name]) = e.isDirectory ∧
      (t.files (p ++ [e.name])).isSome = !e.isDirectory) (stack keys : List Str) :
    addEntries parsesUuid config (joinPath p) (entries.map .ok) stack keys =
      .ok (((entryPaths p entries).filter fun c => t.isDir c).reverse.map joinPath ++ stack,
        keys ++ ((entryPaths p entries).filter (isShown parsesUuid t)).map
          fun q => keyOfChild config (joinPath q)) := by
  induction entries generalizing stack keys with
  | nil => simp [addEntries, entryPaths]
  | cons e entries ih =>
    have hrest := ih fun e' he' => h e' (List.mem_cons_of_mem _ he')
    rw [List.map_cons, addEntries]
    by_cases hchild : e.IsChild
    · obtain ⟨hname, hdir, hfile⟩ := h e (List.mem_cons_self ..) hchild
      have hpaths : entryPaths p (e :: entries) = (p ++ [e.name]) :: entryPaths p entries := by
        simp [entryPaths, hchild]
      rw [if_neg (not_or.mpr hchild), childPath_joinPath hp hname, hpaths]
      cases hd : e.isDirectory with
      | true =>
        have hshown : isShown parsesUuid t (p ++ [e.name]) = false := by
          simp [isShown, hfile, hd]
        rw [if_pos rfl, hrest, List.filter_cons_of_pos (by simp [hdir, hd]),
          List.filter_cons_of_neg (by simp [hshown])]
        simp
      | false =>
        rw [if_neg Bool.false_ne_true, List.filter_cons_of_neg (by simp [hdir, hd])]
        cases htemp : isTempKey parsesUuid (joinPath (p ++ [e.name])) with
        | true =>
          rw [if_pos rfl, hrest, List.filter_cons_of_neg (by simp [isShown, htemp])]
        | false =>
          have hshown : isShown parsesUuid t (p ++ [e.name]) = true := by
            simp [isShown, hfile, hd, htemp]
          rw [if_neg Bool.false_ne_true, hrest, List.filter_cons_of_pos hshown]
          simp
    · have hdots : e.name = ['.'] ∨ e.name = ['.', '.'] := by
        by_contra hnot
        exact hchild (not_or.mp hnot)
      have hpaths : entryPaths p (e :: entries) = entryPaths p entries := by
        simp [entryPaths, hchild]
      rw [if_pos hdots, hrest, hpaths]

/-- The files among the entries that are shown, and what is shown below the directories that are
put on the stack. -/
theorem found_perm (parsesUuid : Str → Bool) (config : SmbStorageConfig)
    {entries : List DirEntry} (h : (entryPaths p entries).Perm (children t p)) :
    ((((entryPaths p entries).filter (isShown parsesUuid t)).map
        fun q => keyOfChild config (joinPath q)) ++
      ((entryPaths p entries).filter fun c => t.isDir c).reverse.flatMap
        (shownKeys parsesUuid config t)).Perm (shownKeys parsesUuid config t p) := by
  have hpushed := ((entryPaths p entries).filter fun c => t.isDir c).reverse_perm.trans
    (h.filter fun c => t.isDir c)
  have hfiles := (h.filter (isShown parsesUuid t)).map fun q => keyOfChild config (joinPath q)
  exact (hfiles.append (hpushed.flatMap_right _)).trans shownKeys_perm.symm

/-- The directories that are put on the stack are less work than the one they are in. -/
theorem pushed_work_lt {entries : List DirEntry} (h : (entryPaths p entries).Perm (children t p)) :
    (((entryPaths p entries).filter fun c => t.isDir c).reverse.map (walkWork t)).sum <
      walkWork t p := by
  have hpushed := ((entryPaths p entries).filter fun c => t.isDir c).reverse_perm.trans
    (h.filter fun c => t.isDir c)
  have hsum := (hpushed.map (walkWork t)).sum_eq
  have hfiltered := List.Sublist.sum_le_sum ((List.filter_sublist
    (p := fun c => t.isDir c) (l := children t p)).map (walkWork t)) fun _ _ => Nat.zero_le _
  have hsplit := walkWork_eq t p
  omega

end Directory

/-! ### The whole walk -/

section Walk

open Local FileTree

variable {parsesUuid : Str → Bool} {config : SmbStorageConfig} {share : Share}
  {pathOf : Handle → Path} {log : List (Sigma ListRequests.Reply)}

theorem Share.plain (share : Share) {p : Path} {n : Node} (h : share.tree.lookup p = some n) :
    Plain p := by
  intro c hc
  have hacc := accepted_of_lookup h c hc
  have hlegal := share.tree.limits.legal c hacc
  exact ⟨hlegal.1, hlegal.2.2.2.1, share.names c hacc⟩

/-- An entry has a plain name and is what the share has under it. -/
theorem Share.entry_kinds (share : Share) {p : Path} {entries : List DirEntry}
    (h : ∀ e : DirEntry, e.IsChild → (e ∈ entries ↔ ∃ node,
      share.tree.lookup (p ++ [e.name]) = some node ∧ (e.isDirectory = true ↔ node = .dir))) :
    ∀ e ∈ entries, e.IsChild → '/' ∉ e.name ∧
      share.tree.isDir (p ++ [e.name]) = e.isDirectory ∧
      (share.tree.files (p ++ [e.name])).isSome = !e.isDirectory := by
  intro e he hchild
  obtain ⟨node, hnode, hkind⟩ := (h e hchild).mp he
  refine ⟨(share.plain hnode e.name (by simp)).2.1, ?_⟩
  cases node with
  | dir => simp [isDir, files, hnode, hkind.mpr rfl]
  | file b m =>
    have hfile : e.isDirectory = false := by
      cases hd : e.isDirectory with
      | true => cases hkind.mp hd
      | false => rfl
    simp [isDir, files, hnode, hfile]

/-- Every file below the directories on the stack that a listing shows is found once. -/
theorem collectLoop_serves {fuel : ℕ} {dirs : List Path} {keys : List Str}
    (hplain : ∀ p ∈ dirs, Plain p) (hfuel : (dirs.map (walkWork share.tree)).sum ≤ fuel)
    {result : Except Stop (List Str)}
    (h : RunsTo (collectLoop parsesUuid config fuel (dirs.map joinPath) keys) log result)
    (ht : ∀ e ∈ log, ServesListing share pathOf e) : ∃ ks, result = .ok ks ∧
      ks.Perm (keys ++ dirs.flatMap (shownKeys parsesUuid config share.tree)) := by
  induction fuel generalizing dirs keys log with
  | zero =>
    cases dirs with
    | nil =>
      rw [(runsTo_ret.mp h).2]
      exact ⟨keys, rfl, by simp⟩
    | cons p dirs =>
      rw [List.map_cons, List.sum_cons, walkWork] at hfuel
      omega
  | succ fuel ih =>
    cases dirs with
    | nil =>
      rw [(runsTo_ret.mp h).2]
      exact ⟨keys, rfl, by simp⟩
    | cons p dirs =>
      rw [List.map_cons, List.sum_cons] at hfuel
      have hwork : 1 ≤ walkWork share.tree p := Nat.succ_pos _
      have hrest : ∀ q ∈ dirs, Plain q := fun q hq => hplain q (List.mem_cons_of_mem _ hq)
      have hpath := sharePath_joinPath (hplain p (List.mem_cons_self ..))
      simp only [List.map_cons, collectLoop] at h
      obtain ⟨reply, rest, hlog, hrun⟩ := runsTo_listRequest.mp h
      subst hlog
      have hreply := ht _ (List.mem_cons_self ..)
      have hserves : ∀ e ∈ rest, ServesListing share pathOf e :=
        fun e he => ht e (List.mem_cons_of_mem _ he)
      simp only [ServesListing, hpath] at hreply
      by_cases hdir : share.tree.lookup p = some .dir
      · simp only [hdir] at hreply
        obtain ⟨handle, hreply, hpathOf⟩ := hreply
        subst hreply
        obtain ⟨reply, rest', hlog, hquery⟩ := runsTo_listRequest.mp hrun
        subst hlog
        obtain ⟨entries, hreply, hnodup, hentries⟩ := hserves _ (List.mem_cons_self ..)
        subst hreply
        rw [hpathOf] at hentries
        have hperm := entryPaths_perm hnodup hentries
        have hadd : ∀ stack keys, addEntries parsesUuid config (joinPath p) (entries.map .ok)
            stack keys = _ :=
          addEntries_eq (hplain p (List.mem_cons_self ..)) (share.entry_kinds hentries)
        simp only [hadd, ← List.map_append] at hquery
        obtain ⟨reply, rest'', hlog, hclose⟩ := runsTo_listRequest.mp hquery
        subst hlog
        have hreply : reply = .ok () := hserves ⟨.close handle, reply⟩ (by simp)
        subst hreply
        have hown := found_perm parsesUuid config hperm
        have hless := pushed_work_lt hperm
        have hplain' : ∀ q ∈ ((entryPaths p entries).filter fun c => share.tree.isDir c).reverse ++
            dirs, Plain q := by
          intro q hq
          rcases List.mem_append.mp hq with hq | hq
          · have hchild := (List.mem_filter.mp (List.mem_reverse.mp hq)).2
            exact share.plain (isDir_iff.mp hchild)
          · exact hrest q hq
        obtain ⟨ks, hresult, hks⟩ := ih hplain' (by rw [List.map_append, List.sum_append]; omega)
          hclose fun e he => hserves e (by simp [he])
        refine ⟨ks, hresult, hks.trans ?_⟩
        rw [List.flatMap_append, List.flatMap_cons, List.append_assoc, ← List.append_assoc _ _
          (dirs.flatMap _)]
        exact (hown.append_right _).append_left keys
      · -- What is no directory has nothing below it and is passed over.
        have hshown : (p :: dirs).flatMap (shownKeys parsesUuid config share.tree) =
            dirs.flatMap (shownKeys parsesUuid config share.tree) := by
          rw [List.flatMap_cons, shownKeys_of_not_dir hdir, List.nil_append]
        rw [hshown]
        cases hl : share.tree.lookup p with
        | none =>
          simp only [hl] at hreply
          obtain ⟨status, text, hstatus, hreply⟩ := hreply
          subst hreply
          refine ih hrest (by omega) ?_ hserves
          rcases hstatus with hs | hs
          · subst hs
            exact hrun
          · subst hs
            exact hrun
        | some node =>
          cases node with
          | dir => exact absurd hl hdir
          | file b m =>
            simp only [hl] at hreply
            obtain ⟨handle, hreply⟩ := hreply
            subst hreply
            obtain ⟨_, rest', hlog, hnext⟩ := runsTo_listRequest.mp hrun
            subst hlog
            exact ih hrest (by omega) hnext fun e he => hserves e (List.mem_cons_of_mem _ he)

/-- The path of the configured root. -/
def rootPath (config : SmbStorageConfig) : Path :=
  match config.rootPrefix with
  | some root => root.splitOn '/'
  | none => []

/-- Below the configured root the share holds these keys and no other file. -/
def Share.Holds (share : Share) (config : SmbStorageConfig) (K : Finset Str) : Prop :=
  ∀ q, share.tree.files (rootPath config ++ q) ≠ none ↔ ∃ key ∈ K, q = key.splitOn '/'

theorem splitOn_belowRoot (config : SmbStorageConfig) (key : Str) :
    (belowRoot config key).splitOn '/' = rootPath config ++ key.splitOn '/' := by
  unfold belowRoot rootPath
  cases config.rootPrefix with
  | none => rfl
  | some root => exact List.splitOn_append_cons_self ..

theorem joinPath_rootPath (config : SmbStorageConfig) (key : Str) :
    joinPath (rootPath config ++ key.splitOn '/') = belowRoot config key := by
  rw [← splitOn_belowRoot, joinPath_splitOn]

theorem keyOfChild_belowRoot (config : SmbStorageConfig) (key : Str) :
    keyOfChild config (belowRoot config key) = key := by
  unfold keyOfChild belowRoot
  cases config.rootPrefix with
  | none => rfl
  | some root =>
    have hroot : stripPrefix root (root ++ '/' :: key) = some ('/' :: key) :=
      stripPrefix_eq_some.mpr rfl
    have hslash : stripPrefix ['/'] ('/' :: key) = some key := stripPrefix_eq_some.mpr rfl
    simp [hroot, hslash]

/-- Whether a file is temporary is decided by its last name. -/
theorem isTempKey_belowRoot (config : SmbStorageConfig) (key : Str) :
    isTempKey parsesUuid (belowRoot config key) = isTempKey parsesUuid key := by
  rw [isTempKey, isTempKey, splitOn_belowRoot,
    List.getLast?_append_of_ne_nil _ (List.splitOn_ne_nil '/' key)]

/-- A file below the root, under its key. -/
theorem plain_of_file {q : Path} (h : share.tree.files (rootPath config ++ q) ≠ none) : Plain q := by
  obtain ⟨b, hb⟩ := Option.ne_none_iff_exists'.mp h
  obtain ⟨modified, hl⟩ := files_eq_some.mp hb
  exact fun c hc => share.plain hl c (List.mem_append_right _ hc)

theorem joinPath_append {q : Path} (hq : Plain q) (hne : q ≠ []) :
    joinPath (rootPath config ++ q) = belowRoot config (joinPath q) := by
  rw [← joinPath_rootPath, splitOn_joinPath hq hne]

theorem mem_shown_root {p : Path} :
    p ∈ (strictlyBelow share.tree (rootPath config)).filter (isShown parsesUuid share.tree) ↔
      ∃ q ≠ [], p = rootPath config ++ q ∧ share.tree.files p ≠ none ∧
        isTempKey parsesUuid (joinPath q) = false := by
  rw [List.mem_filter, mem_strictlyBelow, isShown, Bool.and_eq_true, Option.isSome_iff_ne_none]
  constructor
  · intro h
    obtain ⟨⟨_, name, rest, heq⟩, hfile, htemp⟩ := h
    have hne : name :: rest ≠ [] := List.cons_ne_nil name rest
    refine ⟨name :: rest, hne, heq, hfile, ?_⟩
    rw [heq, joinPath_append (plain_of_file (heq ▸ hfile)) hne, isTempKey_belowRoot] at htemp
    simpa using htemp
  · intro h
    obtain ⟨q, hne, heq, hfile, htemp⟩ := h
    obtain ⟨name, rest, hq⟩ := List.exists_cons_of_ne_nil hne
    refine ⟨⟨fun hl => hfile (files_of_lookup_none hl), name, rest, by rw [heq, hq]⟩, hfile, ?_⟩
    rw [heq, joinPath_append (plain_of_file (heq ▸ hfile)) hne, isTempKey_belowRoot, htemp]
    rfl

/-- The keys that a walk of the share finds. -/
theorem mem_shownKeys_root {key : Str} :
    key ∈ shownKeys parsesUuid config share.tree (rootPath config) ↔
      ∃ q ≠ [], share.tree.files (rootPath config ++ q) ≠ none ∧
        isTempKey parsesUuid (joinPath q) = false ∧ key = joinPath q := by
  rw [shownKeys, List.mem_map]
  constructor
  · intro h
    obtain ⟨p, hp, hkey⟩ := h
    obtain ⟨q, hne, heq, hfile, htemp⟩ := mem_shown_root.mp hp
    subst heq
    rw [joinPath_append (plain_of_file hfile) hne, keyOfChild_belowRoot] at hkey
    exact ⟨q, hne, hfile, htemp, hkey.symm⟩
  · intro h
    obtain ⟨q, hne, hfile, htemp, hkey⟩ := h
    refine ⟨rootPath config ++ q, mem_shown_root.mpr ⟨q, hne, rfl, hfile, htemp⟩, ?_⟩
    rw [joinPath_append (plain_of_file hfile) hne, keyOfChild_belowRoot, hkey]

/-- The walk finds every key once. -/
theorem nodup_shownKeys_root :
    (shownKeys parsesUuid config share.tree (rootPath config)).Nodup := by
  refine ((nodup_strictlyBelow _ _).filter _).map_on fun p hp p' hp' he => ?_
  obtain ⟨q, hne, heq, hfile, _⟩ := mem_shown_root.mp hp
  obtain ⟨q', hne', heq', hfile', _⟩ := mem_shown_root.mp hp'
  subst heq heq'
  have hq := plain_of_file hfile
  have hq' := plain_of_file hfile'
  rw [joinPath_append hq hne, joinPath_append hq' hne', keyOfChild_belowRoot,
    keyOfChild_belowRoot] at he
  rw [← splitOn_joinPath hq hne, he, splitOn_joinPath hq' hne']

/-- On a share that holds these keys and no others. -/
theorem shownKeys_root {K : Finset Str} (hK : share.Holds config K) :
    (shownKeys parsesUuid config share.tree (rootPath config)).Perm
      (K.filter fun key => isTempKey parsesUuid key = false).toList := by
  refine (List.perm_ext_iff_of_nodup nodup_shownKeys_root (Finset.nodup_toList _)).mpr fun key => ?_
  rw [mem_shownKeys_root, Finset.mem_toList, Finset.mem_filter]
  constructor
  · intro h
    obtain ⟨q, _, hfile, htemp, hkey⟩ := h
    obtain ⟨key', hmem, hq⟩ := (hK q).mp hfile
    rw [hq, joinPath_splitOn] at htemp hkey
    exact hkey ▸ ⟨hmem, htemp⟩
  · intro h
    have hfile := (hK (key.splitOn '/')).mpr ⟨key, h.1, rfl⟩
    exact ⟨key.splitOn '/', List.splitOn_ne_nil '/' key, hfile, by rw [joinPath_splitOn, h.2],
      (joinPath_splitOn key).symm⟩

/-- The configured root was validated when the backend connected. -/
def ValidRoot (config : SmbStorageConfig) : Prop :=
  ∀ root, config.rootPrefix = some root → validateBlobKey root = .ok ()

theorem plain_rootPath (hroot : ValidRoot config) : Plain (rootPath config) := by
  unfold rootPath
  cases hr : config.rootPrefix with
  | none => intro c hc; cases hc
  | some root =>
    obtain ⟨hback, hlegal⟩ := validateBlobKey_eq_ok.mp (hroot root hr)
    intro c hc
    refine ⟨(hlegal c hc).1, not_mem_of_mem_splitOn hc, fun hb => hback ?_⟩
    exact (mem_splitOn_iff (by decide) root).mpr ⟨c, hc, hb⟩

/-- The keys of the files below the root other than the temporary ones, in order. -/
def sortedKeys (parsesUuid : Str → Bool) (config : SmbStorageConfig) (t : FileTree) : List Str :=
  (shownKeys parsesUuid config t (rootPath config)).insertionSort (· ≤ ·)

theorem mem_sortedKeys {key : Str} : key ∈ sortedKeys parsesUuid config share.tree ↔
    ∃ q ≠ [], share.tree.files (rootPath config ++ q) ≠ none ∧
      isTempKey parsesUuid (joinPath q) = false ∧ key = joinPath q :=
  (List.mem_insertionSort _).trans mem_shownKeys_root

theorem pairwise_sortedKeys : (sortedKeys parsesUuid config share.tree).Pairwise (· < ·) := by
  have hnodup : (sortedKeys parsesUuid config share.tree).Nodup :=
    (List.perm_insertionSort _ _).nodup_iff.mpr nodup_shownKeys_root
  exact (List.pairwise_insertionSort (· ≤ ·) _).imp₂ (fun _ _ => lt_of_le_of_ne) hnodup

theorem length_sortedKeys_le :
    (sortedKeys parsesUuid config share.tree).length ≤ share.tree.entries.length := by
  rw [sortedKeys, List.length_insertionSort, shownKeys, List.length_map]
  exact (List.length_filter_le _ _).trans (Nat.le_of_succ_le_succ (walkWork_le ..))

theorem sortedKeys_eq {K : Finset Str} (hK : share.Holds config K) :
    sortedKeys parsesUuid config share.tree =
      (K.filter fun key => isTempKey parsesUuid key = false).sort :=
  ((List.perm_insertionSort (· ≤ ·) _).trans
    ((shownKeys_root hK).trans (Finset.sort_perm_toList _ _).symm)).eq_of_pairwise'
      (List.pairwise_insertionSort (· ≤ ·) _) (Finset.pairwise_sort _ _)

/-- `collect_keys` returns the keys of the share in order, without the temporary ones. -/
theorem collectKeys_sorted (hroot : ValidRoot config) {fuel : ℕ}
    (hfuel : share.tree.entries.length < fuel) {result : Except Stop (List Str)}
    (h : RunsTo (collectKeys parsesUuid config fuel) log result)
    (ht : ∀ e ∈ log, ServesListing share pathOf e) :
    result = .ok (sortedKeys parsesUuid config share.tree) := by
  obtain ⟨first, collected, second, hlog, hloop, hrun⟩ := runsTo_bind.mp h
  have hstart : [config.rootPrefix.getD []] = [rootPath config].map joinPath := by
    unfold rootPath
    cases config.rootPrefix with
    | none => rfl
    | some root => simp [joinPath_splitOn]
  rw [hstart] at hloop
  have hwork : ([rootPath config].map (walkWork share.tree)).sum ≤ fuel := by
    have hle := walkWork_le share.tree (rootPath config)
    simp only [List.map_cons, List.map_nil, List.sum_cons, List.sum_nil]
    omega
  obtain ⟨ks, hcollected, hks⟩ := collectLoop_serves (by simpa using plain_rootPath hroot) hwork
    hloop fun e he => ht e (by simp [hlog, he])
  subst hcollected
  rw [(runsTo_ret.mp hrun).2]
  have hperm : ks.Perm (shownKeys parsesUuid config share.tree (rootPath config)) := by
    simpa using hks
  have hsorted := (((List.perm_insertionSort (· ≤ ·) ks).trans hperm).trans
    (List.perm_insertionSort (· ≤ ·) _).symm).eq_of_pairwise'
      (List.pairwise_insertionSort (· ≤ ·) ks) (List.pairwise_insertionSort (· ≤ ·) _)
  rw [hsorted, sortedKeys]

/-- The keys among these that start with the prefix. -/
def keysWith (parsesUuid : Str → Bool) (config : SmbStorageConfig) (t : FileTree) (pre : Str) :
    List Str :=
  (sortedKeys parsesUuid config t).filter fun key => pre.isPrefixOf key

theorem pairwise_keysWith (pre : Str) :
    (keysWith parsesUuid config share.tree pre).Pairwise (· < ·) := pairwise_sortedKeys.filter _

theorem mem_keysWith {pre key : Str} : key ∈ keysWith parsesUuid config share.tree pre ↔
    key ∈ sortedKeys parsesUuid config share.tree ∧ pre <+: key := by
  rw [keysWith, List.mem_filter, List.isPrefixOf_iff_prefix]

theorem listBlobsPage_sorted (hroot : ValidRoot config) {fuel : ℕ}
    (hfuel : share.tree.entries.length < fuel) {pre : Str} (hpre : validateBlobPrefix pre = .ok ())
    {token : Option Str} {limit : ℕ} (hlimit : 1 ≤ limit) {result : Except Stop BlobListPage}
    (h : RunsTo (listBlobsPage parsesUuid config fuel pre token limit) log result)
    (ht : ∀ e ∈ log, ServesListing share pathOf e) :
    result = .ok ⟨(Paging.after token (keysWith parsesUuid config share.tree pre)).take limit,
      Paging.nextToken limit (Paging.after token (keysWith parsesUuid config share.tree pre))⟩ := by
  simp only [listBlobsPage, hpre, if_neg (show limit ≠ 0 by omega)] at h
  obtain ⟨first, collected, second, hlog, hcollect, hrun⟩ := runsTo_bind.mp h
  have hcollected := collectKeys_sorted hroot hfuel hcollect fun e he => ht e (by simp [hlog, he])
  subst hcollected
  have hleft : (sortedKeys parsesUuid config share.tree).filter
      (fun key => pre.isPrefixOf key && token.all (· < key)) =
        Paging.after token (keysWith parsesUuid config share.tree pre) := by
    rw [Paging.after, keysWith, List.filter_filter]
    apply List.filter_congr
    intro key _
    rw [Bool.eq_iff_iff]
    cases token <;> simp [and_comm]
  simp only [hleft] at hrun
  generalize Paging.after token (keysWith parsesUuid config share.tree pre) = left at hrun
  by_cases hmore : limit < left.length
  · rw [if_pos hmore] at hrun
    rw [(runsTo_ret.mp hrun).2, Paging.nextToken, if_pos hmore]
  · rw [if_neg hmore] at hrun
    rw [(runsTo_ret.mp hrun).2, Paging.nextToken, if_neg hmore, List.take_of_length_le (by omega)]

theorem drainPages_sorted (hroot : ValidRoot config) {walkFuel : ℕ}
    (hwalk : share.tree.entries.length < walkFuel) {pre : Str}
    (hpre : validateBlobPrefix pre = .ok ()) {limit : ℕ} (hlimit : 1 ≤ limit) {fuel : ℕ}
    {token : Option Str} {keys : List Str} {result : Except Stop (List Str)}
    (h : RunsTo (drainPages parsesUuid config walkFuel pre limit fuel token keys) log result)
    (ht : ∀ e ∈ log, ServesListing share pathOf e) :
    result = match Paging.drain (keysWith parsesUuid config share.tree pre) limit fuel token with
      | some ks => .ok (keys ++ ks)
      | none => .error .outOfFuel := by
  induction fuel generalizing token keys log with
  | zero => exact (runsTo_ret.mp h).2
  | succ fuel ih =>
    obtain ⟨first, page, second, hlog, hpage, hrun⟩ := runsTo_bind.mp h
    have hpage' := listBlobsPage_sorted hroot hwalk hpre hlimit hpage
      fun e he => ht e (by simp [hlog, he])
    subst hpage'
    rw [Paging.drain]
    cases hnext : Paging.nextToken limit
        (Paging.after token (keysWith parsesUuid config share.tree pre)) with
    | none =>
      simp only [hnext] at hrun
      exact (runsTo_ret.mp hrun).2
    | some next =>
      simp only [hnext] at hrun
      rw [ih hrun fun e he => ht e (by simp [hlog, he])]
      cases hd : Paging.drain (keysWith parsesUuid config share.tree pre) limit fuel
          (some next) with
      | none => simp [hd]
      | some ks => simp [hd]

/-- Draining a share that does not change returns its keys with the prefix, in order. -/
theorem drainPages_all (hroot : ValidRoot config) {walkFuel : ℕ}
    (hwalk : share.tree.entries.length < walkFuel) {pre : Str}
    (hpre : validateBlobPrefix pre = .ok ()) {limit : ℕ} (hlimit : 1 ≤ limit) {fuel : ℕ}
    (hfuel : (keysWith parsesUuid config share.tree pre).length < fuel)
    {result : Except Stop (List Str)}
    (h : RunsTo (drainPages parsesUuid config walkFuel pre limit fuel none []) log result)
    (ht : ∀ e ∈ log, ServesListing share pathOf e) :
    result = .ok (keysWith parsesUuid config share.tree pre) := by
  have hresult := drainPages_sorted hroot hwalk hpre hlimit h ht
  rwa [Paging.drain_of_pairwise (by omega) (pairwise_keysWith pre) hfuel] at hresult

/-- The keys that a listing with this prefix filters. -/
def listedKeys (parsesUuid : Str → Bool) (K : Finset Str) (pre : Str) : List Str :=
  (K.filter fun key => isTempKey parsesUuid key = false).sort.filter fun key => pre.isPrefixOf key

/-- `list_blobs` returns the keys of the share that start with the prefix, in order and without
the temporary ones. -/
theorem listBlobs_serves {K : Finset Str} (hK : share.Holds config K) (hroot : ValidRoot config)
    {fuel : ℕ} (hfuel : share.tree.entries.length < fuel) (hkeys : K.card < fuel) {pre : Str}
    (hpre : validateBlobPrefix pre = .ok ()) {result : Except Stop (List Str)}
    (h : RunsTo (listBlobs parsesUuid config fuel pre) log result)
    (ht : ∀ e ∈ log, ServesListing share pathOf e) : result = .ok (listedKeys parsesUuid K pre) := by
  have hkeysWith : keysWith parsesUuid config share.tree pre = listedKeys parsesUuid K pre := by
    rw [keysWith, sortedKeys_eq hK, listedKeys]
  have hlen : (keysWith parsesUuid config share.tree pre).length < fuel := by
    rw [hkeysWith]
    refine (List.length_filter_le _ _).trans_lt ?_
    rw [Finset.length_sort]
    exact (Finset.card_filter_le _ _).trans_lt hkeys
  rw [← hkeysWith]
  exact drainPages_all hroot hfuel hpre (by decide) hlen h ht

end Walk

end GraphqlOrmStorage.Smb
