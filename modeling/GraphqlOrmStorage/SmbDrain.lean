import GraphqlOrmStorage.SmbListing

/-!
# Draining a share that changes

A client asks for one page after another and passes the last key it saw as the
token. Other clients put and delete files between two pages, so each page may
meet another share. Since every page walks the whole share and sorts before it
filters by the token, what stays on the share is still returned, once and in
its place.
-/
namespace GraphqlOrmStorage.Smb

open Text Program Prog

variable {parsesUuid : Str → Bool} {config : SmbStorageConfig} {pre : Str} {limit : ℕ}
  {token : Option Str} {share : Share}

/-- A result of `list_blobs_page` against this share. -/
def PageServed (parsesUuid : Str → Bool) (config : SmbStorageConfig) (pre : Str) (limit : ℕ)
    (share : Share) (token : Option Str) (result : Except Stop BlobListPage) : Prop :=
  ∃ fuel log pathOf, share.tree.entries.length < fuel ∧
    RunsTo (listBlobsPage parsesUuid config fuel pre token limit) log result ∧
    ∀ e ∈ log, ServesListing share pathOf e

/-- A server that answers truthfully, with one handle for each path. -/
def Share.reply (share : Share) (handleOf : Path → Handle) (pathOf : Handle → Path) :
    (c : ListCall) → c.Reply
  | .openDirectory target =>
    match share.tree.lookup (sharePath target) with
    | some .dir => .ok (.directory (handleOf (sharePath target)))
    | some (.file _ _) => .ok (.file 0)
    | none => .error (.failed ⟨.status .objectNameNotFound, []⟩)
  | .closeResource _ => .ok ()
  | .query h => .ok ((Local.children share.tree (pathOf h)).map fun c =>
      .ok ⟨c.getLast?.getD [], share.tree.isDir c⟩)
  | .close _ => .ok ()

theorem Share.reply_serves (share : Share) {handleOf : Path → Handle} {pathOf : Handle → Path}
    (h : ∀ p, pathOf (handleOf p) = p) (c : ListCall) :
    ServesListing share pathOf ⟨c, share.reply handleOf pathOf c⟩ := by
  cases c with
  | openDirectory target =>
    simp only [ServesListing, Share.reply]
    cases share.tree.lookup (sharePath target) with
    | none => exact ⟨.objectNameNotFound, [], Or.inl rfl, rfl⟩
    | some node =>
      cases node with
      | dir => exact ⟨_, rfl, h _⟩
      | file b modified => exact ⟨0, rfl⟩
  | closeResource handle => trivial
  | query handle =>
    have hlast : ∀ c ∈ Local.children share.tree (pathOf handle),
        c = pathOf handle ++ [c.getLast?.getD []] := by
      intro c hc
      obtain ⟨name, heq, _⟩ := Local.mem_children.mp hc
      simp [heq]
    refine ⟨(Local.children share.tree (pathOf handle)).map fun c =>
      ⟨c.getLast?.getD [], share.tree.isDir c⟩, by simp [Share.reply], ?_, fun e _ => ?_⟩
    · refine (Local.nodup_children share.tree (pathOf handle)).map_on fun c hc c' hc' he => ?_
      rw [hlast c hc, hlast c' hc', (DirEntry.mk.inj he).1]
    · rw [List.mem_map]
      constructor
      · intro he
        obtain ⟨c, hc, he⟩ := he
        subst he
        obtain ⟨_, _, hl⟩ := Local.mem_children.mp hc
        obtain ⟨node, hnode⟩ := Option.ne_none_iff_exists'.mp hl
        refine ⟨node, by rw [← hlast c hc, hnode], ?_⟩
        rw [FileTree.isDir_iff, hnode, Option.some.injEq]
      · intro he
        obtain ⟨node, hnode, hdir⟩ := he
        refine ⟨pathOf handle ++ [e.name], Local.mem_children.mpr ⟨e.name, rfl, by simp [hnode]⟩, ?_⟩
        have hkind : share.tree.isDir (pathOf handle ++ [e.name]) = e.isDirectory := by
          rw [Bool.eq_iff_iff, hdir, FileTree.isDir_iff, hnode, Option.some.injEq]
        rw [hkind]
        simp
  | close handle => rfl

/-- Every share is served by some server. -/
theorem exists_pageServed (parsesUuid : Str → Bool) (config : SmbStorageConfig) (pre : Str)
    (limit : ℕ) (share : Share) (token : Option Str) :
    ∃ result, PageServed parsesUuid config pre limit share token result := by
  have hchars : Function.Injective Char.toNat := fun c d h => Char.toNat_inj.mp h
  have : Countable Char := hchars.countable
  obtain ⟨handleOf, hinj⟩ := exists_injective_nat (List (List Char))
  have hinverse := Function.leftInverse_invFun hinj
  obtain ⟨log, hrun, hlog⟩ := exec_runsTo
    (fun c (u : Unit) => (share.reply handleOf (Function.invFun handleOf) c, u))
    (listBlobsPage parsesUuid config (share.tree.entries.length + 1) pre token limit) ()
  refine ⟨_, _, log, Function.invFun handleOf, Nat.lt_succ_self _, hrun, fun e hmem => ?_⟩
  obtain ⟨_, hreply⟩ := hlog e hmem
  have he : e = ⟨e.1, share.reply handleOf (Function.invFun handleOf) e.1⟩ :=
    Sigma.ext rfl (heq_of_eq hreply)
  rw [he]
  exact share.reply_serves hinverse e.1

/-- The pages from a token on until there is none, with the share that each page met and the
keys they returned. -/
inductive Drained (parsesUuid : Str → Bool) (config : SmbStorageConfig) (pre : Str) (limit : ℕ) :
    Option Str → List Share → List Str → Prop
  | last {token : Option Str} {share : Share} {page : BlobListPage} :
      PageServed parsesUuid config pre limit share token (.ok page) →
      page.nextContinuation = none → Drained parsesUuid config pre limit token [share] page.keys
  | more {token : Option Str} {share : Share} {page : BlobListPage} {next : Str}
      {shares : List Share} {keys : List Str} :
      PageServed parsesUuid config pre limit share token (.ok page) →
      page.nextContinuation = some next →
      Drained parsesUuid config pre limit (some next) shares keys →
      Drained parsesUuid config pre limit token (share :: shares) (page.keys ++ keys)

/-- The page of a share. -/
def pageOf (parsesUuid : Str → Bool) (config : SmbStorageConfig) (pre : Str) (limit : ℕ)
    (share : Share) (token : Option Str) : BlobListPage :=
  let left := Paging.after token (keysWith parsesUuid config share.tree pre)
  ⟨left.take limit, Paging.nextToken limit left⟩

theorem PageServed.eq (hroot : ValidRoot config) (hpre : validateBlobPrefix pre = .ok ())
    (hlimit : 1 ≤ limit) {result : Except Stop BlobListPage}
    (h : PageServed parsesUuid config pre limit share token result) :
    result = .ok (pageOf parsesUuid config pre limit share token) := by
  obtain ⟨fuel, log, pathOf, hfuel, hrun, hserves⟩ := h
  exact listBlobsPage_sorted hroot hfuel hpre hlimit hrun hserves

theorem pageServed_pageOf (hroot : ValidRoot config) (hpre : validateBlobPrefix pre = .ok ())
    (hlimit : 1 ≤ limit) (share : Share) (token : Option Str) :
    PageServed parsesUuid config pre limit share token
      (.ok (pageOf parsesUuid config pre limit share token)) := by
  obtain ⟨result, h⟩ := exists_pageServed parsesUuid config pre limit share token
  exact h.eq hroot hpre hlimit ▸ h

/-- The pages of a drain are those of the sorted keys each of them met. -/
theorem Drained.changingDrain (hroot : ValidRoot config) (hpre : validateBlobPrefix pre = .ok ())
    (hlimit : 1 ≤ limit) {shares : List Share} {keys : List Str}
    (h : Drained parsesUuid config pre limit token shares keys) :
    Paging.ChangingDrain limit token
      (shares.map fun share => keysWith parsesUuid config share.tree pre) keys := by
  induction h with
  | last hpage hnext =>
    obtain rfl := Except.ok.inj (hpage.eq hroot hpre hlimit)
    exact .last hnext
  | more hpage hnext _ ih =>
    obtain rfl := Except.ok.inj (hpage.eq hroot hpre hlimit)
    exact .more hnext ih

/-- The key of a file below the root names its path. -/
theorem mappedKey_joinPath {q : Path} (h : share.tree.files (rootPath config ++ q) ≠ none)
    (hne : q ≠ []) : mappedKey config (joinPath q) = .ok (joinPath (rootPath config ++ q)) := by
  have hq : Plain q := plain_of_file h
  have hkey : ValidKey (joinPath q) := by
    constructor
    · intro hb
      obtain ⟨c, hc, hb⟩ := (mem_splitOn_iff (show '\\' ≠ '/' by decide) (joinPath q)).mp hb
      rw [splitOn_joinPath hq hne] at hc
      exact (hq c hc).2.2 hb
    · rw [splitOn_joinPath hq hne]
      obtain ⟨b, hb⟩ := Option.ne_none_iff_exists'.mp h
      obtain ⟨modified, hl⟩ := FileTree.files_eq_some.mp hb
      intro c hc
      exact share.tree.limits.legal c
        (FileTree.accepted_of_lookup hl c (List.mem_append_right _ hc))
  rw [mappedKey_of_valid config hkey, joinPath_append hq hne]

theorem mappedKey_injective {key key' path : Str} (h : mappedKey config key = .ok path)
    (h' : mappedKey config key' = .ok path) : key = key' := by
  unfold mappedKey at h h'
  cases hv : validateBlobKey key with
  | error e => simp [hv] at h
  | ok _ =>
    cases hv' : validateBlobKey key' with
    | error e => simp [hv'] at h'
    | ok _ =>
      simp only [hv, hv', Except.ok.injEq] at h h'
      rw [← keyOfChild_belowRoot config key, h, ← h', keyOfChild_belowRoot]

/-- A file that `list_blobs` is to report: below the root, not temporary, its key under the
prefix. -/
def Reported (parsesUuid : Str → Bool) (config : SmbStorageConfig) (pre : Str) (t : FileTree)
    (q : Path) : Prop :=
  q ≠ [] ∧ t.files (rootPath config ++ q) ≠ none ∧ isTempKey parsesUuid (joinPath q) = false ∧
    pre <+: joinPath q

theorem mem_keysWith_iff {key : Str} : key ∈ keysWith parsesUuid config share.tree pre ↔
    ∃ q, Reported parsesUuid config pre share.tree q ∧ key = joinPath q := by
  rw [mem_keysWith, mem_sortedKeys]
  constructor
  · intro h
    obtain ⟨⟨q, hne, hfile, htemp, hkey⟩, hp⟩ := h
    exact ⟨q, ⟨hne, hfile, htemp, hkey ▸ hp⟩, hkey⟩
  · intro h
    obtain ⟨q, ⟨hne, hfile, htemp, hp⟩, hkey⟩ := h
    exact ⟨⟨q, hne, hfile, htemp, hkey⟩, hkey ▸ hp⟩

/-- Every page call succeeds. A drain returns keys in strictly ascending order, each of them the
key of a file that some page met, and of every file that all of its pages met exactly one key,
which maps to its path. On a share that does not change the loop of `list_blobs` ends. -/
theorem drain_complete (parsesUuid : Str → Bool) (config : SmbStorageConfig)
    (hroot : ValidRoot config) (pre : Str) (hpre : validateBlobPrefix pre = .ok ()) (limit : ℕ)
    (hlimit : 1 ≤ limit) :
    (∀ share token result, PageServed parsesUuid config pre limit share token result →
      ∃ page, result = .ok page) ∧
    (∀ shares keys, Drained parsesUuid config pre limit none shares keys →
      keys.Pairwise (· < ·) ∧
      (∀ key ∈ keys, ∃ share ∈ shares, ∃ q, Reported parsesUuid config pre share.tree q ∧
        key = joinPath q) ∧
      ∀ q, (∀ share ∈ shares, Reported parsesUuid config pre share.tree q) →
        ∃! key, key ∈ keys ∧ mappedKey config key = .ok (joinPath (rootPath config ++ q))) ∧
    ∀ (share : Share) (walkFuel fuel : ℕ) (log : List (Sigma ListRequests.Reply))
      (pathOf : Handle → Path) (result : Except Stop (List Str)),
      share.tree.entries.length < walkFuel → share.tree.entries.length < fuel →
      RunsTo (drainPages parsesUuid config walkFuel pre limit fuel none []) log result →
      (∀ e ∈ log, ServesListing share pathOf e) →
      ∃ keys, result = .ok keys ∧
        ∀ key, key ∈ keys ↔ ∃ q, Reported parsesUuid config pre share.tree q ∧ key = joinPath q := by
  refine ⟨fun share token result h => ⟨_, h.eq hroot hpre hlimit⟩, fun shares keys h => ?_, ?_⟩
  · have hdrain := h.changingDrain hroot hpre hlimit
    have hsorted : ∀ items ∈ shares.map fun share => keysWith parsesUuid config share.tree pre,
        items.Pairwise (· < ·) := by
      intro items hitems
      obtain ⟨share, _, heq⟩ := List.mem_map.mp hitems
      exact heq ▸ pairwise_keysWith pre
    refine ⟨hdrain.pairwise hlimit hsorted, fun key hkey => ?_, fun q hq => ?_⟩
    · obtain ⟨items, hitems, hkey⟩ := hdrain.mem_some key hkey
      obtain ⟨share, hshare, heq⟩ := List.mem_map.mp hitems
      subst heq
      exact ⟨share, hshare, mem_keysWith_iff.mp hkey⟩
    · have hstays : joinPath q ∈ keys := by
        refine hdrain.mem_of_stays hlimit hsorted rfl fun items hitems => ?_
        obtain ⟨share, hshare, heq⟩ := List.mem_map.mp hitems
        subst heq
        exact mem_keysWith_iff.mpr ⟨q, hq share hshare, rfl⟩
      have hmapped : mappedKey config (joinPath q) = .ok (joinPath (rootPath config ++ q)) := by
        obtain ⟨items, hitems, _⟩ := hdrain.mem_some _ hstays
        obtain ⟨share, hshare, _⟩ := List.mem_map.mp hitems
        exact mappedKey_joinPath (hq share hshare).2.1 (hq share hshare).1
      exact ⟨_, ⟨hstays, hmapped⟩, fun key hkey => mappedKey_injective hkey.2 hmapped⟩
  · intro share walkFuel fuel log pathOf result hwalk hfuel hrun hserves
    have hlen : (keysWith parsesUuid config share.tree pre).length < fuel :=
      ((List.length_filter_le _ _).trans length_sortedKeys_le).trans_lt hfuel
    exact ⟨_, drainPages_all hroot hwalk hpre hlimit hlen hrun hserves, fun _ => mem_keysWith_iff⟩

/-- A share of files in its root. -/
def flatShare (names : List Str) (hnodup : names.Nodup)
    (hnames : ∀ c ∈ names, LegalName c ∧ '\\' ∉ c) : Share where
  tree := {
    limits := {
      acceptsName := fun c => decide (LegalName c ∧ '\\' ∉ c)
      maxFileSize := 2 ^ 63 - 1
      legal := fun _ => legalName_of_slashless
      offset_bound := Limits.largestOffset_lt }
    entries := names.map fun c => ([c], .file [1] 0)
    nodup := by
      rw [List.map_map]
      exact hnodup.map fun c d h => List.singleton_inj.mp h
    nonempty := by simp
    accepted := by simpa using hnames
    parent := by simp }
  names := fun c h => (of_decide_eq_true h).2

/-- The file that a page ends with stays, the other one is deleted before the next page. -/
theorem drain_complete_deleted : ∃ keys, Drained (fun _ => false) ⟨none, 1⟩ [] 1 none
    [flatShare ["a".toList, "b".toList] (by decide) (by decide),
      flatShare ["a".toList] (by decide) (by decide)] keys ∧
    keys.Pairwise (· < ·) ∧
    ∃! key, key ∈ keys ∧ mappedKey ⟨none, 1⟩ key = .ok "a".toList := by
  have hroot : ValidRoot ⟨none, 1⟩ := fun root h => by cases h
  have hdrain : Drained (fun _ => false) ⟨none, 1⟩ [] 1 none
      [flatShare ["a".toList, "b".toList] (by decide) (by decide),
        flatShare ["a".toList] (by decide) (by decide)] _ :=
    @Drained.more _ _ _ _ _ _ _ "a".toList _ _ (pageServed_pageOf hroot rfl (le_refl 1) _ _)
      (by decide +kernel)
      (.last (pageServed_pageOf hroot rfl (le_refl 1) _ _) (by decide +kernel))
  obtain ⟨horder, _, hstays⟩ :=
    (drain_complete (fun _ => false) ⟨none, 1⟩ hroot [] rfl 1 (le_refl 1)).2.1 _ _ hdrain
  refine ⟨_, hdrain, horder, hstays ["a".toList] fun share hshare => ?_⟩
  simp only [List.mem_cons, List.not_mem_nil, or_false] at hshare
  rcases hshare with h | h
  · subst h
    exact ⟨by decide, by decide, by decide, by decide⟩
  · subst h
    exact ⟨by decide, by decide, by decide, by decide⟩

end GraphqlOrmStorage.Smb
