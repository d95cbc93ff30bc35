import GraphqlOrmStorage.LocalBlob
import GraphqlOrmStorage.LocalListing
import GraphqlOrmStorage.S3
import GraphqlOrmStorage.SmbListing

/-!
# Listings of the three providers

The same set of keys is listed with the same prefix by each provider. The local
backend starts its walk at the path that the prefix names, SMB filters the
sorted keys of a walk over everything, and S3 leaves the prefix to the server.
Each listing is compared with the keys that start with the prefix, in order.
-/
namespace GraphqlOrmStorage.PrefixListing

open Text Program Prog

/-- The keys that start with the prefix, in ascending order. -/
def expectedKeys (K : Finset Str) (pre : Str) : List Str := (K.filter fun key => pre <+: key).sort

theorem mem_expectedKeys {K : Finset Str} {pre key : Str} :
    key ∈ expectedKeys K pre ↔ key ∈ K ∧ pre <+: key := by
  simp [expectedKeys]

theorem nodup_expectedKeys (K : Finset Str) (pre : Str) : (expectedKeys K pre).Nodup :=
  Finset.sort_nodup _ _

theorem pairwise_expectedKeys (K : Finset Str) (pre : Str) : (expectedKeys K pre).Pairwise (· < ·) :=
  (Finset.sortedLT_sort _).pairwise

/-! ### The local backend -/

section Local

open Local FileTree

variable {t : FileTree} {K : Finset Str} {pre : Str}

/-- The tree holds files for these keys, which are valid, and no others. -/
structure Stores (t : FileTree) (K : Finset Str) : Prop where
  valid : ∀ key ∈ K, ValidKey key
  files : ∀ q, t.files q ≠ none ↔ ∃ key ∈ K, q = key.splitOn '/'

/-- A run of the blob operations from an empty root stores the keys of its abstract store. -/
theorem stores_of_run {D : Digest} {limits : Limits} {log : List (BlobEvent × BlobReply)}
    {M : BlobMap} (h : BlobRun D limits log t M) (hM : ∀ key, M key ≠ none ↔ key ∈ K)
    (hK : ∀ key ∈ K, validateBlobKey key = .ok ()) : Stores t K where
  valid := fun key hkey => validateBlobKey_eq_ok.mp (hK key hkey)
  files := by
    intro q
    have href := h.refines.1
    constructor
    · intro hq
      obtain ⟨key, hk, heq⟩ := h.files_valid hq
      rw [heq, href key hk] at hq
      exact ⟨key, (hM key).mp hq, heq⟩
    · intro hq
      obtain ⟨key, hmem, heq⟩ := hq
      rw [heq, href key (validateBlobKey_eq_ok.mp (hK key hmem))]
      exact (hM key).mpr hmem

/-- Where the local listing is the expected one: the start of the walk resolves, every key with
the prefix lies below it and is not hidden, and the walk meets these keys in their order. -/
structure LocalLists (t : FileTree) (K : Finset Str) (pre : Str) : Prop where
  resolves : StartResolves t pre
  below : ∀ key ∈ K, pre <+: key →
    startPath pre <+: key.splitOn '/' ∧ isVisible (key.splitOn '/') = true
  ordered : ∀ key ∈ K, ∀ key' ∈ K, pre <+: key → pre <+: key' → key < key' →
    key.splitOn '/' ≤ key'.splitOn '/'

theorem startPath_eq (hpre : validateBlobPrefix pre = .ok ()) (hne : pre ≠ []) :
    startPath pre = pre.splitOn '/' := by
  rw [validateBlobPrefix, if_neg hne] at hpre
  rw [startPath, if_neg hne, (validateBlobKey_eq_ok.mp hpre).relativePath_eq]

/-- What lies below the start begins with the prefix. -/
theorem prefix_of_startPath (hpre : validateBlobPrefix pre = .ok ()) {key : Str}
    (h : startPath pre <+: key.splitOn '/') : pre <+: key := by
  by_cases hne : pre = []
  · rw [hne]
    exact List.nil_prefix
  · rw [startPath_eq hpre hne] at h
    obtain ⟨rest, hrest⟩ := h
    cases rest with
    | nil =>
      rw [List.append_nil] at hrest
      rw [splitOn_injective '/' hrest]
    | cons c rest =>
      have hparts : (['/'].intercalate (c :: rest)).splitOn '/' = c :: rest := by
        refine List.splitOn_intercalate '/' (fun part hpart => ?_) (List.cons_ne_nil c rest)
        exact not_mem_of_mem_splitOn (hrest ▸ List.mem_append_right _ hpart)
      have hkey : key = pre ++ '/' :: ['/'].intercalate (c :: rest) := by
        apply splitOn_injective '/'
        rw [List.splitOn_append_cons_self, hparts, hrest]
      rw [hkey]
      exact List.prefix_append _ _

theorem mem_visibleKeys (hs : Stores t K) {p : Path} {key : Str} :
    key ∈ visibleKeys t p ↔ key ∈ K ∧ p <+: key.splitOn '/' ∧
      isVisible (key.splitOn '/') = true := by
  rw [visibleKeys, List.mem_map]
  constructor
  · intro h
    obtain ⟨q, hq, he⟩ := h
    obtain ⟨hbelow, hvisible⟩ := List.mem_filter.mp hq
    obtain ⟨hp, hfile⟩ := mem_filesBelow.mp hbelow
    obtain ⟨key', hmem, heq⟩ := (hs.files q).mp hfile
    rw [heq, keyForPath_splitOn (hs.valid key' hmem)] at he
    subst he heq
    exact ⟨hmem, hp, hvisible⟩
  · intro h
    obtain ⟨hmem, hp, hvisible⟩ := h
    refine ⟨key.splitOn '/', List.mem_filter.mpr ⟨mem_filesBelow.mpr ⟨hp, ?_⟩, hvisible⟩,
      keyForPath_splitOn (hs.valid key hmem)⟩
    exact (hs.files _).mpr ⟨key, hmem, rfl⟩

/-- The walk meets each key once, in the order of the paths. -/
theorem visibleKeys_ordered (hs : Stores t K) (p : Path) :
    (visibleKeys t p).Nodup ∧
      (visibleKeys t p).Pairwise fun key key' => key.splitOn '/' ≤ key'.splitOn '/' := by
  have hpath : ∀ q ∈ (filesBelow t p).filter isVisible, (keyForPath q).splitOn '/' = q := by
    intro q hq
    obtain ⟨key, hmem, heq⟩ :=
      (hs.files q).mp (mem_filesBelow.mp (List.mem_filter.mp hq).1).2
    rw [heq, keyForPath_splitOn (hs.valid key hmem)]
  constructor
  · refine ((nodup_filesBelow t p).filter _).map_on fun q hq q' hq' he => ?_
    rw [← hpath q hq, ← hpath q' hq', he]
  · refine List.pairwise_map.mpr (((pairwise_filesBelow t p).filter _).imp_of_mem ?_)
    intro q q' hq hq' hle
    rwa [hpath q hq, hpath q' hq']

/-- The walk returns the expected keys exactly when all of them are below its start and shown,
and the order of the paths is their order. -/
theorem visibleKeys_eq_iff (hs : Stores t K) (hpre : validateBlobPrefix pre = .ok ()) :
    visibleKeys t (startPath pre) = expectedKeys K pre ↔
      (∀ key ∈ K, pre <+: key →
        startPath pre <+: key.splitOn '/' ∧ isVisible (key.splitOn '/') = true) ∧
      ∀ key ∈ K, ∀ key' ∈ K, pre <+: key → pre <+: key' → key < key' →
        key.splitOn '/' ≤ key'.splitOn '/' := by
  obtain ⟨hnodup, hpaths⟩ := visibleKeys_ordered hs (startPath pre)
  constructor
  · intro h
    refine ⟨fun key hmem hp => ?_, fun key hmem key' hmem' hp hp' hlt => ?_⟩
    · have hkey : key ∈ visibleKeys t (startPath pre) := h ▸ mem_expectedKeys.mpr ⟨hmem, hp⟩
      exact ((mem_visibleKeys hs).mp hkey).2
    · rw [h] at hpaths
      obtain ⟨i, hi, hkey⟩ := List.getElem_of_mem (mem_expectedKeys.mpr ⟨hmem, hp⟩)
      obtain ⟨j, hj, hkey'⟩ := List.getElem_of_mem (mem_expectedKeys.mpr ⟨hmem', hp'⟩)
      have hstrings := List.pairwise_iff_getElem.mp (pairwise_expectedKeys K pre)
      rcases Nat.lt_trichotomy i j with hij | hij | hij
      · have hle := List.pairwise_iff_getElem.mp hpaths i j hi hj hij
        rwa [hkey, hkey'] at hle
      · subst hij
        exact absurd (hkey.symm.trans hkey') hlt.ne
      · have hgt := hstrings j i hj hi hij
        rw [hkey, hkey'] at hgt
        exact absurd hgt hlt.asymm
  · intro h
    obtain ⟨hbelow, hordered⟩ := h
    have hperm : (visibleKeys t (startPath pre)).Perm (expectedKeys K pre) := by
      refine (List.perm_ext_iff_of_nodup hnodup (nodup_expectedKeys K pre)).mpr fun key => ?_
      rw [mem_visibleKeys hs, mem_expectedKeys]
      constructor
      · intro hkey
        exact ⟨hkey.1, prefix_of_startPath hpre hkey.2.1⟩
      · intro hkey
        exact ⟨hkey.1, hbelow key hkey.1 hkey.2⟩
    have hstrings : (visibleKeys t (startPath pre)).Pairwise (· ≤ ·) := by
      refine hpaths.imp_of_mem fun {key key'} hkey hkey' hle => ?_
      obtain ⟨hmem, hp, _⟩ := (mem_visibleKeys hs).mp hkey
      obtain ⟨hmem', hp', _⟩ := (mem_visibleKeys hs).mp hkey'
      by_contra hgt
      have hge := hordered key' hmem' key hmem (prefix_of_startPath hpre hp')
        (prefix_of_startPath hpre hp) (not_le.mp hgt)
      exact hgt (splitOn_injective '/' (le_antisymm hle hge)).le
    exact hperm.eq_of_pairwise' hstrings
      ((pairwise_expectedKeys K pre).imp fun h => le_of_lt h)

/-- `list_blobs` returns the expected keys exactly where `LocalLists` says so. -/
theorem local_listBlobs_iff (hs : Stores t K) (hpre : validateBlobPrefix pre = .ok ()) (now : ℤ) :
    (∃ bound, ∀ fuel, bound ≤ fuel →
      (FsM.run now (Local.listBlobs fuel pre) t).1 = .ok (expectedKeys K pre)) ↔
      LocalLists t K pre := by
  have hlimit : 1 ≤ 1000 := by decide
  have hwrap : 1000 + 1 < 2 ^ 64 := by decide
  have hcap : stringSize * (1000 + 1) ≤ isizeMax := by decide
  have hmem : ∀ key ∈ visibleKeys t (startPath pre), key ∈ expectedKeys K pre := by
    intro key hkey
    obtain ⟨hk, hp, _⟩ := (mem_visibleKeys hs).mp hkey
    exact mem_expectedKeys.mpr ⟨hk, prefix_of_startPath hpre hp⟩
  constructor
  · intro h
    have hresolves : StartResolves t pre := by
      obtain ⟨bound, hbound⟩ := h
      -- Enough for the walk and for the loop over its pages.
      obtain ⟨fuel, hfuel⟩ : ∃ n, n + 1 = bound + t.entries.length + 1 := ⟨_, rfl⟩
      have hrun := hbound (fuel + 1) (by omega)
      simp only [listBlobs, Local.drainPages, bind_eq_bind, FsM.run_bind] at hrun
      cases hpage : (FsM.run now (listBlobsPage (fuel + 1) pre none 1000) t).1 with
      | error stop => simp [hpage] at hrun
      | ok page => exact (of_listBlobsPage_ok hpre hlimit hwrap (by omega) hpage).2
    have hdrains : DrainsTo now t pre 1000 (expectedKeys K pre) := h
    rw [drainsTo_iff now hpre hresolves hlimit hcap] at hdrains
    obtain ⟨fuel, hd⟩ := hdrains
    have hnodup := (visibleKeys_ordered hs (startPath pre)).1
    have hperm : (expectedKeys K pre).Perm (visibleKeys t (startPath pre)) := by
      refine (List.perm_ext_iff_of_nodup (nodup_expectedKeys K pre) hnodup).mpr fun key => ?_
      exact ⟨Paging.mem_of_mem_drain hd key, hmem key⟩
    have heq := Paging.drain_eq_of_perm hlimit hd (nodup_expectedKeys K pre) hperm
    obtain ⟨hbelow, hordered⟩ := (visibleKeys_eq_iff hs hpre).mp heq.symm
    exact ⟨hresolves, hbelow, hordered⟩
  · intro h
    have heq := (visibleKeys_eq_iff hs hpre).mpr ⟨h.below, h.ordered⟩
    have hdrains : DrainsTo now t pre 1000 (expectedKeys K pre) := by
      rw [drainsTo_iff now hpre h.resolves hlimit hcap, heq]
      exact ⟨_, Paging.drain_of_pairwise hlimit (pairwise_expectedKeys K pre)
        (Nat.lt_succ_self _)⟩
    exact hdrains

end Local

/-! ### S3 -/

section S3

open S3

/-- The bucket's pages from a token on, one after the other, hold these keys. -/
inductive Lists (server : Server) (bucket pre : Str) : Option Str → List Str → Prop
  | last (token : Option Str) (page : List Str) :
      server ⟨bucket, pre, token, 1000⟩ = .ok ⟨page.map some, none⟩ →
      Lists server bucket pre token page
  | more (token : Option Str) (page rest : List Str) (next : Str) :
      server ⟨bucket, pre, token, 1000⟩ = .ok ⟨page.map some, some next⟩ →
      Lists server bucket pre (some next) rest → Lists server bucket pre token (page ++ rest)

/-- The bucket holds the objects of these keys and no others, and the server lists the objects
that start with a string in their order. -/
structure BucketHolds (config : S3StorageConfig) (server : Server) (K : Finset Str)
    (objects : Finset Str) : Prop where
  written : ∀ key ∈ K, ∃ object, providerKey config key = .ok object
  stored : ∀ object, object ∈ objects ↔ ∃ key ∈ K, providerKey config key = .ok object
  lists : ∀ pre, Lists server config.bucket pre none (expectedKeys objects pre)

variable {config : S3StorageConfig} {server : Server} {K objects : Finset Str} {pre : Str}

/-- The loop over the pages returns what the pages hold, decoded. -/
theorem drainPages_lists {providerPrefix : Str}
    (hreq : ∀ token, S3.listRequest config pre token 1000 =
      .ok ⟨config.bucket, providerPrefix, token, 1000⟩)
    {token : Option Str} {items : List Str}
    (h : Lists server config.bucket providerPrefix token items) :
    ∃ bound, ∀ fuel, bound ≤ fuel → ∀ keys, S3.drainPages config server pre 1000 fuel token keys =
      .ok (keys ++ (items.map (stripProviderPrefix config)).filter (· ≠ [])) := by
  induction h with
  | last token page hserver =>
    refine ⟨1, fun fuel hfuel keys => ?_⟩
    obtain ⟨fuel, rfl⟩ : ∃ n, fuel = n + 1 := ⟨fuel - 1, by omega⟩
    simp [S3.drainPages, S3.listBlobsPage, hreq, hserver, pageOf, List.filterMap_map]
  | more token page rest next hserver _ ih =>
    obtain ⟨bound, hbound⟩ := ih
    refine ⟨bound + 1, fun fuel hfuel keys => ?_⟩
    obtain ⟨fuel, rfl⟩ : ∃ n, fuel = n + 1 := ⟨fuel - 1, by omega⟩
    have hrest := hbound fuel (by omega)
    simp [S3.drainPages, S3.listBlobsPage, hreq, hserver, pageOf, List.filterMap_map, hrest]

/-- The object of a key that the configuration can encode. -/
def encode (config : S3StorageConfig) (key : Str) : Str :=
  if listRoot config = [] then key else listRoot config ++ '/' :: key

theorem providerKey_encode {key object : Str} (h : providerKey config key = .ok object) :
    ValidKey key ∧ object = encode config key := by
  by_cases hr : listRoot config = []
  · rw [encode, if_pos hr]
    exact (providerKey_eq_ok_of_root_nil hr).mp h
  · rw [encode, if_neg hr]
    obtain ⟨hk, _, hobject⟩ := (providerKey_eq_ok_of_root hr).mp h
    exact ⟨hk, hobject⟩

theorem stripProviderPrefix_encode {key : Str} (hk : ValidKey key) :
    stripProviderPrefix config (encode config key) = key := by
  by_cases hr : listRoot config = []
  · rw [encode, if_pos hr]
    refine stripProviderPrefix_of_not_prefix fun rest he => hk.not_absolute ?_
    rw [he, hr]
    rfl
  · rw [encode, if_neg hr]
    refine stripProviderPrefix_append (fun hn => hr ?_) key
    simp [listRoot, hn]

theorem encode_lt {key key' : Str} : encode config key < encode config key' ↔ key < key' := by
  have hmono : StrictMono (encode config) := by
    intro a b hab
    unfold encode
    split_ifs with hr
    · exact hab
    · rw [List.append_cons, List.append_cons _ _ b]
      exact List.append_left_lt hab
  exact hmono.lt_iff_lt

theorem encode_prefix {key : Str} : encode config pre <+: encode config key ↔ pre <+: key := by
  unfold encode
  split_ifs with hr
  · rfl
  · rw [List.prefix_append_right_inj, List.cons_prefix_cons]
    simp

/-- Every encoded key starts with the string that stands for the empty prefix. -/
theorem listRoot_prefix_encode (key : Str) : listRoot config <+: encode config key := by
  unfold encode
  split_ifs with hr
  · rw [hr]
    exact List.nil_prefix
  · exact List.prefix_append _ _

/-- The objects with the string of a prefix are those of the keys with the prefix. -/
theorem expectedKeys_objects (h : BucketHolds config server K objects) {providerPrefix : Str}
    (hpre : ∀ key ∈ K, providerPrefix <+: encode config key ↔ pre <+: key) :
    expectedKeys objects providerPrefix = (expectedKeys K pre).map (encode config) := by
  have hmap : ((expectedKeys K pre).map (encode config)).Pairwise (· < ·) :=
    List.pairwise_map.mpr ((pairwise_expectedKeys K pre).imp fun hlt => encode_lt.mpr hlt)
  refine List.Perm.eq_of_pairwise' ((pairwise_expectedKeys objects providerPrefix).imp le_of_lt)
    (hmap.imp le_of_lt) ?_
  refine (List.perm_ext_iff_of_nodup (nodup_expectedKeys objects providerPrefix)
    (hmap.imp ne_of_lt)).mpr fun object => ?_
  rw [mem_expectedKeys, h.stored, List.mem_map]
  constructor
  · intro hobject
    obtain ⟨⟨key, hmem, hkey⟩, hp⟩ := hobject
    have heq := (providerKey_encode hkey).2
    rw [heq] at hp
    exact ⟨key, mem_expectedKeys.mpr ⟨hmem, (hpre key hmem).mp hp⟩, heq.symm⟩
  · intro hobject
    obtain ⟨key, hkey, heq⟩ := hobject
    obtain ⟨hmem, hp⟩ := mem_expectedKeys.mp hkey
    obtain ⟨o, ho⟩ := h.written key hmem
    have ho' := (providerKey_encode ho).2
    rw [← heq]
    exact ⟨⟨key, hmem, ho' ▸ ho⟩, (hpre key hmem).mpr hp⟩

/-- `list_blobs` returns the expected keys exactly when the prefix is empty or can be encoded. -/
theorem s3_listBlobs_iff (h : BucketHolds config server K objects) :
    (∃ bound, ∀ fuel, bound ≤ fuel →
      S3.listBlobs config server fuel pre = .ok (expectedKeys K pre)) ↔
      pre = [] ∨ ∃ object, providerKey config pre = .ok object := by
  have hvalid : ∀ key ∈ K, ValidKey key := by
    intro key hmem
    obtain ⟨object, hobject⟩ := h.written key hmem
    exact (providerKey_encode hobject).1
  have hdecoded : (((expectedKeys K pre).map (encode config)).map
      (stripProviderPrefix config)).filter (· ≠ []) = expectedKeys K pre := by
    have hmap : ((expectedKeys K pre).map (encode config)).map (stripProviderPrefix config) =
        expectedKeys K pre := by
      rw [List.map_map]
      refine (List.map_congr_left fun key hkey => ?_).trans (List.map_id _)
      exact stripProviderPrefix_encode (hvalid key (mem_expectedKeys.mp hkey).1)
    rw [hmap, List.filter_eq_self]
    intro key hkey
    have hk := hvalid key (mem_expectedKeys.mp hkey).1
    exact decide_eq_true fun hnil => (hk.2 [] (by simp [hnil])).1 rfl
  have hreturns : ∀ providerPrefix, (∀ token, S3.listRequest config pre token 1000 =
        .ok ⟨config.bucket, providerPrefix, token, 1000⟩) →
      (∀ key ∈ K, providerPrefix <+: encode config key ↔ pre <+: key) →
      ∃ bound, ∀ fuel, bound ≤ fuel →
        S3.listBlobs config server fuel pre = .ok (expectedKeys K pre) := by
    intro providerPrefix hreq hpre
    obtain ⟨bound, hbound⟩ := drainPages_lists hreq (h.lists providerPrefix)
    refine ⟨bound, fun fuel hfuel => ?_⟩
    rw [S3.listBlobs, hbound fuel hfuel, expectedKeys_objects h hpre, hdecoded, List.nil_append]
  constructor
  · intro hlists
    by_contra hnot
    obtain ⟨hne, hcode⟩ := not_or.mp hnot
    obtain ⟨bound, hbound⟩ := hlists
    have hrun := hbound (bound + 1) (by omega)
    cases hk : providerKey config pre with
    | ok object => exact hcode ⟨object, hk⟩
    | error e =>
      simp [S3.listBlobs, S3.drainPages, S3.listBlobsPage, S3.listRequest, hne, hk] at hrun
  · intro hcond
    by_cases hnil : pre = []
    · subst hnil
      refine hreturns (listRoot config) (fun token => ?_) fun key _ => ?_
      · simp [S3.listRequest, listRoot, i32Max]
      · simp [listRoot_prefix_encode]
    · obtain ⟨object, hobject⟩ := hcond.resolve_left hnil
      refine hreturns object (fun token => ?_) fun key _ => ?_
      · simp [S3.listRequest, hnil, hobject, i32Max]
      · rw [(providerKey_encode hobject).2, encode_prefix]

end S3

/-! ### Agreement -/

/-- SMB filters the sorted keys; only temporary names are missing. -/
theorem listedKeys_eq_iff {parsesUuid : Str → Bool} {K : Finset Str} {pre : Str} :
    Smb.listedKeys parsesUuid K pre = expectedKeys K pre ↔
      ∀ key ∈ K, pre <+: key → Smb.isTempKey parsesUuid key = false := by
  have hmem : ∀ key, key ∈ Smb.listedKeys parsesUuid K pre ↔
      (key ∈ K ∧ Smb.isTempKey parsesUuid key = false) ∧ pre <+: key := by
    intro key
    simp [Smb.listedKeys]
  have hsorted : (Smb.listedKeys parsesUuid K pre).Pairwise (· < ·) :=
    (Finset.sortedLT_sort _).pairwise.filter _
  constructor
  · intro h key hkey hp
    exact ((hmem key).mp (h ▸ mem_expectedKeys.mpr ⟨hkey, hp⟩)).1.2
  · intro h
    refine List.Perm.eq_of_pairwise' (hsorted.imp le_of_lt)
      ((pairwise_expectedKeys K pre).imp le_of_lt) ?_
    refine (List.perm_ext_iff_of_nodup (hsorted.imp ne_of_lt)
      (nodup_expectedKeys K pre)).mpr fun key => ?_
    rw [hmem, mem_expectedKeys]
    constructor
    · intro hkey
      exact ⟨hkey.1.1, hkey.2⟩
    · intro hkey
      exact ⟨⟨hkey.1, h key hkey.1 hkey.2⟩, hkey.2⟩

/-- The put of one byte. -/
def samplePut (key : String) : Local.BlobEvent :=
  ⟨.put key.toList (.fromBytes [1]) ⟨none⟩, Local.sampleUuid 0, 0⟩

/-- A local store after one put. -/
def sampleTree (key : String) : FileTree :=
  ((samplePut key).exec Digest.sha256 (FileTree.empty Limits.widest)).2

theorem sampleRun (key : String) (outcome : BlobWriteOutcome)
    (h : (FsM.run 0 (Local.putBlob Digest.sha256 (Local.sampleUuid 0) key.toList (.fromBytes [1])
      ⟨none⟩) (FileTree.empty Limits.widest)).1 = .ok outcome) :
    ∃ log M, Local.BlobRun Digest.sha256 Limits.widest log (sampleTree key) M ∧
      ∀ k, M k ≠ none ↔ k ∈ ({key.toList} : Finset Str) := by
  refine ⟨_, _, .step (samplePut key) .start (by simp [Local.FreshUuid, FileTree.empty]), ?_⟩
  intro k
  simp [samplePut, Local.BlobEvent.exec, h, Local.BlobOp.apply, Function.update_apply]

/-- A filesystem without backslashes in names. -/
def sampleLimits : Limits where
  acceptsName c := decide (LegalName c ∧ '\\' ∉ c)
  maxFileSize := 2 ^ 63 - 1
  legal := fun _ => Smb.legalName_of_slashless
  offset_bound := Limits.largestOffset_lt

/-- A share of one file in its root. -/
def sampleShare : Smb.Share where
  tree := {
    limits := sampleLimits
    entries := [(["a".toList], .file [1] 0)]
    nodup := by simp
    nonempty := by simp
    accepted := by decide
    parent := by simp }
  names := fun c h => (of_decide_eq_true h).2

theorem lookup_sampleShare (p : Path) : sampleShare.tree.lookup p =
    if p = [] then some .dir else if p = ["a".toList] then some (.file [1] 0) else none := by
  unfold FileTree.lookup
  by_cases hp : p = []
  · rw [if_pos hp, if_pos hp]
  · rw [if_neg hp, if_neg hp]
    by_cases ha : p = ["a".toList]
    · subst ha
      rfl
    · have hb : (p == ["a".toList]) = false := by simpa using ha
      rw [if_neg ha, sampleShare, List.lookup_cons, hb]
      rfl

theorem holds_sampleShare : sampleShare.Holds ⟨none, 1⟩ {"a".toList} := by
  intro q
  have hsplit : "a".toList.splitOn '/' = ["a".toList] := by decide
  simp only [Finset.mem_singleton, exists_eq_left, hsplit]
  show sampleShare.tree.files q ≠ none ↔ q = ["a".toList]
  rw [FileTree.files, lookup_sampleShare]
  by_cases hq : q = []
  · subst hq
    simp
  · by_cases ha : q = [['a']]
    · subst ha
      simp
    · simp [hq, ha]

/-- The requests of one page. -/
def sampleListing : List (Sigma Smb.ListRequests.Reply) :=
  [⟨.openDirectory [], .ok (.directory 0)⟩, ⟨.query 0, .ok [.ok ⟨"a".toList, false⟩]⟩,
    ⟨.close 0, .ok ()⟩]

theorem serves_sampleListing : ∀ e ∈ sampleListing, Smb.ServesListing sampleShare (fun _ => []) e := by
  intro e he
  simp only [sampleListing, List.mem_cons, List.not_mem_nil, or_false] at he
  rcases he with rfl | rfl | rfl
  · exact ⟨0, rfl, rfl⟩
  · refine ⟨[⟨"a".toList, false⟩], rfl, by simp, fun entry _ => ?_⟩
    rw [List.nil_append, lookup_sampleShare, if_neg (by simp)]
    obtain ⟨name, isDirectory⟩ := entry
    by_cases ha : name = "a".toList
    · subst ha
      cases isDirectory <;> simp
    · simp
  · rfl

theorem bucketHolds_sample : BucketHolds ⟨"b".toList, none⟩ (S3.bucketServer ["a".toList])
    {"a".toList} {"a".toList} where
  written := by
    intro key hkey
    rw [Finset.mem_singleton.mp hkey]
    exact ⟨"a".toList, by decide⟩
  stored := by
    intro object
    have hencode : S3.providerKey ⟨"b".toList, none⟩ "a".toList = .ok "a".toList := by decide
    simp only [Finset.mem_singleton, exists_eq_left, hencode, Except.ok.injEq, eq_comm]
  lists := by
    intro pre
    refine .last none _ ?_
    by_cases hp : pre <+: ['a']
    · have hpre : pre.isPrefixOf ['a'] = true := List.isPrefixOf_iff_prefix.mpr hp
      simp [S3.bucketServer, expectedKeys, Finset.filter_singleton, hp, hpre]
    · have hpre : pre.isPrefixOf ['a'] = false := by
        rwa [← Bool.not_eq_true, List.isPrefixOf_iff_prefix]
      simp [S3.bucketServer, expectedKeys, Finset.filter_singleton, hp, hpre]

end GraphqlOrmStorage.PrefixListing
