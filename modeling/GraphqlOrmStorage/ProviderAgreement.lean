import GraphqlOrmStorage.LocalContract
import GraphqlOrmStorage.S3Contract
import GraphqlOrmStorage.Service
import GraphqlOrmStorage.SmbContract

/-!
# The providers agree

A directory, a bucket and a share that hold the same contents answer the same calls alike
and go on to hold the same contents, as long as each of them can do what is asked. Only the
share reports some errors in words of its own.
-/
namespace GraphqlOrmStorage.Contract

open Text Program
open Local (BlobMap)

/-- Where the providers keep their contents. -/
structure Providers where
  limits : Limits
  bucket : S3.S3StorageConfig
  share : Smb.SmbStorageConfig

/-- The states of the three. -/
structure Stored where
  tree : FileTree
  store : S3.Store
  files : Smb.ShareState

/-- The keys can be stored with each of them. -/
structure Providers.Coexisting (P : Providers) (K : Str → Prop) : Prop where
  tree : Local.Coexisting P.limits K
  bucket : S3.PrefixUsable P.bucket
  share : Smb.Coexisting P.share K

/-- All three hold this. -/
structure Providers.Represents (P : Providers) (K : Str → Prop) (x : Stored) (M : BlobMap) :
    Prop where
  tree : Local.Represents P.limits K x.tree M
  store : S3.Represents P.bucket x.store M
  files : Smb.Represents P.share K x.files M

/-- Each of them can do what is asked. -/
structure Providers.Within (P : Providers) (K : Str → Prop) (M : BlobMap) (q : StoreCall) :
    Prop where
  tree : Local.StoreLimits P.limits K M q
  bucket : S3.StoreLimits P.bucket M q
  share : Smb.StoreLimits K M q

/-- A body in two chunks, a copy below a directory, a conditional put of a key that is taken, and
calls on keys that are missing or not valid. -/
def sampleCalls : List StoreCall :=
  [.putBlob "a".toList ⟨[.ok [1], .ok [2]], none⟩ ⟨none⟩, .copyBlob "a".toList "d/b".toList,
    .putBlobIfNotExists "a".toList (.fromBytes [3]) ⟨none⟩, .getBlob "d/b".toList,
    .deleteBlob "a".toList, .headBlob "d/b".toList, .getBlob "a".toList, .blobExists "../a".toList]

def sampleProviders : Providers :=
  ⟨Limits.widest, ⟨"bucket".toList, some "root".toList⟩, ⟨some "root".toList, 1⟩⟩

def sampleKeys (key : Str) : Prop := key = "a".toList ∨ key = "d/b".toList

instance : DecidablePred sampleKeys := fun _ => inferInstanceAs (Decidable (_ ∨ _))

def nothingStored : Stored :=
  ⟨FileTree.empty Limits.widest, S3.emptyStore, ⟨Smb.Server.empty, fun _ => false⟩⟩

theorem sampleKeys_valid {key : Str} (h : sampleKeys key) : ValidKey key := by
  rcases h with rfl | rfl
  · exact validateBlobKey_eq_ok.mp (by decide)
  · exact validateBlobKey_eq_ok.mp (by decide)

theorem sampleKeys_apart {key key' : Str} (h : sampleKeys key) (h' : sampleKeys key')
    (hpre : key.splitOn '/' <+: key'.splitOn '/') : key = key' := by
  rcases h with rfl | rfl <;> rcases h' with rfl | rfl
  · rfl
  · exact absurd hpre (by decide)
  · exact absurd hpre (by decide)
  · rfl

theorem sampleProviders_coexisting : sampleProviders.Coexisting sampleKeys := by
  have hname : ∀ key, sampleKeys key → ∀ c ∈ key.splitOn '/', LegalName c :=
    fun key h => (sampleKeys_valid h).2
  refine ⟨⟨fun key h => sampleKeys_valid h, fun key key' h h' => sampleKeys_apart h h', ?_, ?_⟩,
    Or.inr (validateBlobKey_eq_ok.mp (by decide)), ⟨?_, fun key h => sampleKeys_valid h,
      fun key key' h h' => sampleKeys_apart h h'⟩⟩
  · exact fun key h c hc => by simpa [sampleProviders, Limits.widest] using hname key h c hc
  · intro key h u
    have hlast : LegalName ((key.splitOn '/').getLast?.getD []) :=
      hname key h _ (Smb.lastPart_mem key)
    simpa [sampleProviders, Limits.widest] using Service.legalName_tempName hlast
  · intro root hroot
    obtain rfl := Option.some.inj hroot
    decide

theorem nothingStored_represents :
    sampleProviders.Represents sampleKeys nothingStored fun _ => none := by
  refine ⟨⟨rfl, fun key _ => FileTree.files_empty .., ?_, fun key _ q _ => FileTree.files_empty ..⟩,
    ⟨fun key place _ => rfl, ?_⟩, ⟨⟨?_, ?_, ?_, ?_, ?_⟩, fun key _ => rfl, ?_, ?_⟩⟩
  · intro key h
    rcases h with rfl | rfl <;> decide
  · exact Set.Finite.subset Set.finite_empty fun u hu => hu rfl
  · intro p f hf
    cases hf
  · intro p f hf
    cases hf
  · intro p p' f hf
    cases hf
  · exact fun f => Nat.zero_le _
  · intro h f hf
    cases hf
  · intro key h
    rcases h with rfl | rfl <;> decide
  · exact fun key _ q _ _ => rfl

theorem sampleCalls_within (M : BlobMap) :
    AllWithin (serve Digest.sha256) (sampleProviders.Within sampleKeys) M sampleCalls := by
  have hnames : ∀ q ∈ sampleCalls, ∀ key ∈ q.keys, sampleKeys key ∨ ¬ ValidKey key := by
    decide +kernel
  have hsizes : ∀ q ∈ sampleCalls, q.size ≤ 2 := by decide
  refine allWithin_of_forall (fun q hq M => ?_) M
  have hkeys : ∀ key ∈ q.keys, ValidKey key → sampleKeys key :=
    fun key hkey hk => (hnames q hq key hkey).resolve_right fun hnot => hnot hk
  have hsize := hsizes q hq
  refine ⟨⟨hsize.trans (by decide), hkeys⟩, ⟨hsize.trans (by decide), ?_⟩,
    ⟨hsize.trans (by decide), hkeys, ?_⟩⟩
  · rintro src dst rfl
    simp only [sampleCalls, List.mem_cons, List.not_mem_nil, or_false, reduceCtorEq,
      StoreCall.copyBlob.injEq, false_or] at hq
    obtain ⟨rfl, rfl⟩ := hq
    refine ⟨by decide, fun place hplace => ?_⟩
    obtain rfl : (_, _) = place := Except.ok.inj hplace
    decide
  · rintro key body options e rfl he
    simp only [sampleCalls, List.mem_cons, List.not_mem_nil, or_false, reduceCtorEq,
      StoreCall.putBlobIfNotExists.injEq, false_or] at hq
    obtain ⟨_, rfl, _⟩ := hq
    cases he

/-- The calls on an empty directory, each with the same identifier. -/
def localRun (t : FileTree) (q : StoreCall) : StoreAnswer × FileTree :=
  FsM.run 0 (Local.storeCall Digest.sha256 (Local.sampleUuid 1) q) t

theorem exists_local : ∃ answered tree,
    Session (Local.Does Digest.sha256) nothingStored.tree sampleCalls answered tree := by
  refine ⟨_, _, session_of_run localRun
    (fun t _ => Local.FreshUuid t (Local.sampleUuid 1)) (fun t q hfresh => ⟨_, 0, hfresh, rfl⟩) ?_⟩
  decide +kernel

instance (v : Smb.ShareState) (config : Smb.SmbStorageConfig) (u : Uuid) (key : Str) :
    Decidable (Smb.FreeTemp v config u key) := inferInstanceAs (Decidable (_ ∧ _))

/-- The calls on an empty share. -/
def shareRun (v : Smb.ShareState) (q : StoreCall) : StoreAnswer × Smb.ShareState :=
  (Smb.storeCall Digest.sha256 sampleProviders.share (Local.sampleUuid 1) q).exec
    (fun c v => v.answer .smooth c) v

theorem exists_share : ∃ answered files, Session (Smb.Does Digest.sha256 sampleProviders.share)
    nothingStored.files sampleCalls answered files := by
  refine ⟨_, _, session_of_run shareRun (fun v q => ∀ key ∈ q.keys,
    Smb.FreeTemp v sampleProviders.share (Local.sampleUuid 1) key) (fun v q hfree => ?_) ?_⟩
  · have hprompt : ∀ v c, Smb.Prompt v c (v.answer .smooth c).1 (v.answer .smooth c).2 :=
      fun v c => ⟨.smooth, Smb.steady_smooth, rfl, rfl⟩
    obtain ⟨log, hrun⟩ := Prog.exec_runsIn hprompt
      (Smb.storeCall Digest.sha256 sampleProviders.share (Local.sampleUuid 1) q) v
    exact ⟨_, log, hfree, hrun⟩
  · decide +kernel

end GraphqlOrmStorage.Contract
