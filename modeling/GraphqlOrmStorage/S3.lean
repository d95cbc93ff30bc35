import GraphqlOrmStorage.Key

/-!
# Listing through the S3 backend

Keys are encoded by putting the configured prefix and a slash in front, and
decoded by stripping both. A listing hands the server the encoded prefix as a
plain string, so the server also answers with objects that only share the
string. The server is a parameter; what is documented of `ListObjectsV2` is
stated as `Serves`. A listing is faithful when each key it returns encodes back
to the object it was listed for, and this is characterised by the objects in
the bucket.
-/
namespace GraphqlOrmStorage.S3

open Text

/-- `S3StorageConfig`, the fields that requests depend on. -/
structure S3StorageConfig where
  bucket : Str
  keyPrefix : Option Str

/-- `provider_key`. -/
def providerKey (config : S3StorageConfig) (key : Str) : Except StorageError Str :=
  match validateBlobKey key with
  | .error e => .error e
  | .ok () =>
    match config.keyPrefix with
    | none => .ok key
    | some raw =>
      let pre := trimMatches '/' raw
      if pre = [] then .ok key
      else match validateBlobKey pre with
        | .error e => .error e
        | .ok () => .ok (pre ++ '/' :: key)

/-- `strip_provider_prefix`: what does not carry the prefix is returned unchanged. -/
def stripProviderPrefix (config : S3StorageConfig) (key : Str) : Str :=
  match config.keyPrefix with
  | none => key
  | some raw =>
    let pre := trimMatches '/' raw
    (( stripPrefix pre key).bind ( stripPrefix ['/'])).getD key

/-- The request of `list_objects_v2`. -/
structure ListObjectsV2Input where
  bucket : Str
  pre : Str
  continuationToken : Option Str
  maxKeys : ℕ

/-- The parts of the response that are read; an entry may come without a key. -/
structure ListObjectsV2Output where
  contents : List (Option Str)
  nextContinuationToken : Option Str

abbrev Server := ListObjectsV2Input → Except StorageError ListObjectsV2Output

def i32Max : ℕ := 2 ^ 31 - 1

/-- The request `list_blobs_page` sends. -/
def listRequest (config : S3StorageConfig) (pre : Str) (continuation : Option Str) (limit : ℕ) :
    Except StorageError ListObjectsV2Input :=
  if limit = 0 then
    .error (.preconditionFailed pre "list limit must be greater than zero".toList)
  else
    let request (providerPrefix : Str) : ListObjectsV2Input :=
      ⟨config.bucket, providerPrefix, continuation, min limit i32Max⟩
    if pre = [] then .ok (request ((config.keyPrefix.map (trimMatches '/')).getD []))
    else match providerKey config pre with
      | .error e => .error e
      | .ok providerPrefix => .ok (request providerPrefix)

/-- The page `list_blobs_page` makes of a response. -/
def pageOf (config : S3StorageConfig) (output : ListObjectsV2Output) : BlobListPage where
  keys := ((output.contents.filterMap id).map (stripProviderPrefix config)).filter (· ≠ [])
  nextContinuation := output.nextContinuationToken

/-- `list_blobs_page`. -/
def listBlobsPage (config : S3StorageConfig) (server : Server) (pre : Str)
    (continuation : Option Str) (limit : ℕ) : Except StorageError BlobListPage :=
  match listRequest config pre continuation limit with
  | .error e => .error e
  | .ok input =>
    match server input with
    | .error e => .error e
    | .ok output => .ok (pageOf config output)

/-- The loop of `list_blobs`, for pages of `limit` keys. -/
def drainPages (config : S3StorageConfig) (server : Server) (pre : Str) (limit : ℕ) :
    ℕ → Option Str → List Str → Except Stop (List Str)
  | 0, _, _ => .error .outOfFuel
  | fuel + 1, continuation, keys =>
    match listBlobsPage config server pre continuation limit with
    | .error e => .error (.error e)
    | .ok page =>
      match page.nextContinuation with
      | none => .ok (keys ++ page.keys)
      | some token => drainPages config server pre limit fuel (some token) (keys ++ page.keys)

/-- `list_blobs`. -/
def listBlobs (config : S3StorageConfig) (server : Server) (fuel : ℕ) (pre : Str) :
    Except Stop (List Str) :=
  drainPages config server pre 1000 fuel none []

/-! ### The server -/

/-- What `ListObjectsV2` promises for a bucket that holds `objects`: only objects whose key
starts with the given string are listed, and each of those is on some page. -/
structure Serves (server : Server) (bucket : Str) (objects : List Str) : Prop where
  sound : ∀ input output, server input = .ok output →
    ∀ key, some key ∈ output.contents → key ∈ objects ∧ input.pre <+: key
  complete : ∀ pre key, key ∈ objects → pre <+: key →
    ∃ token maxKeys output, 0 < maxKeys ∧ maxKeys ≤ i32Max ∧
      server ⟨bucket, pre, token, maxKeys⟩ = .ok output ∧ some key ∈ output.contents

/-- The keys of the objects a page reports, in the order of the page. -/
def listedObjects (config : S3StorageConfig) (output : ListObjectsV2Output) : List Str :=
  (output.contents.filterMap id).filter fun key => stripProviderPrefix config key ≠ []

/-- Each key of a page encodes to the object that the entry came from. -/
def Faithful (config : S3StorageConfig) (server : Server) : Prop :=
  ∀ pre continuation limit page, listBlobsPage config server pre continuation limit = .ok page →
    ∃ input output, listRequest config pre continuation limit = .ok input ∧
      server input = .ok output ∧
      List.Forall₂ (fun key object => providerKey config key = .ok object)
        page.keys (listedObjects config output)

/-- The object is what the configuration writes, or a bare marker that a listing drops. -/
def Addressable (config : S3StorageConfig) (object : Str) : Prop :=
  match config.keyPrefix with
  | none => object = [] ∨ ValidKey object
  | some raw =>
    let pre := trimMatches '/' raw
    if pre = [] then object = [] ∨ object = ['/'] ∨ ValidKey object
    else object = pre ++ ['/'] ∨
      ValidKey pre ∧ ∃ key, ValidKey key ∧ object = pre ++ '/' :: key

/-- The string every listing of this configuration starts its request with. -/
def listRoot (config : S3StorageConfig) : Str := (config.keyPrefix.map (trimMatches '/')).getD []

/-! ### Encoding and decoding -/

theorem providerKey_of_not_valid (config : S3StorageConfig) {key : Str} (h : ¬ ValidKey key) :
    providerKey config key = .error (.invalidStorageKey key) := by
  simp only [providerKey, validateBlobKey_error h]

/-- Without a prefix to prepend, encoding is the identity on valid keys. -/
theorem providerKey_eq_ok_of_root_nil {config : S3StorageConfig} (h : listRoot config = [])
    {key object : Str} : providerKey config key = .ok object ↔ ValidKey key ∧ object = key := by
  by_cases hk : ValidKey key
  · have hval := validateBlobKey_eq_ok.mpr hk
    cases hp : config.keyPrefix with
    | none => simp [providerKey, hval, hp, hk, eq_comm]
    | some raw =>
      have hroot : trimMatches '/' raw = [] := by simpa [listRoot, hp] using h
      simp [providerKey, hval, hp, hroot, hk, eq_comm]
  · simp [providerKey_of_not_valid config hk, hk]

theorem providerKey_eq_ok_of_root {config : S3StorageConfig} (h : listRoot config ≠ [])
    {key object : Str} : providerKey config key = .ok object ↔
      ValidKey key ∧ ValidKey (listRoot config) ∧ object = listRoot config ++ '/' :: key := by
  by_cases hk : ValidKey key
  · have hval := validateBlobKey_eq_ok.mpr hk
    cases hp : config.keyPrefix with
    | none => simp [listRoot, hp] at h
    | some raw =>
      have hroot : listRoot config = trimMatches '/' raw := by simp [listRoot, hp]
      rw [hroot] at h ⊢
      by_cases hv : ValidKey (trimMatches '/' raw)
      · simp [providerKey, hval, hp, h, hk, hv, validateBlobKey_eq_ok.mpr hv, eq_comm]
      · simp [providerKey, hval, hp, h, hk, hv, validateBlobKey_error hv]
  · simp [providerKey_of_not_valid config hk, hk]

/-- Decoding drops the prefix and the slash where both are there. -/
theorem stripProviderPrefix_append {config : S3StorageConfig} (h : config.keyPrefix ≠ none)
    (key : Str) : stripProviderPrefix config (listRoot config ++ '/' :: key) = key := by
  obtain ⟨raw, hp⟩ := Option.ne_none_iff_exists'.mp h
  have h1 : stripPrefix (trimMatches '/' raw) (trimMatches '/' raw ++ '/' :: key) =
      some ('/' :: key) := stripPrefix_eq_some.mpr rfl
  have h2 : stripPrefix ['/'] ('/' :: key) = some key := stripPrefix_eq_some.mpr rfl
  simp [stripProviderPrefix, listRoot, hp, h1, h2]

/-- Anything else is returned as it is. -/
theorem stripProviderPrefix_of_not_prefix {config : S3StorageConfig} {object : Str}
    (h : ∀ key, object ≠ listRoot config ++ '/' :: key) :
    stripProviderPrefix config object = object := by
  unfold stripProviderPrefix
  cases hp : config.keyPrefix with
  | none => rfl
  | some raw =>
    have hroot : listRoot config = trimMatches '/' raw := by simp [listRoot, hp]
    rw [hroot] at h
    have hnone : ( stripPrefix (trimMatches '/' raw) object).bind ( stripPrefix ['/']) = none := by
      by_contra hne
      obtain ⟨key, hkey⟩ := Option.ne_none_iff_exists'.mp hne
      obtain ⟨rest, h1, h2⟩ := Option.bind_eq_some_iff.mp hkey
      exact h key (by rw [stripPrefix_eq_some.mp h1, stripPrefix_eq_some.mp h2]; rfl)
    simp only [hnone, Option.getD_none]

/-- An object that the server may list is addressable exactly when its decoded key is
dropped or encodes back to it. -/
theorem addressable_iff {config : S3StorageConfig} {object : Str} (hroot : listRoot config <+: object) :
    Addressable config object ↔ (stripProviderPrefix config object ≠ [] →
      providerKey config (stripProviderPrefix config object) = .ok object) := by
  by_cases hr : listRoot config = []
  · -- Nothing is prepended; a leading slash is stripped only when a prefix is configured.
    rw [providerKey_eq_ok_of_root_nil hr]
    cases hp : config.keyPrefix with
    | none =>
      have hs : stripProviderPrefix config object = object := by simp [stripProviderPrefix, hp]
      simp only [Addressable, hp, hs]
      tauto
    | some raw =>
      have htrim : trimMatches '/' raw = [] := by simpa [listRoot, hp] using hr
      simp only [Addressable, hp, htrim, if_true]
      by_cases hslash : ∃ key, object = '/' :: key
      · obtain ⟨key, rfl⟩ := hslash
        have hs : stripProviderPrefix config ('/' :: key) = key := by
          have hsome : config.keyPrefix ≠ none := by simp [hp]
          have := stripProviderPrefix_append hsome key
          rwa [hr, List.nil_append] at this
        have hinv : ¬ ValidKey ('/' :: key) := fun hv => hv.not_absolute rfl
        have hlen : '/' :: key ≠ key := fun he => by simpa using congrArg List.length he
        simp [hs, hinv, hlen]
      · have hs : stripProviderPrefix config object = object :=
          stripProviderPrefix_of_not_prefix fun key he => hslash ⟨key, by rw [he, hr]; rfl⟩
        have hne : object ≠ ['/'] := fun he => hslash ⟨[], he⟩
        simp only [hs, hne, false_or]
        tauto
  · rw [providerKey_eq_ok_of_root hr]
    obtain ⟨raw, hp⟩ : ∃ raw, config.keyPrefix = some raw :=
      Option.ne_none_iff_exists'.mp fun hn => hr (by simp [listRoot, hn])
    have htrim : listRoot config = trimMatches '/' raw := by simp [listRoot, hp]
    simp only [Addressable, hp, ← htrim, if_neg hr]
    by_cases hslash : ∃ key, object = listRoot config ++ '/' :: key
    · obtain ⟨key, rfl⟩ := hslash
      rw [stripProviderPrefix_append (by simp [hp])]
      by_cases hk : key = []
      · simp [hk]
      · simp [hk, and_comm]
    · have hs : stripProviderPrefix config object = object :=
        stripProviderPrefix_of_not_prefix fun key he => hslash ⟨key, he⟩
      have hne : object ≠ [] := fun he => hr (by simpa [he] using hroot)
      rw [hs]
      constructor
      · rintro (he | ⟨_, key, _, he⟩)
        · exact absurd ⟨[], he⟩ hslash
        · exact absurd ⟨key, he⟩ hslash
      · intro h
        exact absurd ⟨object, (h hne).2.2⟩ hslash

/-! ### Pages -/

/-- A page is faithful when every listed object is dropped or encodes back. -/
theorem forall₂_page_iff (config : S3StorageConfig) (output : ListObjectsV2Output) :
    List.Forall₂ (fun key object => providerKey config key = .ok object)
      (pageOf config output).keys (listedObjects config output) ↔
    ∀ object, some object ∈ output.contents → stripProviderPrefix config object ≠ [] →
      providerKey config (stripProviderPrefix config object) = .ok object := by
  have hkeys : (pageOf config output).keys =
      (listedObjects config output).map (stripProviderPrefix config) := by
    rw [pageOf, listedObjects, List.filter_map]
    rfl
  rw [hkeys, List.forall₂_map_left_iff, List.forall₂_same]
  simp [listedObjects, and_imp]

/-- Every request of a listing asks for a string that starts with the root of the
configuration. -/
theorem listRoot_prefix_request {config : S3StorageConfig} {pre : Str}
    {continuation : Option Str} {limit : ℕ} {input : ListObjectsV2Input}
    (h : listRequest config pre continuation limit = .ok input) : listRoot config <+: input.pre := by
  unfold listRequest at h
  split_ifs at h with hl hp
  · obtain rfl := Except.ok.inj h
    exact List.prefix_rfl
  · cases hk : providerKey config pre with
    | error e => simp [hk] at h
    | ok providerPrefix =>
      simp only [hk] at h
      obtain rfl := Except.ok.inj h
      by_cases hr : listRoot config = []
      · simp [hr]
      · rw [((providerKey_eq_ok_of_root hr).mp hk).2.2]
        exact List.prefix_append _ _

/-- A page that is returned was made from the response to the request. -/
theorem listBlobsPage_eq_ok {config : S3StorageConfig} {server : Server} {pre : Str}
    {continuation : Option Str} {limit : ℕ} {page : BlobListPage} :
    listBlobsPage config server pre continuation limit = .ok page ↔
      ∃ input output, listRequest config pre continuation limit = .ok input ∧
        server input = .ok output ∧ page = pageOf config output := by
  unfold listBlobsPage
  cases hreq : listRequest config pre continuation limit with
  | error e => simp
  | ok input => cases hout : server input <;> simp [hout, eq_comm]

/-- Listings are faithful for every prefix, token and page size exactly when every object of
the bucket that starts with the configured prefix string is addressable. -/
theorem s3_listing_faithful_iff (config : S3StorageConfig) (server : Server) (objects : List Str)
    (hs : Serves server config.bucket objects) :
    Faithful config server ↔
      ∀ object ∈ objects, listRoot config <+: object → Addressable config object := by
  constructor
  · intro h object hobj hroot
    rw [addressable_iff hroot]
    obtain ⟨token, maxKeys, output, hpos, hmax, hout, hmem⟩ := hs.complete _ object hobj hroot
    have hreq : listRequest config [] token maxKeys =
        .ok ⟨config.bucket, listRoot config, token, maxKeys⟩ := by
      simp [listRequest, Nat.pos_iff_ne_zero.mp hpos, listRoot, Nat.min_eq_left hmax]
    obtain ⟨input, output', hreq', hout', hpage⟩ := h [] token maxKeys (pageOf config output)
      (listBlobsPage_eq_ok.mpr ⟨_, output, hreq, hout, rfl⟩)
    obtain rfl : _ = input := Except.ok.inj (hreq.symm.trans hreq')
    obtain rfl : output = output' := Except.ok.inj (hout.symm.trans hout')
    exact (forall₂_page_iff config output).mp hpage object hmem
  · intro h pre continuation limit page hpage
    obtain ⟨input, output, hreq, hout, rfl⟩ := listBlobsPage_eq_ok.mp hpage
    refine ⟨input, output, hreq, hout, (forall₂_page_iff config output).mpr ?_⟩
    intro object hmem
    obtain ⟨hobj, hpre⟩ := hs.sound input output hout object hmem
    have hroot := (listRoot_prefix_request hreq).trans hpre
    exact (addressable_iff hroot).mp (h object hobj hroot)

/-- A server that lists a sorted bucket, at most a thousand keys a page; the token is the last
key of the page before. -/
def bucketServer (objects : List Str) : Server := fun input =>
  let remaining := objects.filter fun key =>
    input.pre.isPrefixOf key && input.continuationToken.all (· < key)
  let page := remaining.take (min input.maxKeys 1000)
  .ok ⟨page.map some, if page.length < remaining.length then page.getLast? else none⟩

theorem serves_bucketServer (bucket : Str) {objects : List Str} (h : objects.length ≤ 1000) :
    Serves (bucketServer objects) bucket objects where
  sound := by
    intro input output hout key hkey
    obtain rfl := Except.ok.inj hout
    obtain ⟨x, hx, he⟩ := List.mem_map.mp hkey
    obtain rfl := Option.some.inj he
    have hx := List.mem_filter.mp (List.mem_of_mem_take hx)
    have hpre := (Bool.and_eq_true_iff.mp hx.2).1
    exact ⟨hx.1, List.isPrefixOf_iff_prefix.mp hpre⟩
  complete := by
    intro pre key hkey hpre
    refine ⟨none, 1000, _, by omega, by unfold i32Max; omega, rfl, ?_⟩
    have hlen := List.length_filter_le (fun key => pre.isPrefixOf key && true) objects
    refine List.mem_map.mpr ⟨key, ?_, rfl⟩
    rw [List.take_of_length_le (by simpa using hlen.trans h)]
    exact List.mem_filter.mpr ⟨hkey, by simpa using hpre⟩

/-- A bucket that only this application writes, with a configured prefix in slashes. -/
theorem s3_listing_faithful_own_bucket :
    Faithful ⟨"b".toList, some "/app/".toList⟩ (bucketServer ["app/a".toList, "app/b/c".toList]) := by
  rw [s3_listing_faithful_iff _ _ _ (serves_bucketServer "b".toList (by decide))]
  intro object hobj _
  have hpre : trimMatches '/' "/app/".toList = "app".toList := by decide
  simp only [Addressable, hpre, if_neg (show "app".toList ≠ [] by decide)]
  simp only [List.mem_cons, List.not_mem_nil, or_false] at hobj
  rcases hobj with rfl | rfl
  · exact Or.inr ⟨by decide, "a".toList, by decide, by decide⟩
  · exact Or.inr ⟨by decide, "b/c".toList, by decide, by decide⟩

/-- The sibling prefix `app2` is listed under the prefix `app`, with a key that addresses
another object. -/
theorem s3_listing_not_faithful : ¬ ∀ (config : S3StorageConfig) (server : Server)
    (objects : List Str), Serves server config.bucket objects → Faithful config server := by
  intro h
  have hf := h ⟨"b".toList, some "app".toList⟩ (bucketServer ["app2/x".toList]) _
    (serves_bucketServer _ (by decide))
  obtain ⟨input, output, hreq, hout, hpage⟩ := hf [] none 10 _ rfl
  obtain rfl := Except.ok.inj hreq
  obtain rfl := Except.ok.inj hout
  rw [forall₂_page_iff] at hpage
  have hkey := hpage "app2/x".toList (by decide) (by decide)
  exact absurd hkey (by decide)

end GraphqlOrmStorage.S3
