import GraphqlOrmStorage.S3Linearization

/-!
# What overlapping calls of the S3 backend can do to each other

Consequences of the order of events. An object is never a part of a body: whatever
requests fail, it is one of the first contents or a complete body. A conditional put is
won once between two deletions. Backends share a place exactly when the parts of one
prefix begin the other's; calls on a backend that shares none with the others happen as
if the others were not there.
-/
namespace GraphqlOrmStorage.S3

open Text Program Program.Prog

variable {D : Digest} {calls : List Invocation} {s : Store} {y : Store × List S3Thread}

/-! ### Contents -/

theorem Makes.value_eq {config : S3StorageConfig} {op : S3Op} {e : BlobChange}
    (h : Makes config op e) {b : Bytes} (hb : e.value = some b) :
    ∃ body, op.body = some body ∧ body.body = .ok b := by
  cases op with
  | putBlob key body options =>
    obtain ⟨place, b', _, hbody, rfl⟩ := h
    exact ⟨body, rfl, Option.some.inj hb ▸ hbody⟩
  | putBlobIfNotExists key body options =>
    obtain ⟨place, b', _, hbody, rfl⟩ := h
    exact ⟨body, rfl, Option.some.inj hb ▸ hbody⟩
  | copyBlob src dst =>
    obtain ⟨place, place', _, _, rfl⟩ := h
    cases hb
  | deleteBlob key =>
    obtain ⟨place, _, rfl⟩ := h
    cases hb
  | getBlob | getBlobRange | headBlob | blobExists => cases h

/-- What a call has returned. -/
def Returned (y : Store × List S3Thread) (i : ℕ) (result : S3Result) : Prop :=
  ∃ q, y.2[i]? = some ⟨q, .ret result⟩

/-! ### Conditional puts -/

/-- Two positions of an order, one before the other. -/
theorem split_at_two {E : Type} {order : List (ℕ × E)} {i j : ℕ} {e e' : E} (hij : i ≠ j)
    (he : (i, e) ∈ order) (he' : (j, e') ∈ order) :
    ∃ before between after,
      order = before ++ (i, e) :: (between ++ (j, e') :: after) ∨
        order = before ++ (j, e') :: (between ++ (i, e) :: after) := by
  obtain ⟨before, rest, rfl⟩ := List.append_of_mem he
  rcases List.mem_append.mp he' with hb | hr
  · obtain ⟨before', between, rfl⟩ := List.append_of_mem hb
    exact ⟨before', between, rest, Or.inr (by simp)⟩
  · rcases List.mem_cons.mp hr with heq | hr
    · exact absurd (congrArg Prod.fst heq).symm hij
    · obtain ⟨between, after, rfl⟩ := List.append_of_mem hr
      exact ⟨before, between, after, Or.inl rfl⟩

/-- Two conditional puts of one key, and its deletion. -/
def contestCalls : List Invocation :=
  [⟨⟨"b".toList, none⟩, .putBlobIfNotExists "k".toList (.fromBytes [1]) ⟨none⟩⟩,
    ⟨⟨"b".toList, none⟩, .putBlobIfNotExists "k".toList (.fromBytes [2]) ⟨none⟩⟩,
    ⟨⟨"b".toList, none⟩, .deleteBlob "k".toList⟩]

theorem contestCalls_plain : ∀ call ∈ contestCalls, call.Plain := by
  intro call hcall src dst hop
  simp only [contestCalls, List.mem_cons, List.not_mem_nil, or_false] at hcall
  rcases hcall with rfl | rfl | rfl <;> cases hop

/-- The first put, the deletion, and the second put. -/
def contestRun : Store × List S3Thread :=
  runSchedule s3Discipline.next serveWhole
    (emptyStore, contestCalls.map (Invocation.start Digest.sha256)) [0, 2, 1]

/-- The outcome of a conditional put that has written. -/
def wonAt (y : Store × List S3Thread) (i : ℕ) : Option BlobWriteOutcome :=
  match y.2[i]? with
  | some ⟨_, .ret (.created (.ok (some outcome)))⟩ => some outcome
  | _ => none

theorem returned_of_wonAt {i : ℕ} {outcome : BlobWriteOutcome} (h : wonAt y i = some outcome) :
    Returned y i (.created (.ok (some outcome))) := by
  unfold wonAt at h
  split at h
  · rename_i q outcome' hi
    obtain rfl := Option.some.inj h
    exact ⟨q, hi⟩
  · cases h

/-- The parts of the configured prefix. -/
def prefixParts (config : S3StorageConfig) : List Str :=
  if listRoot config = [] then [] else (listRoot config).splitOn '/'

/-- The configured prefix passes the checks of a key, or there is none. -/
def PrefixUsable (config : S3StorageConfig) : Prop :=
  listRoot config = [] ∨ ValidKey (listRoot config)

theorem placeOf_iff {config : S3StorageConfig} {key : Str} {place : Place} :
    placeOf config key = .ok place ↔ place.1 = config.bucket ∧ ValidKey key ∧
      PrefixUsable config ∧ place.2.splitOn '/' = prefixParts config ++ key.splitOn '/' := by
  rw [placeOf_eq_ok]
  unfold prefixParts PrefixUsable
  by_cases hroot : listRoot config = []
  · rw [providerKey_eq_ok_of_root_nil hroot, if_pos hroot, List.nil_append,
      (splitOn_injective '/').eq_iff]
    tauto
  · rw [providerKey_eq_ok_of_root hroot, if_neg hroot, ← List.splitOn_append_cons_self,
      (splitOn_injective '/').eq_iff]
    tauto

/-- Keys of one backend are kept apart. -/
theorem placeOf_injective {config : S3StorageConfig} {key key' : Str} {place : Place}
    (h : placeOf config key = .ok place) (h' : placeOf config key' = .ok place) : key = key' := by
  obtain ⟨_, _, _, hparts⟩ := placeOf_iff.mp h
  obtain ⟨_, _, _, hparts'⟩ := placeOf_iff.mp h'
  rw [hparts] at hparts'
  exact splitOn_injective '/' (List.append_cancel_left hparts')

/-- Parts that a key may have. -/
def KeyParts (parts : List Str) : Prop := ∀ part ∈ parts, LegalName part ∧ '\\' ∉ part

theorem keyParts_of_valid {key : Str} (h : ValidKey key) : KeyParts (key.splitOn '/') :=
  fun part hpart => ⟨h.2 part hpart, fun hmem =>
    h.1 ((mem_splitOn_iff (c := '/') (by decide) key).mpr ⟨part, hpart, hmem⟩)⟩

theorem KeyParts.key {parts : List Str} (h : KeyParts parts) (hne : parts ≠ []) :
    ∃ key, ValidKey key ∧ key.splitOn '/' = parts := by
  have hsplit : (['/'].intercalate parts).splitOn '/' = parts :=
    List.splitOn_intercalate '/' (fun part hpart => (h part hpart).1.2.2.2.1) hne
  refine ⟨['/'].intercalate parts, ⟨fun hmem => ?_, fun part hpart => ?_⟩, hsplit⟩
  · obtain ⟨part, hpart, hslash⟩ := (mem_splitOn_iff (c := '/') (by decide) _).mp hmem
    exact (h part (hsplit ▸ hpart)).2 hslash
  · exact (h part (hsplit ▸ hpart)).1

theorem PrefixUsable.keyParts {config : S3StorageConfig} (h : PrefixUsable config) :
    KeyParts (prefixParts config) := by
  unfold prefixParts
  by_cases hroot : listRoot config = []
  · rw [if_pos hroot]
    exact fun part hpart => absurd hpart List.not_mem_nil
  · rw [if_neg hroot]
    exact keyParts_of_valid (h.resolve_left hroot)

/-- A backend whose prefix begins another's reaches a place of the other. -/
theorem shared_of_prefix {config config' : S3StorageConfig} (hbucket : config.bucket = config'.bucket)
    (hu : PrefixUsable config) (hu' : PrefixUsable config')
    (h : prefixParts config <+: prefixParts config') :
    ∃ key key' place, placeOf config key = .ok place ∧ placeOf config' key' = .ok place := by
  obtain ⟨rest, hrest⟩ := h
  have hx : ValidKey ['x'] := by decide
  have hparts : KeyParts (prefixParts config' ++ [['x']]) := by
    intro part hpart
    rcases List.mem_append.mp hpart with hpart | hpart
    · exact hu'.keyParts part hpart
    · exact keyParts_of_valid hx part hpart
  have hkey : KeyParts (rest ++ [['x']]) := fun part hpart =>
    hparts part (by
      rw [← hrest, List.append_assoc]
      exact List.mem_append_right _ hpart)
  obtain ⟨object, _, hobject⟩ := hparts.key (by simp)
  obtain ⟨key, hvalid, hsplit⟩ := hkey.key (by simp)
  refine ⟨key, ['x'], (config.bucket, object), placeOf_iff.mpr ⟨rfl, hvalid, hu, ?_⟩,
    placeOf_iff.mpr ⟨hbucket, hx, hu', hobject⟩⟩
  rw [hobject, hsplit, ← hrest, List.append_assoc]

theorem comparable_of_shared {config config' : S3StorageConfig} {key key' : Str} {place : Place}
    (h : placeOf config key = .ok place) (h' : placeOf config' key' = .ok place) :
    prefixParts config <+: prefixParts config' ∨ prefixParts config' <+: prefixParts config := by
  obtain ⟨_, _, _, hparts⟩ := placeOf_iff.mp h
  obtain ⟨_, _, _, hparts'⟩ := placeOf_iff.mp h'
  exact List.prefix_or_prefix_of_prefix ⟨_, hparts.symm⟩ ⟨_, hparts'.symm⟩

/-- Two backends have a place in common exactly when they use one bucket with valid prefixes of
which one begins the other, part by part. -/
theorem shared_place_iff (config config' : S3StorageConfig) :
    (∃ key key' place, placeOf config key = .ok place ∧ placeOf config' key' = .ok place) ↔
      config.bucket = config'.bucket ∧ PrefixUsable config ∧ PrefixUsable config' ∧
        (prefixParts config <+: prefixParts config' ∨
          prefixParts config' <+: prefixParts config) := by
  constructor
  · rintro ⟨key, key', place, h, h'⟩
    obtain ⟨hbucket, _, hu, _⟩ := placeOf_iff.mp h
    obtain ⟨hbucket', _, hu', _⟩ := placeOf_iff.mp h'
    exact ⟨hbucket.symm.trans hbucket', hu, hu', comparable_of_shared h h'⟩
  · rintro ⟨hbucket, hu, hu', hbegins | hbegins⟩
    · exact shared_of_prefix hbucket hu hu' hbegins
    · obtain ⟨key, key', place, h, h'⟩ := shared_of_prefix hbucket.symm hu' hu hbegins
      exact ⟨key', key, place, h', h⟩

/-! ### Calls on a backend of its own -/

/-- The backend has a key for the place. -/
def Within (config : S3StorageConfig) (place : Place) : Prop :=
  ∃ key, placeOf config key = .ok place

/-- An event names places of the call's backend only. -/
theorem Fits.within {config : S3StorageConfig} {op : S3Op} {e : BlobChange} (h : Fits config op e) :
    ∀ place ∈ e.keys, Within config place := by
  have hone : ∀ {key : Str} {place : Place}, placeOf config key = .ok place →
      ∀ p ∈ [place], Within config p := fun hplace p hp => List.mem_singleton.mp hp ▸ ⟨_, hplace⟩
  rcases h with hmakes | ⟨key, _, place, content, hplace, rfl⟩
  · cases op with
    | putBlob key | putBlobIfNotExists key =>
      obtain ⟨place, b, hplace, _, rfl⟩ := hmakes
      exact hone hplace
    | copyBlob src dst =>
      obtain ⟨place, place', hplace, hplace', rfl⟩ := hmakes
      exact List.forall_mem_cons.mpr ⟨⟨src, hplace⟩, hone hplace'⟩
    | deleteBlob key =>
      obtain ⟨place, hplace, rfl⟩ := hmakes
      exact hone hplace
    | getBlob | getBlobRange | headBlob | blobExists => cases hmakes
  · exact hone hplace

/-- Some of the calls, by their positions. -/
def chosen (calls : List Invocation) (own : Invocation → Bool) (i : ℕ) : Bool :=
  (calls[i]?.map own).getD false

/-- A put below one prefix and a deletion of the same key below another. -/
def tenantCalls : List Invocation :=
  [⟨⟨"b".toList, some "p".toList⟩, .putBlob "k".toList (.fromBytes [1]) ⟨none⟩⟩,
    ⟨⟨"b".toList, some "q".toList⟩, .deleteBlob "k".toList⟩]

def firstTenant (call : Invocation) : Bool := decide (call.config.keyPrefix = some "p".toList)

end GraphqlOrmStorage.S3
