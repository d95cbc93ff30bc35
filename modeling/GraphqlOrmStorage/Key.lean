import GraphqlOrmStorage.Types

/-!
# Keys, buckets and generated names

`validate_blob_key` and its relatives as the source has them: a check on the
text, split at slashes, followed by a check on the parsed path. Path parsing is
the standard library's on Unix. The file closes with UUIDs in their hyphenated
form and the storage keys that the service derives from them.
-/
namespace GraphqlOrmStorage

open Text

/-- `std::path::Component` on Unix. -/
inductive Component where
  | rootDir | curDir | parentDir
  | normal (name : Str)
  deriving DecidableEq, Repr

def Component.name? : Component → Option Str
  | .normal name => some name
  | _ => none

/-- The component a part between two slashes parses to; empty parts and dots vanish. -/
def componentOf (part : Str) : Option Component :=
  if part = [] ∨ part = ['.'] then none
  else if part = ['.', '.'] then some .parentDir
  else some (.normal part)

/-- `Path::components`: only a leading dot of a relative path is kept. -/
def components (s : Str) : List Component :=
  match s.splitOn '/' with
  | [] => []
  | first :: rest =>
    (if s.head? = some '/' then [.rootDir]
     else if first = ['.'] then [.curDir] else (componentOf first).toList) ++
      rest.filterMap componentOf

/-- `Path::is_absolute`. -/
def isAbsolute (s : Str) : Bool := s.head? = some '/'

/-- The path below the root that joining a relative text leads to. -/
def relativePath (s : Str) : Path := (components s).filterMap Component.name?

/-- `validate_blob_key`. -/
def validateBlobKey (key : Str) : Except StorageError Unit :=
  if key = [] ∨ '\\' ∈ key ∨ '\x00' ∈ key ∨
      (key.splitOn '/').any (fun c => c = [] ∨ c = ['.'] ∨ c = ['.', '.']) then
    .error (.invalidStorageKey key)
  else if isAbsolute key then .error (.invalidStorageKey key)
  else if (components key).any (fun c => c.name?.isNone) then .error (.invalidStorageKey key)
  else .ok ()

/-- `validate_blob_prefix`. -/
def validateBlobPrefix (pre : Str) : Except StorageError Unit :=
  if pre = [] then .ok () else validateBlobKey pre

/-- `validate_object_bucket`. -/
def validateObjectBucket (bucket : Str) : Except StorageError Unit :=
  match validateBlobKey bucket with
  | .error e => .error e
  | .ok () => if '/' ∈ bucket then .error (.invalidStorageKey bucket) else .ok ()

/-- What the checks amount to: no backslash, and legal names between the slashes. -/
def ValidKey (key : Str) : Prop := '\\' ∉ key ∧ ∀ c ∈ key.splitOn '/', LegalName c

instance (key : Str) : Decidable (ValidKey key) := inferInstanceAs (Decidable (_ ∧ _))

theorem componentOf_legal {c : Str} (h : LegalName c) : componentOf c = some (.normal c) := by
  simp [componentOf, h.1, h.2.1, h.2.2.1]

lemma filterMap_componentOf {l : List Str} (h : ∀ c ∈ l, LegalName c) :
    l.filterMap componentOf = l.map .normal := by
  induction l with
  | nil => rfl
  | cons c l ih =>
    rw [List.filterMap_cons, componentOf_legal (h c (by simp)), ih (fun d hd => h d (by simp [hd]))]
    rfl

theorem ValidKey.not_absolute {key : Str} (h : ValidKey key) : key.head? ≠ some '/' := by
  intro he
  obtain ⟨rest, rfl⟩ : ∃ rest, key = '/' :: rest := by
    cases key with
    | nil => simp at he
    | cons c rest => exact ⟨rest, by simpa using he⟩
  have hm : ([] : Str) ∈ ('/' :: rest).splitOn '/' := by
    simp [List.splitOn_cons_eq_if_modifyHead]
  exact (h.2 [] hm).1 rfl

/-- A valid key parses to its parts, all of them ordinary names. -/
theorem ValidKey.components_eq {key : Str} (h : ValidKey key) :
    components key = (key.splitOn '/').map .normal := by
  unfold components
  cases hs : key.splitOn '/' with
  | nil => exact absurd hs (List.splitOn_ne_nil '/' key)
  | cons first rest =>
    have hl : ∀ c ∈ first :: rest, LegalName c := hs ▸ h.2
    have hf : LegalName first := hl first (by simp)
    simp only [if_neg h.not_absolute, if_neg hf.2.1, componentOf_legal hf]
    rw [filterMap_componentOf (fun c hc => hl c (by simp [hc]))]
    rfl

theorem ValidKey.relativePath_eq {key : Str} (h : ValidKey key) :
    relativePath key = key.splitOn '/' := by
  rw [relativePath, h.components_eq, List.filterMap_map]
  exact List.filterMap_some

theorem validateBlobKey_eq_ok {key : Str} : validateBlobKey key = .ok () ↔ ValidKey key := by
  constructor
  · intro h
    unfold validateBlobKey at h
    split_ifs at h with h1 h2 h3
    simp only [not_or, List.any_eq_true, decide_eq_true_eq, not_exists, not_and] at h1
    obtain ⟨hne, hb, h0, hparts⟩ := h1
    refine ⟨hb, fun c hc => ?_⟩
    obtain ⟨hc1, hc2, hc3⟩ := hparts c hc
    exact ⟨hc1, hc2, hc3, not_mem_of_mem_splitOn hc,
      fun hz => h0 ((mem_splitOn_iff (by decide) key).mpr ⟨c, hc, hz⟩)⟩
  · intro h
    have hne : key ≠ [] := by
      rintro rfl
      exact (h.2 [] (by simp)).1 rfl
    have h0 : '\x00' ∉ key := by
      intro hz
      obtain ⟨c, hc, hz⟩ := (mem_splitOn_iff (show '\x00' ≠ '/' by decide) key).mp hz
      exact (h.2 c hc).2.2.2.2 hz
    have hparts : ∀ c ∈ key.splitOn '/', ¬c = [] ∧ ¬c = ['.'] ∧ ¬c = ['.', '.'] :=
      fun c hc => ⟨(h.2 c hc).1, (h.2 c hc).2.1, (h.2 c hc).2.2.1⟩
    have habs : isAbsolute key = false := by simpa [isAbsolute] using h.not_absolute
    simpa [validateBlobKey, hne, h.1, h0, habs, h.components_eq, Component.name?] using hparts

theorem validateBlobKey_error {key : Str} (h : ¬ ValidKey key) :
    validateBlobKey key = .error (.invalidStorageKey key) := by
  have hne : validateBlobKey key ≠ .ok () := fun he => h (validateBlobKey_eq_ok.mp he)
  unfold validateBlobKey at hne ⊢
  split_ifs at hne ⊢ <;> first | rfl | exact absurd rfl hne

/-! ### UUIDs -/

/-- A 128-bit identifier. -/
structure Uuid where
  bytes : Bytes
  length_eq : bytes.length = 16
  deriving DecidableEq

/-- The hyphenated lower-case form that `Display` writes. -/
def Uuid.toStr (u : Uuid) : Str :=
  lowerHex (u.bytes.take 4) ++ '-' :: lowerHex ((u.bytes.drop 4).take 2) ++
    '-' :: lowerHex ((u.bytes.drop 6).take 2) ++ '-' :: lowerHex ((u.bytes.drop 8).take 2) ++
    '-' :: lowerHex (u.bytes.drop 10)

/-- The characters of a hyphenated UUID. -/
def isUuidChar (c : Char) : Bool := c = '-' || ('0' ≤ c && c ≤ '9') || ('a' ≤ c && c ≤ 'f')

theorem isUuidChar_hexDigit {n : ℕ} (h : n < 16) : isUuidChar (hexDigit n) = true := by
  interval_cases n <;> decide

theorem hexDigit_injOn {m n : ℕ} (hm : m < 16) (hn : n < 16) (h : hexDigit m = hexDigit n) :
    m = n := by
  interval_cases m <;> interval_cases n <;> first | rfl | exact absurd h (by decide)

theorem isUuidChar_lowerHex {b : Bytes} : ∀ c ∈ lowerHex b, isUuidChar c = true := by
  intro c hc
  obtain ⟨x, _, hx⟩ := List.mem_flatMap.mp hc
  have hlt : x.toNat < 256 := x.toNat_lt
  simp only [hexByte, List.mem_cons, List.not_mem_nil, or_false] at hx
  rcases hx with rfl | rfl
  · exact isUuidChar_hexDigit (by omega)
  · exact isUuidChar_hexDigit (by omega)

@[simp] theorem length_lowerHex (b : Bytes) : (lowerHex b).length = 2 * b.length := by
  induction b with
  | nil => rfl
  | cons x b ih =>
    have : lowerHex (x :: b) = hexByte x ++ lowerHex b := rfl
    rw [this, List.length_append, ih, List.length_cons]
    simp only [hexByte, List.length_cons, List.length_nil]
    omega

theorem lowerHex_injective : Function.Injective lowerHex := by
  intro a b h
  induction a generalizing b with
  | nil =>
    have := congrArg List.length h
    simp only [length_lowerHex, List.length_nil] at this
    exact (List.length_eq_zero_iff.mp (by omega)).symm
  | cons x a ih =>
    cases b with
    | nil => simp [lowerHex, hexByte] at h
    | cons y b =>
      simp only [lowerHex, List.flatMap_cons, hexByte, List.cons_append, List.nil_append,
        List.cons.injEq] at h
      obtain ⟨h1, h2, h3⟩ := h
      have hx : x.toNat < 256 := x.toNat_lt
      have hy : y.toNat < 256 := y.toNat_lt
      have e1 := hexDigit_injOn (by omega) (by omega) h1
      have e2 := hexDigit_injOn (by omega) (by omega) h2
      have hxy : x = y := UInt8.toNat_inj.mp (by omega)
      rw [hxy, ih h3]

@[simp] theorem Uuid.length_toStr (u : Uuid) : u.toStr.length = 36 := by
  simp [Uuid.toStr, u.length_eq]

theorem Uuid.isUuidChar_toStr (u : Uuid) : ∀ c ∈ u.toStr, isUuidChar c = true := by
  intro c hc
  simp only [Uuid.toStr, List.mem_append, List.mem_cons] at hc
  rcases hc with (((hc | rfl | hc) | rfl | hc) | rfl | hc) | rfl | hc <;>
    first | exact isUuidChar_lowerHex c hc | decide

theorem Uuid.not_mem_toStr (u : Uuid) {c : Char} (h : isUuidChar c = false) : c ∉ u.toStr :=
  fun hc => by simp [u.isUuidChar_toStr c hc] at h

theorem Uuid.toStr_injective : Function.Injective Uuid.toStr := by
  intro u v h
  have hu := u.length_eq
  have hv := v.length_eq
  simp only [Uuid.toStr] at h
  obtain ⟨h, h5⟩ := List.append_inj' h (by simp [hu, hv])
  obtain ⟨h, h4⟩ := List.append_inj' h (by simp [hu, hv])
  obtain ⟨h, h3⟩ := List.append_inj' h (by simp [hu, hv])
  obtain ⟨h1, h2⟩ := List.append_inj' h (by simp [hu, hv])
  have e1 := lowerHex_injective h1
  have e2 := lowerHex_injective (List.cons.inj h2).2
  have e3 := lowerHex_injective (List.cons.inj h3).2
  have e4 := lowerHex_injective (List.cons.inj h4).2
  have e5 := lowerHex_injective (List.cons.inj h5).2
  have split (b : Bytes) : b = b.take 4 ++ (b.drop 4).take 2 ++ (b.drop 6).take 2 ++
      (b.drop 8).take 2 ++ b.drop 10 := by
    have pair (n : ℕ) : b.drop n = (b.drop n).take 2 ++ b.drop (n + 2) := by
      conv_lhs => rw [← List.take_append_drop 2 (b.drop n), List.drop_drop]
    simp only [List.append_assoc]
    rw [← pair 8, ← pair 6, ← pair 4, List.take_append_drop]
  have hb : u.bytes = v.bytes := by rw [split u.bytes, split v.bytes, e1, e2, e3, e4, e5]
  cases u; cases v; simpa using hb

/-! ### Generated storage keys -/

/-- `file_extension`: the trimmed text after the last dot, when it is safe. -/
def fileExtension (fileName : Str) : Option Str :=
  match rsplitOnce '.' fileName with
  | none => none
  | some (_, tail) =>
    let candidate := trim tail
    if candidate = [] ∨ '/' ∈ candidate ∨ '\\' ∈ candidate ∨ '\x00' ∈ candidate then none
    else some candidate

/-- The last component of a generated key. -/
def storageFileName (objectText : Str) (extension : Option Str) : Str :=
  match extension with
  | some ext => if ext ≠ [] then objectText ++ '.' :: toAsciiLowercase ext else objectText
  | none => objectText

/-- `build_storage_key`. -/
def buildStorageKey (ns : StorageNamespace) (objectId : Uuid) (extension : Option Str) : Str :=
  let objectText := objectId.toStr
  let shardA := objectText.take 2
  let shardB := (objectText.drop 2).take 2
  ns.asStr ++ '/' :: (shardA ++ '/' :: (shardB ++ '/' :: storageFileName objectText extension))

/-- A character that lower-casing can neither produce nor remove. -/
theorem mem_toAsciiLowercase {c : Char} (h : ¬ ('a' ≤ c ∧ c ≤ 'z')) {s : Str}
    (hc : c ∈ toAsciiLowercase s) : c ∈ s := by
  obtain ⟨x, hx, he⟩ := List.mem_map.mp hc
  split_ifs at he with hu
  · exfalso
    apply h
    have h1 : 'A'.toNat ≤ x.toNat := hu.1
    have h2 : x.toNat ≤ 'Z'.toNat := hu.2
    have h1' : 65 ≤ x.toNat := h1
    have h2' : x.toNat ≤ 90 := h2
    have hv : (x.toNat + 32).isValidChar := Or.inl (by omega)
    have hn : c.toNat = x.toNat + 32 := by
      rw [← he, Char.ofNat, dif_pos hv]; rfl
    constructor
    · show 'a'.toNat ≤ c.toNat
      rw [hn]; show 97 ≤ _; omega
    · show c.toNat ≤ 'z'.toNat
      rw [hn]; show _ ≤ 122; omega
  · exact he ▸ hx

/-- The separators, the backslash and NUL never occur in an extension. -/
theorem not_mem_fileExtension {fileName ext : Str} (h : fileExtension fileName = some ext) :
    ext ≠ [] ∧ '/' ∉ ext ∧ '\\' ∉ ext ∧ '\x00' ∉ ext ∧ '.' ∉ ext := by
  unfold fileExtension at h
  split at h
  · cases h
  · rename_i stem tail hs
    dsimp only at h
    split_ifs at h with hc
    simp only [not_or] at hc
    obtain rfl : trim tail = ext := by simpa using h
    have hdot : '.' ∉ tail := (rsplitOnce_eq_some.mp hs).2
    exact ⟨hc.1, hc.2.1, hc.2.2.1, hc.2.2.2, fun hm => hdot (mem_trimBy hm)⟩

/-- The extension the service hands to `build_storage_key`. -/
def requestExtension (fileName : Option Str) : Option Str := fileName.bind fileExtension

theorem not_mem_storageFileName (u : Uuid) (fileName : Option Str) {c : Char}
    (hc : c = '/' ∨ c = '\\' ∨ c = '\x00') :
    c ∉ storageFileName u.toStr (requestExtension fileName) := by
  have hu : c ∉ u.toStr := u.not_mem_toStr (by rcases hc with rfl | rfl | rfl <;> decide)
  unfold storageFileName
  split
  · rename_i ext hext
    obtain ⟨name, -, hname⟩ := Option.bind_eq_some_iff.mp hext
    obtain ⟨hne, h1, h2, h3, _⟩ := not_mem_fileExtension hname
    rw [if_pos hne]
    intro hm
    rcases List.mem_append.mp hm with hm | hm
    · exact hu hm
    · rcases List.mem_cons.mp hm with rfl | hm
      · rcases hc with h | h | h <;> exact absurd h (by decide)
      · rcases hc with rfl | rfl | rfl
        · exact h1 (mem_toAsciiLowercase (by decide) hm)
        · exact h2 (mem_toAsciiLowercase (by decide) hm)
        · exact h3 (mem_toAsciiLowercase (by decide) hm)
  · exact hu

/-- The file name starts with the identifier, whatever the extension is. -/
theorem take_storageFileName (u : Uuid) (ext : Option Str) :
    (storageFileName u.toStr ext).take 36 = u.toStr := by
  have h := u.length_toStr
  unfold storageFileName
  split
  · split_ifs
    · rw [← h, List.take_left]
    · rw [← h, List.take_length]
  · rw [← h, List.take_length]

/-- The four components of a generated key. -/
def storagePath (ns : StorageNamespace) (u : Uuid) (ext : Option Str) : Path :=
  [ns.asStr, u.toStr.take 2, (u.toStr.drop 2).take 2, storageFileName u.toStr ext]

theorem splitOn_buildStorageKey (ns : StorageNamespace) (u : Uuid) (fileName : Option Str) :
    (buildStorageKey ns u (requestExtension fileName)).splitOn '/' =
      storagePath ns u (requestExtension fileName) := by
  have hns : '/' ∉ ns.asStr := by cases ns <;> decide
  have ha : '/' ∉ u.toStr.take 2 :=
    fun h => u.not_mem_toStr (by decide) (List.mem_of_mem_take h)
  have hb : '/' ∉ (u.toStr.drop 2).take 2 :=
    fun h => u.not_mem_toStr (by decide) (List.mem_of_mem_drop (List.mem_of_mem_take h))
  have hf := not_mem_storageFileName u fileName (Or.inl rfl)
  simp only [buildStorageKey, storagePath]
  rw [List.splitOn_append_cons_self_of_not_mem hns, List.splitOn_append_cons_self_of_not_mem ha,
    List.splitOn_append_cons_self_of_not_mem hb, List.splitOn_eq_singleton hf]

theorem legalName_of_uuidChars {c : Str} (hne : c ≠ []) (h : ∀ x ∈ c, isUuidChar x = true) :
    LegalName c := by
  refine ⟨hne, ?_, ?_, ?_, ?_⟩
  · rintro rfl; exact absurd (h '.' (by simp)) (by decide)
  · rintro rfl; exact absurd (h '.' (by simp)) (by decide)
  · intro hm; exact absurd (h _ hm) (by decide)
  · intro hm; exact absurd (h _ hm) (by decide)

theorem legalName_storageFileName (u : Uuid) (fileName : Option Str) :
    LegalName (storageFileName u.toStr (requestExtension fileName)) := by
  have hlen : 36 ≤ (storageFileName u.toStr (requestExtension fileName)).length := by
    have := congrArg List.length (take_storageFileName u (requestExtension fileName))
    simp only [List.length_take, Uuid.length_toStr] at this
    omega
  refine ⟨?_, ?_, ?_, not_mem_storageFileName u fileName (by simp),
    not_mem_storageFileName u fileName (by simp)⟩ <;>
  · intro h
    rw [h] at hlen
    simp at hlen

/-- Every name a generated key is made of is legal. -/
theorem legalName_storagePath (ns : StorageNamespace) (u : Uuid) (fileName : Option Str) :
    ∀ c ∈ storagePath ns u (requestExtension fileName), LegalName c := by
  intro c hc
  simp only [storagePath, List.mem_cons, List.not_mem_nil, or_false] at hc
  have hu := u.length_toStr
  rcases hc with rfl | rfl | rfl | rfl
  · cases ns <;> decide
  · refine legalName_of_uuidChars (fun h => ?_)
      (fun x hx => u.isUuidChar_toStr x (List.mem_of_mem_take hx))
    simpa [hu] using congrArg List.length h
  · refine legalName_of_uuidChars (fun h => ?_)
      (fun x hx => u.isUuidChar_toStr x (List.mem_of_mem_drop (List.mem_of_mem_take hx)))
    simpa [hu] using congrArg List.length h
  · exact legalName_storageFileName u fileName

/-- Generated keys pass validation, for every file name a client may send. -/
theorem validKey_buildStorageKey (ns : StorageNamespace) (u : Uuid) (fileName : Option Str) :
    ValidKey (buildStorageKey ns u (requestExtension fileName)) := by
  refine ⟨?_, ?_⟩
  · rw [mem_splitOn_iff (show '\\' ≠ '/' by decide), splitOn_buildStorageKey]
    rintro ⟨c, hc, hm⟩
    simp only [storagePath, List.mem_cons, List.not_mem_nil, or_false] at hc
    rcases hc with rfl | rfl | rfl | rfl
    · revert hm; cases ns <;> decide
    · exact u.not_mem_toStr (by decide) (List.mem_of_mem_take hm)
    · exact u.not_mem_toStr (by decide) (List.mem_of_mem_drop (List.mem_of_mem_take hm))
    · exact not_mem_storageFileName u fileName (Or.inr (Or.inl rfl)) hm
  · rw [splitOn_buildStorageKey]
    exact legalName_storagePath ns u fileName

/-- The identifier can be read back from the path of a generated key. -/
theorem storagePath_inj {ns ns' : StorageNamespace} {u v : Uuid} {ext ext' : Option Str}
    (h : storagePath ns u ext = storagePath ns' v ext') : u = v := by
  have hf : storageFileName u.toStr ext = storageFileName v.toStr ext' := by
    simp only [storagePath, List.cons.injEq] at h
    exact h.2.2.2.1
  apply Uuid.toStr_injective
  rw [← take_storageFileName u ext, ← take_storageFileName v ext', hf]

end GraphqlOrmStorage
