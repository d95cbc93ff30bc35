import GraphqlOrmStorage.SmbListing

/-!
# Temporary names and the filter that hides them

`temp_key` writes names of one shape, `is_temp_key` accepts names of several:
the identifier is handed to a parser that knows four notations, and what stands
before it is not looked at. Here the two are compared for every accepted key.
-/
namespace GraphqlOrmStorage.Smb

open Text

/-! ### The identifier parser -/

def isHexDigit (c : Char) : Bool :=
  ('0' ≤ c && c ≤ '9') || ('a' ≤ c && c ≤ 'f') || ('A' ≤ c && c ≤ 'F')

/-- Thirty-two digits and nothing else. -/
def isSimple (s : Str) : Bool := s.length = 32 && s.all isHexDigit

/-- Five groups of digits with hyphens between them. -/
def isHyphenated (s : Str) : Bool :=
  (s.splitOn '-').map List.length = [8, 4, 4, 4, 12] && (s.splitOn '-').all (·.all isHexDigit)

/-- The text between two braces. -/
def unbraced (s : Str) : Option Str := (stripPrefix ['{'] s).bind (stripSuffix ['}'])

/-- Whether `Uuid::parse_str` succeeds. -/
def parsesUuid (s : Str) : Bool :=
  isSimple s || isHyphenated s || (unbraced s).any isHyphenated ||
    (stripPrefix "urn:uuid:".toList s).any isHyphenated

/-- `Display` writes no upper-case letter. -/
def hasUpper (s : Str) : Bool := s.any fun c => 'A' ≤ c && c ≤ 'F'

/-- A digit that is not an upper-case letter is one that `Display` writes. -/
lemma exists_hexDigit {c : Char} (h : isHexDigit c = true) (hu : ('A' ≤ c && c ≤ 'F') = false) :
    ∃ n < 16, hexDigit n = c := by
  have hc : c = Char.ofNat c.toNat := (Char.ofNat_toNat c).symm
  simp only [isHexDigit, hu, Bool.or_false, Bool.or_eq_true, Bool.and_eq_true,
    decide_eq_true_eq] at h
  cases h with
  | inl h =>
    have h1 : 48 ≤ c.toNat := h.1
    have h2 : c.toNat ≤ 57 := h.2
    refine ⟨c.toNat - 48, by omega, ?_⟩
    rw [hexDigit, if_pos (by omega), show 48 + (c.toNat - 48) = c.toNat by omega, ← hc]
  | inr h =>
    have h1 : 97 ≤ c.toNat := h.1
    have h2 : c.toNat ≤ 102 := h.2
    refine ⟨c.toNat - 87, by omega, ?_⟩
    rw [hexDigit, if_neg (by omega), show 87 + (c.toNat - 87) = c.toNat by omega, ← hc]

/-- Every text of lower-case digits in pairs is what some bytes are written as. -/
lemma exists_bytes (n : ℕ) {s : Str} (hlen : s.length = 2 * n) (h : s.all isHexDigit = true)
    (hu : hasUpper s = false) : ∃ b : Bytes, b.length = n ∧ lowerHex b = s := by
  induction n generalizing s with
  | zero =>
    have hs : s = [] := List.length_eq_zero_iff.mp hlen
    exact ⟨[], rfl, by rw [hs]; rfl⟩
  | succ n ih =>
    match s with
    | [] => simp at hlen
    | [_] => simp at hlen; omega
    | c :: d :: rest =>
      simp only [List.all_cons, Bool.and_eq_true] at h
      simp only [hasUpper, List.any_cons, Bool.or_eq_false_iff] at hu
      obtain ⟨i, hi, hci⟩ := exists_hexDigit h.1 hu.1
      obtain ⟨j, hj, hdj⟩ := exists_hexDigit h.2.1 hu.2.1
      obtain ⟨b, hb, hrest⟩ := ih (s := rest) (by simp at hlen; omega) h.2.2 hu.2.2
      have hbyte : (UInt8.ofNat (16 * i + j)).toNat = 16 * i + j := by
        rw [UInt8.toNat_ofNat']
        omega
      refine ⟨UInt8.ofNat (16 * i + j) :: b, by simp [hb], ?_⟩
      have hpair : hexByte (UInt8.ofNat (16 * i + j)) = [c, d] := by
        rw [hexByte, hbyte, show (16 * i + j) / 16 = i by omega,
          show (16 * i + j) % 16 = j by omega, hci, hdj]
      calc
        lowerHex (UInt8.ofNat (16 * i + j) :: b)
            = hexByte (UInt8.ofNat (16 * i + j)) ++ lowerHex b := rfl
        _ = c :: d :: rest := by rw [hpair, hrest]; rfl

lemma isHexDigit_lowerHex {b : Bytes} {c : Char} (h : c ∈ lowerHex b) :
    isHexDigit c = true ∧ ('A' ≤ c && c ≤ 'F') = false := by
  have digit (n : ℕ) (hn : n < 16) :
      isHexDigit (hexDigit n) = true ∧ ('A' ≤ hexDigit n && hexDigit n ≤ 'F') = false := by
    interval_cases n <;> decide
  obtain ⟨x, -, hx⟩ := List.mem_flatMap.mp h
  have hlt : x.toNat < 256 := x.toNat_lt
  simp only [hexByte, List.mem_cons, List.not_mem_nil, or_false] at hx
  cases hx with
  | inl hx => exact hx ▸ digit _ (by omega)
  | inr hx => exact hx ▸ digit _ (by omega)

lemma splitOn_toStr (u : Uuid) : u.toStr.splitOn '-' =
    [lowerHex (u.bytes.take 4), lowerHex ((u.bytes.drop 4).take 2),
      lowerHex ((u.bytes.drop 6).take 2), lowerHex ((u.bytes.drop 8).take 2),
      lowerHex (u.bytes.drop 10)] := by
  have hno (b : Bytes) : '-' ∉ lowerHex b := fun h => by
    have := (isHexDigit_lowerHex h).1
    revert this
    decide
  simp only [Uuid.toStr, List.append_assoc, List.cons_append]
  rw [List.splitOn_append_cons_self_of_not_mem (hno _),
    List.splitOn_append_cons_self_of_not_mem (hno _),
    List.splitOn_append_cons_self_of_not_mem (hno _),
    List.splitOn_append_cons_self_of_not_mem (hno _), List.splitOn_eq_singleton (hno _)]

theorem isHyphenated_toStr (u : Uuid) : isHyphenated u.toStr = true := by
  have hall (b : Bytes) : (lowerHex b).all isHexDigit = true :=
    List.all_eq_true.mpr fun c hc => (isHexDigit_lowerHex hc).1
  simp [isHyphenated, splitOn_toStr, hall, u.length_eq]

theorem parsesUuid_toStr (u : Uuid) : parsesUuid u.toStr = true := by
  simp [parsesUuid, isHyphenated_toStr]

theorem hasUpper_toStr (u : Uuid) : hasUpper u.toStr = false := by
  have hchar (c : Char) (h : isUuidChar c = true) : ('A' ≤ c && c ≤ 'F') = false := by
    by_contra hc
    simp only [Bool.not_eq_false, Bool.and_eq_true, decide_eq_true_eq] at hc
    have h1 : 65 ≤ c.toNat := hc.1
    have h2 : c.toNat ≤ 70 := hc.2
    interval_cases hn : c.toNat <;>
    · rw [← Char.ofNat_toNat c, hn] at h
      revert h
      decide
  rw [hasUpper, List.any_eq_false]
  intro c hc
  rw [hchar c (u.isUuidChar_toStr c hc)]
  exact Bool.false_ne_true

/-- A hyphenated text without upper-case letters is how some identifier is written. -/
theorem exists_uuid {s : Str} (h : isHyphenated s = true) (hu : hasUpper s = false) :
    ∃ u : Uuid, u.toStr = s := by
  simp only [isHyphenated, Bool.and_eq_true, decide_eq_true_eq] at h
  obtain ⟨hlen, hall⟩ := h
  have hjoin : ['-'].intercalate (s.splitOn '-') = s := List.intercalate_splitOn '-'
  match hs : s.splitOn '-' with
  | [g₁, g₂, g₃, g₄, g₅] =>
    rw [hs] at hlen hall hjoin
    simp only [List.map_cons, List.map_nil, List.cons.injEq, and_true] at hlen
    obtain ⟨l₁, l₂, l₃, l₄, l₅⟩ := hlen
    simp only [List.all_cons, List.all_nil, Bool.and_true, Bool.and_eq_true] at hall
    obtain ⟨a₁, a₂, a₃, a₄, a₅⟩ := hall
    have lower {g : Str} (hg : g ∈ s.splitOn '-') : hasUpper g = false := by
      rw [hasUpper, List.any_eq_false] at hu ⊢
      intro c hc hup
      have hne : c ≠ '-' := by
        rintro rfl
        revert hup
        decide
      exact hu c ((mem_splitOn_iff hne s).mpr ⟨g, hg, hc⟩) hup
    rw [hs] at lower
    obtain ⟨b₁, n₁, e₁⟩ := exists_bytes 4 l₁ a₁ (lower (by simp))
    obtain ⟨b₂, n₂, e₂⟩ := exists_bytes 2 l₂ a₂ (lower (by simp))
    obtain ⟨b₃, n₃, e₃⟩ := exists_bytes 2 l₃ a₃ (lower (by simp))
    obtain ⟨b₄, n₄, e₄⟩ := exists_bytes 2 l₄ a₄ (lower (by simp))
    obtain ⟨b₅, n₅, e₅⟩ := exists_bytes 6 l₅ a₅ (lower (by simp))
    refine ⟨⟨b₁ ++ (b₂ ++ (b₃ ++ (b₄ ++ b₅))), by simp [n₁, n₂, n₃, n₄, n₅]⟩, ?_⟩
    have d (m : ℕ) {b : Bytes} (hb : b.length ≤ m) : b.drop m = [] := List.drop_eq_nil_of_le hb
    have hgroups : [lowerHex b₁, lowerHex b₂, lowerHex b₃, lowerHex b₄, lowerHex b₅] =
        s.splitOn '-' := by rw [hs, e₁, e₂, e₃, e₄, e₅]
    apply splitOn_injective '-'
    rw [splitOn_toStr, ← hgroups]
    simp [List.drop_append, n₁, n₂, n₃, n₄, d]
  | [] | [_] | [_, _] | [_, _, _] | [_, _, _, _] | _ :: _ :: _ :: _ :: _ :: _ :: _ =>
    simp [hs] at hlen

/-! ### Names beside keys -/

/-- The directory of a key, as the parts before the last. -/
def directoryOf (key : Str) : Path := (key.splitOn '/').dropLast

/-- The last part of a key. -/
def lastPart (key : Str) : Str := (key.splitOn '/').getLast?.getD []

lemma splitOn_eq (key : Str) : key.splitOn '/' = directoryOf key ++ [lastPart key] := by
  have hne := List.splitOn_ne_nil '/' key
  rw [directoryOf, lastPart, List.getLast?_eq_some_getLast hne, Option.getD_some,
    List.dropLast_append_getLast hne]

lemma parts_of_splitOn {key last : Str} {front : Path} (h : key.splitOn '/' = front ++ [last]) :
    directoryOf key = front ∧ lastPart key = last := by
  rw [directoryOf, lastPart, h]
  simp

lemma lastPart_mem (key : Str) : lastPart key ∈ key.splitOn '/' := by
  rw [splitOn_eq key]
  exact List.mem_append_right _ (List.mem_singleton_self _)

/-- The temporary name stands in the place of the last part. -/
lemma splitOn_tempBeside (u : Uuid) {key : Str} (h : ValidKey key) :
    (tempBeside u key).splitOn '/' = directoryOf key ++ [tempName u (lastPart key)] := by
  have hlast : LegalName (lastPart key) := h.2 _ (lastPart_mem key)
  have hback : '\\' ∉ lastPart key := fun hb =>
    h.1 ((mem_splitOn_iff (by decide) key).mpr ⟨_, lastPart_mem key, hb⟩)
  have hone := List.splitOn_eq_singleton (legalName_tempName u hlast hback).1.2.2.2.1
  cases hr : rsplitOnce '/' key with
  | none =>
    have hkey := List.splitOn_eq_singleton (rsplitOnce_eq_none.mp hr)
    obtain ⟨hdir, hname⟩ := parts_of_splitOn (show key.splitOn '/' = [] ++ [key] from hkey)
    rw [hname] at hone ⊢
    simp [tempBeside, hr, hone, hdir]
  | some split =>
    obtain ⟨parent, name⟩ := split
    obtain ⟨rfl, hslash⟩ := rsplitOnce_eq_some.mp hr
    have hkey : (parent ++ '/' :: name).splitOn '/' = parent.splitOn '/' ++ [name] := by
      rw [List.splitOn_append_cons_self, List.splitOn_eq_singleton hslash]
    obtain ⟨hdir, hname⟩ := parts_of_splitOn hkey
    have hparent : parent ≠ [] := by
      rintro rfl
      exact (h.2 [] (by rw [hkey]; simp)).1 rfl
    rw [hname] at hone ⊢
    rw [hdir]
    simp [tempBeside, hr, hparent, List.splitOn_append_cons_self, hone]

/-- The filter looks at three places of the last part only: its suffix, the last
dot before it, and the text in between. -/
lemma isTempKey_iff {key : Str} : isTempKey parsesUuid key = true ↔
    ∃ front id, lastPart key = front ++ '.' :: id ++ tempSuffix ∧ '.' ∉ id ∧
      parsesUuid id = true := by
  have hpart : (key.splitOn '/').getLast?.getD [] = lastPart key := rfl
  unfold isTempKey
  rw [hpart]
  constructor
  · intro h
    split at h
    · cases h
    · rename_i stem hstem
      rw [stripSuffix_eq_some] at hstem
      obtain ⟨⟨front, id⟩, hsplit, hid⟩ := (Option.any_eq_true _ _).mp h
      obtain ⟨rfl, hdot⟩ := rsplitOnce_eq_some.mp hsplit
      exact ⟨front, id, hstem, hdot, hid⟩
  · intro h
    obtain ⟨front, id, hlast, hdot, hid⟩ := h
    have hstem : stripSuffix tempSuffix (lastPart key) = some (front ++ '.' :: id) :=
      stripSuffix_eq_some.mpr hlast
    have hsplit : rsplitOnce '.' (front ++ '.' :: id) = some (front, id) :=
      rsplitOnce_eq_some.mpr ⟨rfl, hdot⟩
    simp only [hstem, hsplit, Option.any_some, hid]

/-- Every name that `temp_key` builds is accepted, lies beside its key and is hidden. -/
theorem tempKey_hidden (u : Uuid) {key : Str} (h : ValidKey key) :
    ∃ temp, tempKey u key = .ok temp ∧ ValidKey temp ∧ directoryOf temp = directoryOf key ∧
      isTempKey parsesUuid temp = true := by
  have hsplit := splitOn_tempBeside u h
  refine ⟨tempBeside u key, tempKey_of_valid u h, validKey_tempBeside u h, ?_, ?_⟩
  · exact (parts_of_splitOn hsplit).1
  · have hlast := (parts_of_splitOn hsplit).2
    have hdot : '.' ∉ u.toStr := u.not_mem_toStr (by decide)
    refine isTempKey_iff.mpr ⟨'.' :: lastPart key, u.toStr, ?_, hdot, parsesUuid_toStr u⟩
    rw [hlast, tempName]

/-- What stands before and after the last dot of a hidden stem, in the form that
`temp_key` writes: a dot and a legal name, then a lower-case hyphenated identifier. -/
def StrictForm (front id : Str) : Prop :=
  (∃ name, front = '.' :: name ∧ LegalName name) ∧ isHyphenated id = true ∧ hasUpper id = false

/-- If the last part of the key ends in a dot, one of the four notations of an
identifier and the suffix, then it does so in the strict form. -/
def StrictlyNamed (key : Str) : Prop :=
  ∀ front id, lastPart key = front ++ '.' :: id ++ tempSuffix → '.' ∉ id → parsesUuid id = true →
    StrictForm front id

/-- The strict form is reached from the key whose last part is the enclosed name. -/
lemma exists_tempKey {x front id : Str} (hx : ValidKey x)
    (hlast : lastPart x = front ++ '.' :: id ++ tempSuffix) (h : StrictForm front id) :
    ∃ u key, ValidKey key ∧ tempKey u key = .ok x := by
  obtain ⟨⟨name, rfl, hname⟩, hid, hupper⟩ := h
  obtain ⟨u, rfl⟩ := exists_uuid hid hupper
  have hlegal : ∀ c ∈ directoryOf x ++ [name], LegalName c := by
    intro c hc
    rw [List.mem_append, List.mem_singleton] at hc
    cases hc with
    | inl hc => exact hx.2 c (by rw [splitOn_eq x]; exact List.mem_append_left _ hc)
    | inr hc => exact hc ▸ hname
  have hsplit : (['/'].intercalate (directoryOf x ++ [name])).splitOn '/' =
      directoryOf x ++ [name] :=
    List.splitOn_intercalate '/' (fun c hc => (hlegal c hc).2.2.2.1) (by simp)
  have hkey : ValidKey (['/'].intercalate (directoryOf x ++ [name])) := by
    refine ⟨?_, by rwa [hsplit]⟩
    rw [mem_splitOn_iff (show '\\' ≠ '/' by decide), hsplit]
    rintro ⟨c, hc, hb⟩
    rw [List.mem_append, List.mem_singleton] at hc
    have part {c : Str} (hc : c ∈ x.splitOn '/') : '\\' ∉ c := fun hb =>
      hx.1 ((mem_splitOn_iff (by decide) x).mpr ⟨c, hc, hb⟩)
    cases hc with
    | inl hc => exact part (by rw [splitOn_eq x]; exact List.mem_append_left _ hc) hb
    | inr hc =>
      subst hc
      refine part (lastPart_mem x) ?_
      rw [hlast]
      simp [hb]
  refine ⟨u, _, hkey, ?_⟩
  rw [tempKey_of_valid u hkey, Except.ok.injEq]
  apply splitOn_injective '/'
  obtain ⟨hdir, hlastKey⟩ := parts_of_splitOn hsplit
  rw [splitOn_tempBeside u hkey, splitOn_eq x, hlast, hdir, hlastKey]
  simp [tempName]

/-- The temporary names are hidden, and a hidden key is a temporary name exactly
when its last part is in the strict form. -/
theorem temp_filter_exact_iff (x : Str) (hx : validateBlobKey x = .ok ()) :
    ((∀ u key, validateBlobKey key = .ok () → ∃ temp, tempKey u key = .ok temp ∧
        validateBlobKey temp = .ok () ∧ directoryOf temp = directoryOf key ∧
        isTempKey parsesUuid temp = true) ∧
      (isTempKey parsesUuid x = true →
        ∃ u key, validateBlobKey key = .ok () ∧ tempKey u key = .ok x)) ↔
    StrictlyNamed x := by
  constructor
  · intro h front id hlast hdot hid
    obtain ⟨u, key, hkey, htemp⟩ := h.2 (isTempKey_iff.mpr ⟨front, id, hlast, hdot, hid⟩)
    have hv : ValidKey key := validateBlobKey_eq_ok.mp hkey
    rw [tempKey_of_valid u hv, Except.ok.injEq] at htemp
    have hname : lastPart x = ('.' :: lastPart key) ++ '.' :: u.toStr ++ tempSuffix := by
      rw [← htemp, (parts_of_splitOn (splitOn_tempBeside u hv)).2, tempName]
    -- The last dot before the suffix is in one place.
    have hstem : front ++ '.' :: id = ('.' :: lastPart key) ++ '.' :: u.toStr :=
      List.append_cancel_right (hlast.symm.trans hname)
    have h₁ : rsplitOnce '.' (front ++ '.' :: id) = some (front, id) :=
      rsplitOnce_eq_some.mpr ⟨rfl, hdot⟩
    have h₂ : rsplitOnce '.' (front ++ '.' :: id) = some ('.' :: lastPart key, u.toStr) :=
      rsplitOnce_eq_some.mpr ⟨hstem, u.not_mem_toStr (by decide)⟩
    obtain ⟨rfl, rfl⟩ : front = '.' :: lastPart key ∧ id = u.toStr := by
      rw [h₁, Option.some.injEq, Prod.mk.injEq] at h₂
      exact h₂
    have hlegal : LegalName (lastPart key) := hv.2 _ (lastPart_mem key)
    exact ⟨⟨_, rfl, hlegal⟩, isHyphenated_toStr u, hasUpper_toStr u⟩
  · intro h
    constructor
    · intro u key hkey
      obtain ⟨temp, htemp, hv, hdir, hhidden⟩ := tempKey_hidden u (validateBlobKey_eq_ok.mp hkey)
      exact ⟨temp, htemp, validateBlobKey_eq_ok.mpr hv, hdir, hhidden⟩
    · intro hhidden
      obtain ⟨front, id, hlast, hdot, hid⟩ := isTempKey_iff.mp hhidden
      obtain ⟨u, key, hv, htemp⟩ :=
        exists_tempKey (validateBlobKey_eq_ok.mp hx) hlast (h front id hlast hdot hid)
      exact ⟨u, key, validateBlobKey_eq_ok.mpr hv, htemp⟩

/-- A name in the strict form, and a user's file name that merely ends like one. -/
def strictKey : Str := "d/.a.67e55044-10b1-426f-9247-bb680e5fe0c8.uploading".toList

def userKey : Str := "d/report.67e55044-10b1-426f-9247-bb680e5fe0c8.uploading".toList

/-- The text of the identifier in both. -/
def idText : Str := "67e55044-10b1-426f-9247-bb680e5fe0c8".toList

lemma strictKey_strict : StrictlyNamed strictKey := by
  intro front id hlast hdot hid
  have hparts : lastPart strictKey = ".a".toList ++ '.' :: idText ++ tempSuffix := by decide
  have hstem : ".a".toList ++ '.' :: idText = front ++ '.' :: id :=
    List.append_cancel_right (hparts.symm.trans hlast)
  have h₁ : rsplitOnce '.' (".a".toList ++ '.' :: idText) = some (".a".toList, idText) := by decide
  have h₂ : rsplitOnce '.' (".a".toList ++ '.' :: idText) = some (front, id) :=
    rsplitOnce_eq_some.mpr ⟨hstem, hdot⟩
  obtain ⟨rfl, rfl⟩ : ".a".toList = front ∧ idText = id := by
    rw [h₁, Option.some.injEq, Prod.mk.injEq] at h₂
    exact h₂
  exact ⟨⟨"a".toList, rfl, by decide⟩, by decide, by decide⟩

theorem temp_filter_exact_strict :
    (∀ u key, validateBlobKey key = .ok () → ∃ temp, tempKey u key = .ok temp ∧
      validateBlobKey temp = .ok () ∧ directoryOf temp = directoryOf key ∧
      isTempKey parsesUuid temp = true) ∧
    (isTempKey parsesUuid strictKey = true →
      ∃ u key, validateBlobKey key = .ok () ∧ tempKey u key = .ok strictKey) :=
  (temp_filter_exact_iff strictKey (by decide)).mpr strictKey_strict

/-- A user's key is hidden though no key and identifier give it as a temporary name. -/
theorem user_key_hidden :
    ¬ ∀ x, validateBlobKey x = .ok () → isTempKey parsesUuid x = true →
      ∃ u key, validateBlobKey key = .ok () ∧ tempKey u key = .ok x := by
  intro h
  obtain ⟨u, key, hkey, htemp⟩ := h userKey (by decide) (by decide)
  have hv : ValidKey key := validateBlobKey_eq_ok.mp hkey
  rw [tempKey_of_valid u hv, Except.ok.injEq] at htemp
  have hlast := (parts_of_splitOn (splitOn_tempBeside u hv)).2
  have hhead := congrArg List.head? hlast
  have hr : (lastPart userKey).head? = some 'r' := by decide
  rw [htemp, hr] at hhead
  simp [tempName] at hhead

end GraphqlOrmStorage.Smb
