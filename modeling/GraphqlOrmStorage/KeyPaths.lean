import GraphqlOrmStorage.LocalBlob
import GraphqlOrmStorage.LocalListing

/-!
# Keys as paths below an arbitrary root

The local backend joins a key to its root and later strips the root off again.
Here the root is any text, with the doubled separators, dots and trailing
slashes that a configuration may hold, and joining and stripping are those of
the standard library. The tree of the other files starts at the root; the last
section of this one says how its paths lie below the real root.
-/
namespace GraphqlOrmStorage.Rooted

open Text

/-- `Path::join`: an absolute text replaces the base, no separator is doubled. -/
def join (base s : Str) : Str :=
  if isAbsolute s then s
  else if base = [] ∨ base.getLast? = some '/' then base ++ s
  else base ++ '/' :: s

/-- Whether a part between separators counts as no component. -/
def isVacant (part : Str) : Bool := (componentOf part).isNone

/-- The parts that are left once `n` components have been taken off the front. -/
def dropBody : ℕ → List Str → List Str
  | 0, parts => parts
  | _ + 1, [] => []
  | n + 1, part :: parts =>
    if isVacant part then dropBody (n + 1) parts else dropBody n parts

/-- `Components::as_path` once the iteration has begun: both ends are trimmed. -/
def asPath (parts : List Str) : Str :=
  ['/'].intercalate ((parts.dropWhile isVacant).rdropWhile isVacant)

/-- The path that is left after the first `n` components of a path. -/
def afterComponents (n : ℕ) (s : Str) : Str :=
  match s.splitOn '/' with
  | [] => []
  | first :: rest =>
    match n with
    | 0 =>
      if isAbsolute s then '/' :: ['/'].intercalate (rest.rdropWhile isVacant)
      else ['/'].intercalate (first :: rest.rdropWhile isVacant)
    | n + 1 =>
      if isAbsolute s ∨ first = ['.'] then asPath (dropBody n rest)
      else asPath (dropBody (n + 1) (first :: rest))

/-- `Path::strip_prefix`: components are compared, not characters. -/
def stripPrefix (base path : Str) : Option Str :=
  if components base <+: components path then
    some (afterComponents (components base).length path)
  else none

/-- `path_for` of a backend with the given root. -/
def pathFor (root key : Str) : Except StorageError Str :=
  match validateBlobKey key with
  | .error e => .error e
  | .ok () => .ok (join root key)

/-- `key_for_path` of a backend with the given root. -/
def keyForPath (root path : Str) : Option Str :=
  (stripPrefix root path).map (replaceChar '\\' '/')

/-! ### Joining -/

/-- Joining either leaves the text alone, or puts it behind one separator. -/
lemma join_cases (root : Str) {s : Str} (h : isAbsolute s = false) :
    root = [] ∧ join root s = s ∨
      ∃ base, join root s = base ++ '/' :: s ∧ (root = base ++ ['/'] ∨ root = base ∧ base ≠ []) := by
  unfold join
  rw [if_neg (by simp [h])]
  by_cases hnil : root = []
  · left
    simp [hnil]
  · right
    by_cases hlast : root.getLast? = some '/'
    · obtain ⟨base, rfl⟩ := List.getLast?_eq_some_iff.mp hlast
      exact ⟨base, by simp, Or.inl rfl⟩
    · exact ⟨root, by simp [hnil, hlast], Or.inr ⟨rfl, hnil⟩⟩

/-- What the first part contributes to the components of a text. -/
def leadOf (s first : Str) : List Component :=
  if s.head? = some '/' then [.rootDir]
  else if first = ['.'] then [.curDir] else (componentOf first).toList

lemma components_cons {s first : Str} {rest : List Str} (h : s.splitOn '/' = first :: rest) :
    components s = leadOf s first ++ rest.filterMap componentOf := by
  unfold components leadOf
  rw [h]

/-- The parts behind a separator are read alike, whatever stands before it. -/
lemma components_append {base s : Str} (h : base ≠ []) :
    components (base ++ '/' :: s) = components base ++ (s.splitOn '/').filterMap componentOf := by
  cases hb : base.splitOn '/' with
  | nil => exact absurd hb (List.splitOn_ne_nil '/' base)
  | cons first rest =>
    have hs : (base ++ '/' :: s).splitOn '/' = first :: (rest ++ s.splitOn '/') := by
      rw [List.splitOn_append_cons_self, hb, List.cons_append]
    have hhead : (base ++ '/' :: s).head? = base.head? := List.head?_append_of_ne_nil base h
    rw [components_cons hs, components_cons hb, leadOf, leadOf, hhead, List.filterMap_append,
      List.append_assoc]

lemma components_slash (s : Str) :
    components ('/' :: s) = .rootDir :: (s.splitOn '/').filterMap componentOf := by
  have hs : ('/' :: s).splitOn '/' = [] :: s.splitOn '/' := by
    simpa using List.splitOn_append_cons_self [] s (a := '/')
  rw [components_cons hs, leadOf, if_pos (by simp), List.singleton_append]

/-- The joined path runs through the root and then through the parts of the text. -/
lemma components_join {root s base : Str}
    (h : root = base ++ ['/'] ∨ root = base ∧ base ≠ []) :
    components (base ++ '/' :: s) = components root ++ (s.splitOn '/').filterMap componentOf := by
  by_cases hb : base = []
  · obtain rfl : root = ['/'] := by simpa [hb] using h
    rw [hb, List.nil_append, components_slash, components_slash]
    simp [componentOf]
  · rw [components_append hb]
    rcases h with rfl | ⟨rfl, -⟩
    · rw [components_append hb]
      simp [componentOf]
    · rfl

lemma isAbsolute_of_valid {key : Str} (h : ValidKey key) : isAbsolute key = false := by
  simpa [isAbsolute] using h.not_absolute

lemma components_nil : components [] = [] := by
  simp [components, componentOf]

/-- An accepted key joined to any root leads strictly below it, by its own components. -/
theorem components_join_valid (root : Str) {key : Str} (h : ValidKey key) :
    components (join root key) = components root ++ components key := by
  have hkey : components key = (key.splitOn '/').filterMap componentOf := by
    rw [h.components_eq, filterMap_componentOf h.2]
  obtain ⟨rfl, hj⟩ | ⟨base, hj, hb⟩ := join_cases root (isAbsolute_of_valid h)
  · rw [hj, components_nil, List.nil_append]
  · rw [hj, components_join hb, hkey]

/-! ### Stripping -/

/-- Taking off as many components as the front holds reaches the parts behind it. -/
lemma dropBody_append (parts later : List Str) :
    (dropBody (parts.filterMap componentOf).length (parts ++ later)).dropWhile isVacant =
      later.dropWhile isVacant := by
  induction parts with
  | nil => simp [dropBody]
  | cons part parts ih =>
    cases hc : componentOf part with
    | none =>
      have hv : isVacant part = true := by simp [isVacant, hc]
      rw [List.filterMap_cons_none hc, List.cons_append]
      cases hn : (parts.filterMap componentOf).length with
      | zero =>
        rw [hn] at ih
        simpa only [dropBody, List.dropWhile_cons_of_pos hv] using ih
      | succ n =>
        rw [hn] at ih
        simpa only [dropBody, hv, if_true] using ih
    | some c =>
      have hv : isVacant part = false := by simp [isVacant, hc]
      rw [List.filterMap_cons_some hc, List.cons_append, List.length_cons]
      simpa only [dropBody, hv, Bool.false_eq_true, if_false] using ih

lemma isVacant_of_legal {c : Str} (h : LegalName c) : isVacant c = false := by
  simp [isVacant, componentOf_legal h]

/-- Nothing is trimmed off the parts of an accepted key. -/
lemma dropWhile_parts {key : Str} (h : ValidKey key) :
    (key.splitOn '/').dropWhile isVacant = key.splitOn '/' := by
  cases hs : key.splitOn '/' with
  | nil => rfl
  | cons first rest =>
    have hf : LegalName first := h.2 first (by simp [hs])
    rw [List.dropWhile_cons_of_neg (by simp [isVacant_of_legal hf])]

lemma rdropWhile_legal {parts : List Str} (h : ∀ c ∈ parts, LegalName c) :
    parts.rdropWhile isVacant = parts := by
  rw [List.rdropWhile_eq_self_iff]
  intro hne
  simp [isVacant_of_legal (h _ (List.getLast_mem hne))]

lemma asPath_of_dropWhile {key : Str} (h : ValidKey key) {parts : List Str}
    (hp : parts.dropWhile isVacant = (key.splitOn '/').dropWhile isVacant) :
    asPath parts = key := by
  rw [asPath, hp, dropWhile_parts h, rdropWhile_legal h.2, List.intercalate_splitOn]

lemma length_leadOf {s first : Str} (h : isAbsolute s = true ∨ first = ['.']) :
    (leadOf s first).length = 1 := by
  unfold leadOf
  by_cases hs : s.head? = some '/'
  · rw [if_pos hs, List.length_singleton]
  · have hf : first = ['.'] := by simpa [isAbsolute, hs] using h
    rw [if_neg hs, if_pos hf, List.length_singleton]

/-- An empty first part before a separator means that the text starts with one. -/
lemma isAbsolute_of_splitOn (s : Str) {base : Str} {rest : List Str} (h : base.splitOn '/' = [] :: rest) :
    isAbsolute (base ++ '/' :: s) = true := by
  have hb : base = ['/'].intercalate ([] :: rest) := by rw [← h, List.intercalate_splitOn]
  cases rest with
  | nil =>
    have hnil : base = [] := by simpa using hb
    simp [hnil, isAbsolute]
  | cons part rest =>
    rw [hb, List.intercalate_cons_cons]
    simp [isAbsolute]

lemma componentOf_isSome {part : Str} (h1 : part ≠ []) (h2 : part ≠ ['.']) :
    ∃ c, componentOf part = some c := by
  unfold componentOf
  rw [if_neg (by simp [h1, h2])]
  split_ifs
  · exact ⟨_, rfl⟩
  · exact ⟨_, rfl⟩

/-- With no root to strip, an accepted key stays as it is. -/
lemma afterComponents_zero {key : Str} (h : ValidKey key) : afterComponents 0 key = key := by
  have hi : ['/'].intercalate (key.splitOn '/') = key := List.intercalate_splitOn '/'
  unfold afterComponents
  cases hs : key.splitOn '/' with
  | nil => exact absurd hs (List.splitOn_ne_nil '/' key)
  | cons first rest =>
    have hrest : rest.rdropWhile isVacant = rest :=
      rdropWhile_legal fun c hc => h.2 c (by simp [hs, hc])
    simp only [isAbsolute_of_valid h, Bool.false_eq_true, if_false]
    rw [hrest, ← hs, hi]

/-- What is left of a joined path after the components of its root is the key itself. -/
lemma afterComponents_join {key base root : Str} (h : ValidKey key)
    (hb : root = base ++ ['/'] ∨ root = base ∧ base ≠ []) :
    afterComponents (components root).length (base ++ '/' :: key) = key := by
  have hcomp : components (base ++ '/' :: key) = components root ++ (key.splitOn '/').map .normal := by
    rw [components_join hb, filterMap_componentOf h.2]
  cases hs : base.splitOn '/' with
  | nil => exact absurd hs (List.splitOn_ne_nil '/' base)
  | cons first rest =>
    have hsplit : (base ++ '/' :: key).splitOn '/' = first :: (rest ++ key.splitOn '/') := by
      rw [List.splitOn_append_cons_self, hs, List.cons_append]
    have hroot : components root =
        leadOf (base ++ '/' :: key) first ++ rest.filterMap componentOf := by
      rw [components_cons hsplit, List.filterMap_append, filterMap_componentOf h.2,
        ← List.append_assoc] at hcomp
      exact (List.append_cancel_right hcomp).symm
    have hdrop (parts : List Str) :
        asPath (dropBody (parts.filterMap componentOf).length (parts ++ key.splitOn '/')) = key :=
      asPath_of_dropWhile h (dropBody_append parts _)
    by_cases hlead : isAbsolute (base ++ '/' :: key) = true ∨ first = ['.']
    · have hlen : (components root).length = (rest.filterMap componentOf).length + 1 := by
        rw [hroot, List.length_append, length_leadOf hlead, Nat.add_comm]
      simp only [afterComponents, hsplit, hlen, if_pos hlead]
      exact hdrop rest
    · simp only [not_or, Bool.not_eq_true] at hlead
      have hfirst : first ≠ [] := by
        rintro rfl
        simp [isAbsolute_of_splitOn key hs] at hlead
      have hroot' : components root = (first :: rest).filterMap componentOf := by
        rw [hroot, leadOf, if_neg (by simpa [isAbsolute] using hlead.1), if_neg hlead.2]
        cases hc : componentOf first with
        | none => rw [List.filterMap_cons_none hc]; rfl
        | some c => rw [List.filterMap_cons_some hc]; rfl
      have hpos : 0 < (components root).length := by
        obtain ⟨c, hc⟩ := componentOf_isSome hfirst hlead.2
        rw [hroot', List.filterMap_cons_some hc]
        simp
      obtain ⟨n, hn⟩ : ∃ n, (components root).length = n + 1 := ⟨_, (Nat.sub_one_add_one hpos.ne').symm⟩
      have hkey := hdrop (first :: rest)
      rw [← hroot', hn] at hkey
      simpa only [afterComponents, hsplit, hn, hlead.1, hlead.2, Bool.false_eq_true, or_self,
        if_false, List.cons_append] using hkey

/-- Stripping the root off a joined key gives the key back. -/
theorem stripPrefix_join (root : Str) {key : Str} (h : ValidKey key) :
    stripPrefix root (join root key) = some key := by
  have hprefix : components root <+: components (join root key) := by
    rw [components_join_valid root h]
    exact List.prefix_append _ _
  rw [stripPrefix, if_pos hprefix, Option.some.injEq]
  obtain ⟨rfl, hj⟩ | ⟨base, hj, hb⟩ := join_cases root (isAbsolute_of_valid h)
  · rw [hj, components_nil, List.length_nil]
    exact afterComponents_zero h
  · rw [hj]
    exact afterComponents_join h hb

/-- The replacement of backslashes changes nothing, since a key has none. -/
theorem keyForPath_join (root : Str) {key : Str} (h : ValidKey key) :
    keyForPath root (join root key) = some key := by
  have hmap := Local.keyForPath_splitOn h
  rw [Local.keyForPath, List.intercalate_splitOn] at hmap
  rw [keyForPath, stripPrefix_join root h, Option.map_some, hmap]

/-! ### The keys that are accepted, and their paths -/

/-- The root-relative path of the other files, put below the real root. -/
theorem pathFor_below (root : Str) {key : Str} {p : Path} (h : Local.pathFor key = .ok p) :
    pathFor root key = .ok (join root key) ∧
      components (join root key) = components root ++ p.map .normal ∧
      keyForPath root (join root key) = some (Local.keyForPath p) := by
  by_cases hv : ValidKey key
  · obtain rfl : key.splitOn '/' = p := by simpa [Local.pathFor_of_valid hv] using h
    refine ⟨by simp only [pathFor, validateBlobKey_eq_ok.mpr hv], ?_, ?_⟩
    · rw [components_join_valid root hv, hv.components_eq]
    · rw [keyForPath_join root hv, Local.keyForPath_splitOn hv]
  · rw [Local.pathFor_of_not_valid hv] at h
    cases h

/-- What validation amounts to in terms of the text alone. -/
theorem validateBlobKey_iff (key : Str) :
    validateBlobKey key = .ok () ↔
      key ≠ [] ∧ '\\' ∉ key ∧ '\x00' ∉ key ∧
        ∀ c ∈ key.splitOn '/', c ≠ [] ∧ c ≠ ['.'] ∧ c ≠ ['.', '.'] := by
  rw [validateBlobKey_eq_ok]
  have hzero : '\x00' ∈ key ↔ ∃ c ∈ key.splitOn '/', '\x00' ∈ c :=
    mem_splitOn_iff (by decide) key
  constructor
  · intro h
    refine ⟨?_, h.1, ?_, fun c hc => ⟨(h.2 c hc).1, (h.2 c hc).2.1, (h.2 c hc).2.2.1⟩⟩
    · rintro rfl
      exact (h.2 [] (by simp)).1 rfl
    · intro hz
      obtain ⟨c, hc, hz⟩ := hzero.mp hz
      exact (h.2 c hc).2.2.2.2 hz
  · intro h
    obtain ⟨-, hb, h0, hparts⟩ := h
    refine ⟨hb, fun c hc => ?_⟩
    obtain ⟨h1, h2, h3⟩ := hparts c hc
    exact ⟨h1, h2, h3, not_mem_of_mem_splitOn hc, fun hz => h0 (hzero.mpr ⟨c, hc, hz⟩)⟩

/-- Accepted keys are determined by the components of their paths. -/
theorem join_injective (root : Str) {k₁ k₂ : Str} (h₁ : ValidKey k₁) (h₂ : ValidKey k₂)
    (h : components (join root k₁) = components (join root k₂)) : k₁ = k₂ := by
  rw [components_join_valid root h₁, components_join_valid root h₂, List.append_cancel_left_eq,
    h₁.components_eq, h₂.components_eq] at h
  have hname : Function.Injective Component.normal := fun a b hab => by cases hab; rfl
  exact splitOn_injective '/' (List.map_injective_iff.mpr hname h)

/-- Validation accepts exactly the texts named by its first test, and for every
root the accepted keys are the paths strictly below it, one path for each key. -/
theorem keys_round_trip :
    (∀ key : Str, validateBlobKey key = .ok () ↔
      key ≠ [] ∧ '\\' ∉ key ∧ '\x00' ∉ key ∧
        ∀ c ∈ key.splitOn '/', c ≠ [] ∧ c ≠ ['.'] ∧ c ≠ ['.', '.']) ∧
    (∀ root key : Str, validateBlobKey key = .ok () →
      pathFor root key = .ok (join root key) ∧
      components (join root key) = components root ++ (key.splitOn '/').map .normal ∧
      key.splitOn '/' ≠ [] ∧ keyForPath root (join root key) = some key) ∧
    ∀ (root k₁ k₂ p₁ p₂ : Str), pathFor root k₁ = .ok p₁ → pathFor root k₂ = .ok p₂ →
      components p₁ = components p₂ → k₁ = k₂ := by
  refine ⟨validateBlobKey_iff, fun root key hok => ?_, fun root k₁ k₂ p₁ p₂ h₁ h₂ h => ?_⟩
  · have hv : ValidKey key := validateBlobKey_eq_ok.mp hok
    obtain ⟨hpath, hcomp, -⟩ := pathFor_below root (Local.pathFor_of_valid hv)
    exact ⟨hpath, hcomp, List.splitOn_ne_nil '/' key, keyForPath_join root hv⟩
  · have valid {k p : Str} (hp : pathFor root k = .ok p) : ValidKey k ∧ p = join root k := by
      unfold pathFor at hp
      split at hp
      · cases hp
      · rename_i hk
        exact ⟨validateBlobKey_eq_ok.mp hk, by simpa using hp.symm⟩
    obtain ⟨hv₁, rfl⟩ := valid h₁
    obtain ⟨hv₂, rfl⟩ := valid h₂
    exact join_injective root hv₁ hv₂ h

/-! ### Generated keys -/

lemma asStr_injective : Function.Injective StorageNamespace.asStr := by
  intro a b h
  cases a <;> cases b <;> first | rfl | exact absurd h (by decide)

/-- A generated key leads to the path its four components make up. -/
lemma components_buildStorageKey (ns : StorageNamespace) (u : Uuid) (fileName : Option Str) :
    components (buildStorageKey ns u (requestExtension fileName)) =
      (storagePath ns u (requestExtension fileName)).map .normal := by
  rw [(validKey_buildStorageKey ns u fileName).components_eq, splitOn_buildStorageKey]

/-- Of two generated keys neither leads below the other, and equal ones have one origin. -/
lemma origin_of_prefix {ns ns' : StorageNamespace} {u v : Uuid} {file file' : Option Str}
    (h : components (buildStorageKey ns u (requestExtension file)) <+:
      components (buildStorageKey ns' v (requestExtension file'))) : ns = ns' ∧ u = v := by
  rw [components_buildStorageKey, components_buildStorageKey] at h
  have hmap := h.eq_of_length rfl
  have hname : Function.Injective Component.normal := fun a b hab => by cases hab; rfl
  have hpath := List.map_injective_iff.mpr hname hmap
  have hns : ns.asStr = ns'.asStr := by
    simp only [storagePath, List.cons.injEq] at hpath
    exact hpath.1
  exact ⟨asStr_injective hns, storagePath_inj hpath⟩

/-- The key of a stored object passes validation, has four components and tells
its namespace and its identifier, whatever file names clients send. -/
theorem generated_keys_never_collide :
    (∀ (ns : StorageNamespace) (u : Uuid) (file : Option Str),
      validateBlobKey (buildStorageKey ns u (requestExtension file)) = .ok () ∧
      ((buildStorageKey ns u (requestExtension file)).splitOn '/').length = 4) ∧
    ∀ (ns ns' : StorageNamespace) (u v : Uuid) (file file' : Option Str),
      buildStorageKey ns u (requestExtension file) =
          buildStorageKey ns' v (requestExtension file') ∨
        components (buildStorageKey ns u (requestExtension file)) <+:
          components (buildStorageKey ns' v (requestExtension file')) →
      ns = ns' ∧ u = v := by
  constructor
  · intro ns u file
    refine ⟨validateBlobKey_eq_ok.mpr (validKey_buildStorageKey ns u file), ?_⟩
    rw [splitOn_buildStorageKey]
    rfl
  · intro ns ns' u v file file' h
    cases h with
    | inl heq =>
      exact origin_of_prefix (by rw [heq])
    | inr hpre => exact origin_of_prefix hpre

end GraphqlOrmStorage.Rooted
