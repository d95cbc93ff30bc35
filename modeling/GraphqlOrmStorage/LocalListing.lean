import GraphqlOrmStorage.Local
import GraphqlOrmStorage.Paging

/-!
# Listing the local blob store

`collect_blob_page` walks the tree with a stack and meets the files in the order
of their paths, compared name by name. A continuation token is compared with the
whole key as a string. The walk is shown to return the visible keys in path
order, cut off at the limit; the loop over pages is then an instance of draining
a list with tokens, and loses or repeats a key exactly where the two orders
disagree at a page boundary.
-/
namespace GraphqlOrmStorage.Local

open Text Program FileTree

/-! ### The tree below a path -/

/-- The entries of a directory in the order the walk visits them. -/
def children (t : FileTree) (p : Path) : List Path :=
  ((t.entries.map Prod.fst).filter fun q => q.dropLast = p).insertionSort (· ≤ ·)

/-- Everything that lies strictly below a path. -/
def strictlyBelow (t : FileTree) (p : Path) : List Path :=
  (t.entries.map Prod.fst).filter fun q => p <+: q ∧ q ≠ p

/-- The steps a walk needs for a path and what is below it. -/
def walkWork (t : FileTree) (p : Path) : ℕ := (strictlyBelow t p).length + 1

/-- The regular files at or below a path, in path order. -/
def filesBelow (t : FileTree) (p : Path) : List Path :=
  ((t.entries.map Prod.fst).filter fun q => p <+: q ∧ (t.files q).isSome).insertionSort (· ≤ ·)

/-- Neither internal nor temporary. -/
def isVisible (p : Path) : Bool := !isInternalStoragePath p && !isUploadingTempFile p

/-- The keys of the visible files at or below a path, in path order. -/
def visibleKeys (t : FileTree) (p : Path) : List Str :=
  ((filesBelow t p).filter isVisible).map keyForPath

section Tree

variable {t : FileTree} {p q c : Path}

theorem mem_paths_iff : p ∈ t.entries.map Prod.fst ↔ p ≠ [] ∧ t.lookup p ≠ none := by
  constructor
  · intro h
    obtain ⟨⟨q, n⟩, he, rfl⟩ := List.mem_map.mp h
    obtain ⟨hne, hl⟩ := (t.mem_entries_iff q n).mp he
    exact ⟨hne, by simp [hl]⟩
  · rintro ⟨hne, hl⟩
    obtain ⟨n, hn⟩ := Option.ne_none_iff_exists'.mp hl
    exact List.mem_map.mpr ⟨(p, n), (t.mem_entries_iff p n).mpr ⟨hne, hn⟩, rfl⟩

theorem mem_children : c ∈ children t p ↔ ∃ name, c = p ++ [name] ∧ t.lookup c ≠ none := by
  simp only [children, List.mem_insertionSort, List.mem_filter, mem_paths_iff, decide_eq_true_eq]
  constructor
  · rintro ⟨⟨hne, hl⟩, rfl⟩
    exact ⟨c.getLast hne, (List.dropLast_append_getLast hne).symm, hl⟩
  · rintro ⟨name, rfl, hl⟩
    exact ⟨⟨by simp, hl⟩, by simp⟩

theorem mem_strictlyBelow :
    q ∈ strictlyBelow t p ↔ t.lookup q ≠ none ∧ ∃ name rest, q = p ++ name :: rest := by
  simp only [strictlyBelow, List.mem_filter, mem_paths_iff, decide_eq_true_eq]
  constructor
  · rintro ⟨⟨_, hl⟩, ⟨rest, rfl⟩, hne⟩
    cases rest with
    | nil => simp at hne
    | cons name rest => exact ⟨hl, name, rest, rfl⟩
  · rintro ⟨hl, name, rest, rfl⟩
    exact ⟨⟨by simp, hl⟩, List.prefix_append _ _, by simp⟩

theorem mem_filesBelow : q ∈ filesBelow t p ↔ p <+: q ∧ t.files q ≠ none := by
  simp only [filesBelow, List.mem_insertionSort, List.mem_filter, mem_paths_iff, decide_eq_true_eq,
    Option.isSome_iff_ne_none]
  constructor
  · exact fun h => h.2
  · rintro ⟨hp, hf⟩
    refine ⟨⟨?_, ?_⟩, hp, hf⟩
    · rintro rfl; exact hf (files_nil t)
    · exact fun hl => hf (files_of_lookup_none hl)

theorem nodup_children (t : FileTree) (p : Path) : (children t p).Nodup :=
  (List.perm_insertionSort _ _).nodup_iff.mpr (t.nodup.filter _)

theorem nodup_strictlyBelow (t : FileTree) (p : Path) : (strictlyBelow t p).Nodup :=
  t.nodup.filter _

theorem nodup_filesBelow (t : FileTree) (p : Path) : (filesBelow t p).Nodup :=
  (List.perm_insertionSort _ _).nodup_iff.mpr (t.nodup.filter _)

theorem pairwise_filesBelow (t : FileTree) (p : Path) : (filesBelow t p).Pairwise (· ≤ ·) :=
  List.pairwise_insertionSort _ _

/-- The files that pass a test are the same if the trees agree where it is passed. -/
theorem filter_filesBelow {t t' : FileTree} {P : Path → Bool}
    (h : ∀ q, P q = true → t'.files q = t.files q) (path : Path) :
    (filesBelow t' path).filter P = (filesBelow t path).filter P := by
  have hanti : ∀ a b : Path, a ∈ (filesBelow t' path).filter P →
      b ∈ (filesBelow t path).filter P → a ≤ b → b ≤ a → a = b :=
    fun a b _ _ hab hba => le_antisymm hab hba
  refine List.Perm.eq_of_pairwise hanti ?_ ?_ ?_
  · exact (pairwise_filesBelow t' path).sublist List.filter_sublist
  · exact (pairwise_filesBelow t path).sublist List.filter_sublist
  · rw [List.perm_ext_iff_of_nodup ((nodup_filesBelow t' path).filter _)
      ((nodup_filesBelow t path).filter _)]
    intro q
    simp only [List.mem_filter, mem_filesBelow]
    constructor
    · rintro ⟨⟨hp, hq⟩, hP⟩
      exact ⟨⟨hp, by rwa [← h q hP]⟩, hP⟩
    · rintro ⟨⟨hp, hq⟩, hP⟩
      exact ⟨⟨hp, by rwa [h q hP]⟩, hP⟩

/-- Distinct children have nothing below them in common. -/
theorem child_unique {c' : Path} (hc : c ∈ children t p) (hc' : c' ∈ children t p)
    (h : c <+: q) (h' : c' <+: q) : c = c' := by
  obtain ⟨name, rfl, _⟩ := mem_children.mp hc
  obtain ⟨name', rfl, _⟩ := mem_children.mp hc'
  exact (List.prefix_of_prefix_length_le h h' (by simp)).eq_of_length (by simp)

/-- An existing path below `p` leads through a child of `p`. -/
theorem child_of_below {name : Str} {rest : Path} (h : t.lookup (p ++ name :: rest) ≠ none) :
    p ++ [name] ∈ children t p := by
  refine mem_children.mpr ⟨name, rfl, ?_⟩
  by_cases hr : rest = []
  · rwa [hr] at h
  · obtain ⟨n, hn⟩ := Option.ne_none_iff_exists'.mp h
    have hsplit : p ++ name :: rest = (p ++ [name]) ++ rest := by simp
    rw [hsplit] at hn
    simp [lookup_ancestor hr hn]

/-- What is strictly below a path: its children and what is strictly below them. -/
theorem strictlyBelow_perm (t : FileTree) (p : Path) :
    (strictlyBelow t p).Perm ((children t p).flatMap fun c => c :: strictlyBelow t c) := by
  have hblock : ∀ c q : Path, q ∈ c :: strictlyBelow t c → c <+: q := by
    intro c q hq
    rcases List.mem_cons.mp hq with rfl | hq
    · exact List.prefix_rfl
    · obtain ⟨_, name, rest, rfl⟩ := mem_strictlyBelow.mp hq
      exact List.prefix_append _ _
  have hnodup : ((children t p).flatMap fun c => c :: strictlyBelow t c).Nodup := by
    refine List.nodup_flatMap.mpr ⟨fun c _ => ?_, ?_⟩
    · refine List.nodup_cons.mpr ⟨fun hm => ?_, nodup_strictlyBelow t c⟩
      obtain ⟨_, name, rest, he⟩ := mem_strictlyBelow.mp hm
      simpa using congrArg List.length he
    · refine (nodup_children t p).imp_of_mem fun {a b} ha hb hab q hqa hqb => ?_
      exact hab (child_unique ha hb (hblock a q hqa) (hblock b q hqb))
  refine (List.perm_ext_iff_of_nodup (nodup_strictlyBelow t p) hnodup).mpr fun q => ?_
  rw [mem_strictlyBelow, List.mem_flatMap]
  constructor
  · rintro ⟨hl, name, rest, rfl⟩
    refine ⟨p ++ [name], child_of_below hl, ?_⟩
    cases rest with
    | nil => exact List.mem_cons_self
    | cons name' rest =>
      exact List.mem_cons_of_mem _ (mem_strictlyBelow.mpr ⟨hl, name', rest, by simp⟩)
  · rintro ⟨c, hc, hq⟩
    obtain ⟨name, rfl, hl⟩ := mem_children.mp hc
    rcases List.mem_cons.mp hq with rfl | hq
    · exact ⟨hl, name, [], rfl⟩
    · obtain ⟨hlq, name', rest, rfl⟩ := mem_strictlyBelow.mp hq
      exact ⟨hlq, name, name' :: rest, by simp⟩

theorem walkWork_le (t : FileTree) (p : Path) : walkWork t p ≤ t.entries.length + 1 := by
  have hlen := List.length_filter_le (fun q => decide (p <+: q ∧ q ≠ p)) (t.entries.map Prod.fst)
  rw [List.length_map] at hlen
  exact Nat.succ_le_succ hlen

theorem walkWork_eq (t : FileTree) (p : Path) :
    walkWork t p = ((children t p).map (walkWork t)).sum + 1 := by
  rw [walkWork, (strictlyBelow_perm t p).length_eq, List.length_flatMap]
  rfl

/-- Paths that part at a smaller name are smaller. -/
theorem append_lt_append {a b : Str} (h : a < b) (p r r' : Path) : p ++ a :: r < p ++ b :: r' :=
  List.append_left_lt (List.Lex.rel h)

/-- The files below a directory are those below its children, one child after the other. -/
theorem filesBelow_dir (hp : t.lookup p = some .dir) :
    filesBelow t p = (children t p).flatMap (filesBelow t) := by
  have hsorted : ((children t p).flatMap (filesBelow t)).Pairwise (· ≤ ·) := by
    refine List.pairwise_flatMap.mpr ⟨fun c _ => pairwise_filesBelow t c, ?_⟩
    have hle : (children t p).Pairwise (· ≤ ·) := List.pairwise_insertionSort _ _
    refine (hle.and (nodup_children t p)).imp_of_mem fun {a b} ha hb hab x hx y hy => ?_
    obtain ⟨na, rfl, _⟩ := mem_children.mp ha
    obtain ⟨nb, rfl, _⟩ := mem_children.mp hb
    obtain ⟨⟨rx, rfl⟩, _⟩ := mem_filesBelow.mp hx
    obtain ⟨⟨ry, rfl⟩, _⟩ := mem_filesBelow.mp hy
    have hne : na ≠ nb := fun he => hab.2 (by rw [he])
    have hlt : na < nb := by
      rcases lt_trichotomy na nb with h | h | h
      · exact h
      · exact absurd h hne
      · exact absurd (append_lt_append h p [] []) (not_lt.mpr hab.1)
    simpa using (append_lt_append hlt p rx ry).le
  have hnodup : ((children t p).flatMap (filesBelow t)).Nodup := by
    refine List.nodup_flatMap.mpr ⟨fun c _ => nodup_filesBelow t c, ?_⟩
    refine (nodup_children t p).imp_of_mem fun {a b} ha hb hab q hqa hqb => ?_
    exact hab (child_unique ha hb (mem_filesBelow.mp hqa).1 (mem_filesBelow.mp hqb).1)
  have hperm : (filesBelow t p).Perm ((children t p).flatMap (filesBelow t)) := by
    refine (List.perm_ext_iff_of_nodup (nodup_filesBelow t p) hnodup).mpr fun q => ?_
    rw [mem_filesBelow, List.mem_flatMap]
    constructor
    · rintro ⟨⟨rest, rfl⟩, hf⟩
      have hl : t.lookup (p ++ rest) ≠ none := fun hl => hf (files_of_lookup_none hl)
      cases rest with
      | nil =>
        rw [List.append_nil] at hf
        exact absurd (files_of_lookup_dir hp) hf
      | cons name rest =>
        exact ⟨_, child_of_below hl, mem_filesBelow.mpr ⟨⟨rest, by simp⟩, hf⟩⟩
    · rintro ⟨c, hc, hq⟩
      obtain ⟨name, rfl, _⟩ := mem_children.mp hc
      obtain ⟨hpre, hf⟩ := mem_filesBelow.mp hq
      exact ⟨(List.prefix_append p [name]).trans hpre, hf⟩
  exact hperm.eq_of_pairwise' (pairwise_filesBelow t p) hsorted

/-- Nothing is below a file but the file itself. -/
theorem filesBelow_file (hp : t.files p ≠ none) : filesBelow t p = [p] := by
  apply List.perm_singleton.mp
  refine (List.perm_ext_iff_of_nodup (nodup_filesBelow t p) (List.nodup_singleton p)).mpr fun q => ?_
  rw [mem_filesBelow, List.mem_singleton]
  constructor
  · rintro ⟨⟨rest, rfl⟩, hf⟩
    by_contra hne
    have hr : rest ≠ [] := fun he => hne (by rw [he, List.append_nil])
    obtain ⟨n, hn⟩ := Option.ne_none_iff_exists'.mp fun hl => hf (files_of_lookup_none hl)
    exact hp (files_of_lookup_dir (lookup_ancestor hr hn))
  · rintro rfl
    exact ⟨List.prefix_rfl, hp⟩

theorem filesBelow_none (hp : t.lookup p = none) : filesBelow t p = [] := by
  apply List.eq_nil_iff_forall_not_mem.mpr
  intro q hq
  obtain ⟨⟨rest, rfl⟩, hf⟩ := mem_filesBelow.mp hq
  obtain ⟨n, hn⟩ := Option.ne_none_iff_exists'.mp fun hl => hf (files_of_lookup_none hl)
  by_cases hr : rest = []
  · rw [hr, List.append_nil, hp] at hn
    cases hn
  · rw [lookup_ancestor hr hn] at hp
    cases hp

end Tree

/-! ### The walk -/

theorem isInternalStoragePath_of_prefix {p q : Path} (h : p <+: q)
    (hp : isInternalStoragePath p = true) : isInternalStoragePath q = true := by
  obtain ⟨rest, rfl⟩ := h
  cases p with
  | nil => simp [isInternalStoragePath] at hp
  | cons c p => simpa [isInternalStoragePath] using hp

theorem visibleKeys_internal (t : FileTree) {p : Path} (h : isInternalStoragePath p = true) :
    visibleKeys t p = [] := by
  have hnone : (filesBelow t p).filter isVisible = [] := by
    apply List.filter_eq_nil_iff.mpr
    intro q hq
    simp [isVisible, isInternalStoragePath_of_prefix (mem_filesBelow.mp hq).1 h]
  rw [visibleKeys, hnone, List.map_nil]

theorem visibleKeys_dir {t : FileTree} {p : Path} (h : t.lookup p = some .dir) :
    visibleKeys t p = (children t p).flatMap (visibleKeys t) := by
  simp only [visibleKeys, filesBelow_dir h, List.filter_flatMap, List.map_flatMap]
  rfl

theorem visibleKeys_file {t : FileTree} {p : Path} (h : t.files p ≠ none) :
    visibleKeys t p = if isVisible p then [keyForPath p] else [] := by
  rw [visibleKeys, filesBelow_file h]
  split_ifs with hv <;> simp [hv]

theorem sortedChildPaths_dir (now : ℤ) {t : FileTree} {p : Path} (h : t.lookup p = some .dir) :
    FsM.run now (sortedChildPaths p) t = (.ok (children t p), t) := by
  simp [sortedChildPaths, readDir, h, children]

theorem after_singleton (token : Option Str) (key : Str) :
    Paging.after token [key] = if token.any fun x => key ≤ x then [] else [key] := by
  cases token with
  | none => rfl
  | some x =>
    by_cases h : key ≤ x
    · simp [Paging.after, h]
    · simp [Paging.after, h, not_le.mp h]

theorem after_append (token : Option Str) (xs ys : List Str) :
    Paging.after token (xs ++ ys) = Paging.after token xs ++ Paging.after token ys :=
  List.filter_append ..

/-- The walk over a stack of existing paths appends the visible keys after the token that
are at or below them, up to the limit. -/
theorem collectLoop_spec (now : ℤ) (t : FileTree) (token : Option Str) (limit fuel : ℕ)
    (stack : List Path) (page : List Str) (hstack : ∀ p ∈ stack, t.lookup p ≠ none)
    (hfuel : (stack.map (walkWork t)).sum ≤ fuel) (hpage : page.length ≤ limit) :
    FsM.run now (collectLoop token limit fuel stack page) t =
      (.ok ((page ++ Paging.after token (stack.flatMap (visibleKeys t))).take limit), t) := by
  induction fuel generalizing stack page with
  | zero =>
    cases stack with
    | nil => simp [collectLoop, Paging.after, List.take_of_length_le hpage]
    | cons p stack =>
      simp only [List.map_cons, List.sum_cons, walkWork] at hfuel
      omega
  | succ fuel ih =>
    cases stack with
    | nil => simp [collectLoop, Paging.after, List.take_of_length_le hpage]
    | cons p stack =>
      have hrest : ∀ q ∈ stack, t.lookup q ≠ none := fun q hq => hstack q (List.mem_cons_of_mem _ hq)
      simp only [List.map_cons, List.sum_cons] at hfuel
      have hwork : 1 ≤ walkWork t p := by unfold walkWork; omega
      by_cases hfull : page.length = limit
      · -- The page is full, so what is left on the stack does not matter.
        simp [collectLoop, ← hfull]
      by_cases hint : isInternalStoragePath p = true
      · simp only [collectLoop, if_neg hfull, if_pos hint, List.flatMap_cons,
          visibleKeys_internal t hint, List.nil_append]
        exact ih stack page hrest (by omega) hpage
      simp only [collectLoop, if_neg hfull, if_neg hint, Prog.bind_eq_bind, FsM.run_bind,
        Fs.run_metadata]
      rcases hl : t.lookup p with _ | (_ | ⟨content, modified⟩)
      · exact absurd hl (hstack p List.mem_cons_self)
      · simp only [metadata_eq_ok.mpr hl, FsM.run_bind, sortedChildPaths_dir now hl]
        rw [ih, List.flatMap_append, ← visibleKeys_dir hl, List.flatMap_cons]
        · intro q hq
          rcases List.mem_append.mp hq with hq | hq
          · obtain ⟨_, _, hlq⟩ := mem_children.mp hq
            exact hlq
          · exact hrest q hq
        · rw [List.map_append, List.sum_append]
          rw [walkWork_eq] at hfuel
          omega
        · exact hpage
      · have hf : t.files p ≠ none := by rw [files_eq_some.mpr ⟨modified, hl⟩]; simp
        simp only [metadata_eq_ok.mpr hl, List.flatMap_cons, after_append, visibleKeys_file hf]
        by_cases hup : isUploadingTempFile p = true
        · rw [if_pos hup, ih stack page hrest (by omega) hpage]
          simp [isVisible, hup, Paging.after]
        by_cases htok : token.any (fun x => keyForPath p ≤ x) = true
        · rw [if_neg hup, if_pos htok, ih stack page hrest (by omega) hpage]
          simp [isVisible, hint, hup, after_singleton, htok]
        · rw [if_neg hup, if_neg htok, ih stack _ hrest (by omega) (by simp; omega)]
          simp [isVisible, hint, hup, after_singleton, htok]

/-- A start that is not there lists nothing. -/
theorem collectLoop_missing (now : ℤ) {t : FileTree} {p : Path} (hl : t.lookup p = none)
    (herr : isInternalStoragePath p = true ∨ t.resolveError p = .notFound) (token : Option Str)
    (limit : ℕ) {fuel : ℕ} (hfuel : 0 < fuel) : FsM.run now (collectLoop token limit fuel [p] []) t = (.ok [], t) := by
  obtain ⟨fuel, rfl⟩ : ∃ k, fuel = k + 1 := ⟨fuel - 1, by omega⟩
  simp only [collectLoop]
  by_cases hfull : ([] : List Str).length = limit
  · rw [if_pos hfull]
    rfl
  by_cases hint : isInternalStoragePath p = true
  · rw [if_neg hfull, if_pos hint]
    rfl
  · have hmeta : t.metadata p = .error .notFound := by
      simp only [FileTree.metadata, hl, herr.resolve_left hint]
    rw [if_neg hfull, if_neg hint]
    simp only [Prog.bind_eq_bind, FsM.run_bind, Fs.run_metadata, hmeta]
    rfl

/-- A valid key is read back from its path. -/
theorem keyForPath_splitOn {key : Str} (h : ValidKey key) : keyForPath (key.splitOn '/') = key := by
  rw [keyForPath, List.intercalate_splitOn]
  refine (List.map_congr_left fun c hc => ?_).trans (List.map_id key)
  have hne : c ≠ '\\' := by rintro rfl; exact h.1 hc
  simp [hne]

/-- The path a listing starts at. -/
def startPath (pre : Str) : Path := if pre = [] then [] else relativePath pre

/-- The start exists, or it is missing or internal and lists nothing. -/
def StartResolves (t : FileTree) (pre : Str) : Prop :=
  t.lookup (startPath pre) ≠ none ∨ isInternalStoragePath (startPath pre) = true ∨
    t.resolveError (startPath pre) = .notFound

theorem collectBlobPage_spec (now : ℤ) {t : FileTree} {pre : Str}
    (hpre : validateBlobPrefix pre = .ok ()) (hstart : StartResolves t pre) (token : Option Str)
    {limit fuel : ℕ} (hcap : stringSize * limit ≤ isizeMax) (hfuel : t.entries.length < fuel) :
    FsM.run now (collectBlobPage fuel pre token limit) t =
      (.ok ((Paging.after token (visibleKeys t (startPath pre))).take limit), t) := by
  simp only [collectBlobPage, hpre, if_neg (not_lt.mpr hcap)]
  show FsM.run now (collectLoop token limit fuel [startPath pre] []) t = _
  by_cases hl : t.lookup (startPath pre) = none
  · have herr := hstart.resolve_left (fun h => h hl)
    have hempty : visibleKeys t (startPath pre) = [] := by
      rw [visibleKeys, filesBelow_none hl]
      rfl
    rw [collectLoop_missing now hl herr token limit (by omega), hempty, Paging.after,
      List.filter_nil, List.take_nil]
  · have hwork := (walkWork_le t (startPath pre)).trans hfuel
    rw [collectLoop_spec now t token limit fuel [startPath pre] [] (by simpa using hl)
      (by simpa using hwork) (Nat.zero_le _)]
    simp

/-- How the walk can end: the page cannot be allocated, the start cannot be looked up, or the
first keys after the token are returned. -/
theorem collectBlobPage_cases (now : ℤ) {t : FileTree} {pre : Str}
    (hpre : validateBlobPrefix pre = .ok ()) (token : Option Str) (limit : ℕ) {fuel : ℕ}
    (hfuel : t.entries.length < fuel) :
    let r := FsM.run now (collectBlobPage fuel pre token limit) t
    (isizeMax < stringSize * limit ∧ r = (.error .panic, t)) ∨
    (t.lookup (startPath pre) = none ∧ ∃ e, r = (.error (.error e), t)) ∨
    (stringSize * limit ≤ isizeMax ∧ (StartResolves t pre ∨ limit = 0) ∧
      r = (.ok ((Paging.after token (visibleKeys t (startPath pre))).take limit), t)) := by
  intro r
  by_cases hcap : isizeMax < stringSize * limit
  · left
    refine ⟨hcap, ?_⟩
    simp only [r, collectBlobPage, hpre, if_pos hcap]
    rfl
  right
  by_cases hstart : StartResolves t pre
  · right
    exact ⟨not_lt.mp hcap, Or.inl hstart,
      collectBlobPage_spec now hpre hstart token (not_lt.mp hcap) hfuel⟩
  · simp only [StartResolves, not_or, not_not] at hstart
    obtain ⟨hl, hint, herr⟩ := hstart
    obtain ⟨fuel, rfl⟩ : ∃ n, fuel = n + 1 := ⟨fuel - 1, by omega⟩
    have hrun : r = FsM.run now (collectLoop token limit (fuel + 1) [startPath pre] []) t := by
      simp only [r, collectBlobPage, hpre, if_neg hcap]
      rfl
    by_cases hzero : limit = 0
    · -- The loop is left before the start is looked at.
      right
      rw [hrun, hzero]
      exact ⟨by omega, Or.inr rfl, rfl⟩
    · left
      have hroom : ([] : List Str).length ≠ limit := Ne.symm hzero
      rw [hrun, collectLoop, if_neg hroom, if_neg hint]
      simp only [Prog.bind_eq_bind, FsM.run_bind, Fs.run_metadata, FileTree.metadata, hl]
      exact ⟨trivial, _, rfl⟩

/-- One page: the first keys after the token, and the last of them when there are more. -/
theorem listBlobsPage_spec (now : ℤ) {t : FileTree} {pre : Str}
    (hpre : validateBlobPrefix pre = .ok ()) (hstart : StartResolves t pre) (token : Option Str)
    {limit fuel : ℕ} (hlimit : 1 ≤ limit) (hcap : stringSize * (limit + 1) ≤ isizeMax)
    (hfuel : t.entries.length < fuel) :
    FsM.run now (listBlobsPage fuel pre token limit) t =
      (.ok ⟨(Paging.after token (visibleKeys t (startPath pre))).take limit,
        Paging.nextToken limit (Paging.after token (visibleKeys t (startPath pre)))⟩, t) := by
  have hwrap : (limit + 1) % 2 ^ 64 = limit + 1 := by
    apply Nat.mod_eq_of_lt
    simp only [stringSize, isizeMax] at hcap
    omega
  simp only [listBlobsPage, if_neg (show limit ≠ 0 by omega), hwrap, Prog.bind_eq_bind,
    FsM.run_bind, collectBlobPage_spec now hpre hstart token hcap hfuel]
  generalize Paging.after token (visibleKeys t (startPath pre)) = left
  by_cases hmore : limit < left.length
  · simp [List.take_take, Paging.nextToken, hmore]
  · simp [Paging.nextToken, hmore, List.take_of_length_le (show left.length ≤ limit by omega),
      List.take_of_length_le (show left.length ≤ limit + 1 by omega)]

/-- The loop over pages drains the visible keys. -/
theorem drainPages_spec (now : ℤ) {t : FileTree} {pre : Str}
    (hpre : validateBlobPrefix pre = .ok ()) (hstart : StartResolves t pre) {limit walkFuel : ℕ}
    (hlimit : 1 ≤ limit) (hcap : stringSize * (limit + 1) ≤ isizeMax)
    (hwalk : t.entries.length < walkFuel) (fuel : ℕ) (token : Option Str) (keys : List Str) :
    (FsM.run now (drainPages walkFuel pre limit fuel token keys) t).1 =
      match Paging.drain (visibleKeys t (startPath pre)) limit fuel token with
      | some ks => .ok (keys ++ ks)
      | none => .error .outOfFuel := by
  induction fuel generalizing token keys with
  | zero => rfl
  | succ fuel ih =>
    simp only [drainPages, Prog.bind_eq_bind, FsM.run_bind,
      listBlobsPage_spec now hpre hstart token hlimit hcap hwalk, Paging.drain]
    cases hn : Paging.nextToken limit (Paging.after token (visibleKeys t (startPath pre))) with
    | none => rfl
    | some x =>
      simp only [ih]
      cases Paging.drain (visibleKeys t (startPath pre)) limit fuel (some x) <;> simp

/-! ### Exactness -/

/-- The loop over pages ends with these keys, whatever bound beyond some number it is given. -/
def DrainsTo (now : ℤ) (t : FileTree) (pre : Str) (limit : ℕ) (ks : List Str) : Prop :=
  ∃ bound, ∀ fuel, bound ≤ fuel →
    (FsM.run now (drainPages fuel pre limit fuel none []) t).1 = .ok ks

/-- Draining pages of this size returns each of the keys exactly once. -/
def DrainsExactly (now : ℤ) (t : FileTree) (pre : Str) (limit : ℕ) (keys : List Str) : Prop :=
  ∃ ks, DrainsTo now t pre limit ks ∧ ks.Nodup ∧ ks.Perm keys

/-- At every boundary between pages the string order separates the keys before it, the last
of which is the token, from the keys after it. -/
def BoundariesCut (keys : List Str) (limit : ℕ) : Prop :=
  ∀ j, 0 < j → j * limit < keys.length → Paging.CutAt keys (j * limit)

theorem drainsTo_iff (now : ℤ) {t : FileTree} {pre : Str} (hpre : validateBlobPrefix pre = .ok ())
    (hstart : StartResolves t pre) {limit : ℕ} (hlimit : 1 ≤ limit)
    (hcap : stringSize * (limit + 1) ≤ isizeMax) (ks : List Str) :
    DrainsTo now t pre limit ks ↔
      ∃ fuel, Paging.drain (visibleKeys t (startPath pre)) limit fuel none = some ks := by
  constructor
  · rintro ⟨bound, h⟩
    have hrun := h (max bound (t.entries.length + 1)) (le_max_left _ _)
    rw [drainPages_spec now hpre hstart hlimit hcap (by omega)] at hrun
    refine ⟨max bound (t.entries.length + 1), ?_⟩
    cases hd : Paging.drain (visibleKeys t (startPath pre)) limit
        (max bound (t.entries.length + 1)) none with
    | none => simp [hd] at hrun
    | some ks' => simpa [hd] using hrun
  · rintro ⟨fuel, h⟩
    refine ⟨max fuel (t.entries.length + 1), fun fuel' hfuel => ?_⟩
    rw [drainPages_spec now hpre hstart hlimit hcap (by omega),
      Paging.drain_mono (by omega : fuel ≤ fuel') h]
    simp

/-- A page whose allocation is too large panics. -/
theorem listBlobsPage_panics (now : ℤ) (t : FileTree) {pre : Str}
    (hpre : validateBlobPrefix pre = .ok ()) (token : Option Str) {limit : ℕ} (hlimit : 1 ≤ limit)
    (hwrap : limit + 1 < 2 ^ 64) (hcap : isizeMax < stringSize * (limit + 1)) (fuel : ℕ) :
    (FsM.run now (listBlobsPage fuel pre token limit) t).1 = .error .panic := by
  have hcollect : collectBlobPage fuel pre token (limit + 1) = .ret (.error .panic) := by
    simp only [collectBlobPage, hpre, if_pos hcap, Prog.pure_eq_ret]
  rw [listBlobsPage, if_neg (show limit ≠ 0 by omega), Nat.mod_eq_of_lt hwrap, hcollect]
  rfl

theorem not_drainsTo_of_capacity (now : ℤ) (t : FileTree) {pre : Str}
    (hpre : validateBlobPrefix pre = .ok ()) {limit : ℕ} (hlimit : 1 ≤ limit)
    (hwrap : limit + 1 < 2 ^ 64) (hcap : isizeMax < stringSize * (limit + 1)) (ks : List Str) :
    ¬ DrainsTo now t pre limit ks := by
  rintro ⟨bound, h⟩
  have hrun := h (bound + 1) (by omega)
  simp only [drainPages, Prog.bind_eq_bind, FsM.run_bind,
    listBlobsPage_panics now t hpre none hlimit hwrap hcap] at hrun
  cases hrun

theorem drainsExactly_iff (now : ℤ) {t : FileTree} {pre : Str}
    (hpre : validateBlobPrefix pre = .ok ()) (hstart : StartResolves t pre) {limit : ℕ}
    (hlimit : 1 ≤ limit) (hwrap : limit + 1 < 2 ^ 64) :
    DrainsExactly now t pre limit (visibleKeys t (startPath pre)) ↔
      stringSize * (limit + 1) ≤ isizeMax ∧ (visibleKeys t (startPath pre)).Nodup ∧
        BoundariesCut (visibleKeys t (startPath pre)) limit := by
  by_cases hcap : stringSize * (limit + 1) ≤ isizeMax
  · have hpaging := Paging.drain_exact_iff hlimit (visibleKeys t (startPath pre))
    simp only [DrainsExactly, drainsTo_iff now hpre hstart hlimit hcap, hcap, true_and]
    rw [BoundariesCut, ← hpaging]
    constructor
    · rintro ⟨ks, ⟨fuel, h⟩, hk⟩
      exact ⟨fuel, ks, h, hk⟩
    · rintro ⟨fuel, ks, h, hk⟩
      exact ⟨ks, ⟨fuel, h⟩, hk⟩
  · constructor
    · rintro ⟨ks, h, _⟩
      exact absurd h (not_drainsTo_of_capacity now t hpre hlimit hwrap (by omega) ks)
    · rintro ⟨h, _⟩
      exact absurd h hcap

/-- When a page is returned, it could be allocated and the start resolved. -/
theorem of_listBlobsPage_ok {now : ℤ} {t : FileTree} {pre : Str}
    (hpre : validateBlobPrefix pre = .ok ()) {limit fuel : ℕ} (hlimit : 1 ≤ limit)
    (hwrap : limit + 1 < 2 ^ 64) (hfuel : t.entries.length < fuel) {page : BlobListPage}
    (h : (FsM.run now (listBlobsPage fuel pre none limit) t).1 = .ok page) :
    stringSize * (limit + 1) ≤ isizeMax ∧ StartResolves t pre := by
  simp only [listBlobsPage, if_neg (show limit ≠ 0 by omega), Nat.mod_eq_of_lt hwrap,
    Prog.bind_eq_bind, FsM.run_bind] at h
  rcases collectBlobPage_cases now hpre none (limit + 1) hfuel with
    ⟨_, hr⟩ | ⟨_, e, hr⟩ | ⟨hcap, hstart, _⟩
  · rw [hr] at h
    cases h
  · rw [hr] at h
    cases h
  · exact ⟨hcap, hstart.resolve_right (by omega)⟩

/-- The number of regular files below the root. -/
def fileCount (t : FileTree) : ℕ := (filesBelow t []).length

theorem length_visibleKeys_le (t : FileTree) (p : Path) : (visibleKeys t p).length ≤ fileCount t := by
  have hsub : (filesBelow t p).Subset (filesBelow t []) := fun q hq =>
    mem_filesBelow.mpr ⟨List.nil_prefix, (mem_filesBelow.mp hq).2⟩
  calc (visibleKeys t p).length ≤ (filesBelow t p).length := by
        rw [visibleKeys, List.length_map]; exact List.length_filter_le _ _
    _ ≤ fileCount t := ((nodup_filesBelow t p).subperm hsub).length_le

/-- For a tree on which one call with a limit above the number of files succeeds: that call
returns the visible keys in path order, and draining pages of `limit` keys returns each of
them exactly once if and only if a page can be allocated, the keys are distinct and the
string order cuts them at every page boundary. `list_blobs` is the case of a thousand. -/
theorem local_paging_exact_iff (now : ℤ) (t : FileTree) (pre : Str)
    (hpre : validateBlobPrefix pre = .ok ()) (limit : ℕ) (hlimit : 1 ≤ limit)
    (hwrap : limit + 1 < 2 ^ 64) (big fuel : ℕ) (hbig : fileCount t < big)
    (hbigWrap : big + 1 < 2 ^ 64) (hfuel : t.entries.length < fuel) (page : BlobListPage)
    (hone : (FsM.run now (listBlobsPage fuel pre none big) t).1 = .ok page) :
    page = ⟨visibleKeys t (startPath pre), none⟩ ∧
    (DrainsExactly now t pre limit page.keys ↔
      stringSize * (limit + 1) ≤ isizeMax ∧ (visibleKeys t (startPath pre)).Nodup ∧
        BoundariesCut (visibleKeys t (startPath pre)) limit) ∧
    ((∃ ks bound, (∀ fuel, bound ≤ fuel → (FsM.run now (listBlobs fuel pre) t).1 = .ok ks) ∧
        ks.Nodup ∧ ks.Perm page.keys) ↔
      (visibleKeys t (startPath pre)).Nodup ∧
        BoundariesCut (visibleKeys t (startPath pre)) 1000) := by
  obtain ⟨hcap, hstart⟩ := of_listBlobsPage_ok hpre (by omega) hbigWrap hfuel hone
  have hlen := length_visibleKeys_le t (startPath pre)
  have hpage : page = ⟨visibleKeys t (startPath pre), none⟩ := by
    rw [listBlobsPage_spec now hpre hstart none (by omega) hcap hfuel] at hone
    rw [← Except.ok.inj hone, Paging.after_none, List.take_of_length_le (by omega),
      Paging.nextToken, if_neg (by omega)]
  have hthousand := drainsExactly_iff now hpre hstart (show 1 ≤ 1000 by omega) (by omega)
  refine ⟨hpage, ?_, ?_⟩
  · rw [hpage]
    exact drainsExactly_iff now hpre hstart hlimit hwrap
  · rw [hpage]
    have hok : stringSize * (1000 + 1) ≤ isizeMax := by decide
    refine Iff.trans ⟨?_, ?_⟩ (hthousand.trans (and_iff_right hok))
    · rintro ⟨ks, bound, h, hk⟩
      exact ⟨ks, ⟨bound, h⟩, hk⟩
    · rintro ⟨ks, ⟨bound, h⟩, hk⟩
      exact ⟨ks, bound, h, hk⟩

/-- A tree that holds empty files at the given paths. -/
def treeOfFiles (paths : List Path) : FileTree :=
  paths.foldl (fun t p => ((t.createDirAll p.dropLast).2.writeFile p [] 0).2)
    (FileTree.empty Limits.widest)

/-- Two files, one in a directory, listed one key a page. -/
theorem local_paging_exact_two_files :
    DrainsExactly 0 (treeOfFiles [["a".toList, "b".toList], ["c".toList]]) [] 1
      ["a/b".toList, "c".toList] := by
  have hkeys : visibleKeys (treeOfFiles [["a".toList, "b".toList], ["c".toList]]) (startPath []) =
      ["a/b".toList, "c".toList] := by decide +kernel
  have hiff := (local_paging_exact_iff 0 (treeOfFiles [["a".toList, "b".toList], ["c".toList]]) [] rfl
    1 (by omega) (by omega) 3 10 (by decide +kernel) (by omega) (by decide +kernel)
    ⟨["a/b".toList, "c".toList], none⟩ (by decide +kernel)).2.1
  rw [hkeys] at hiff
  refine hiff.mpr ⟨by decide, by decide, fun j hj hlen => ?_⟩
  obtain rfl : j = 1 := by
    simp only [Nat.mul_one, List.length_cons, List.length_nil] at hlen
    omega
  exact ⟨"a/b".toList, rfl, by decide, by decide⟩

/-- The key `a/b` is listed first and is the token of the first page, but `a.txt` is smaller
as a string, so it is never returned. -/
theorem local_paging_loses_key : ¬ ∀ (now : ℤ) (t : FileTree) (pre : Str) (limit big fuel : ℕ)
    (page : BlobListPage), validateBlobPrefix pre = .ok () → 1 ≤ limit → limit + 1 < 2 ^ 64 →
    fileCount t < big → big + 1 < 2 ^ 64 → t.entries.length < fuel →
    (FsM.run now (listBlobsPage fuel pre none big) t).1 = .ok page →
    DrainsExactly now t pre limit page.keys := by
  intro h
  have hkeys : visibleKeys (treeOfFiles [["a".toList, "b".toList], ["a.txt".toList]]) (startPath []) =
      ["a/b".toList, "a.txt".toList] := by decide +kernel
  have hexact := h 0 (treeOfFiles [["a".toList, "b".toList], ["a.txt".toList]]) [] 1 3 10
    ⟨["a/b".toList, "a.txt".toList], none⟩ rfl (by omega) (by omega) (by decide +kernel) (by omega)
    (by decide +kernel) (by decide +kernel)
  have hcuts := ((drainsExactly_iff 0 rfl (Or.inl (by decide +kernel)) (by omega) (by omega)).mp
    (hkeys ▸ hexact)).2.2
  rw [hkeys] at hcuts
  obtain ⟨x, hx, _, hlt⟩ := hcuts 1 (by omega) (by decide)
  obtain rfl : "a/b".toList = x := by simpa using hx
  exact absurd (hlt "a.txt".toList (by decide)) (by decide)

end GraphqlOrmStorage.Local
