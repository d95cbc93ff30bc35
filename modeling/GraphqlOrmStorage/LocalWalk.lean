import GraphqlOrmStorage.LocalListing

/-!
# What the local walk enumerates

The keys of a listing are described without the walk: they are the valid keys of
the files at or below the prefix that are neither temporary nor internal and come
after the token, in the order of their components. The walk gives the text that
`key_for_path` makes of each file, with slashes in the place of backslashes. It
agrees with the description exactly when no file with a backslash in its names is
among the first ones. A loop over pages ends in any case, because a token is the
text of a file and greater than the token before it.
-/
namespace GraphqlOrmStorage.Local

open Text Program FileTree

/-! ### Names without a backslash -/

/-- No name on the path has a backslash in it. -/
def isPlain (p : Path) : Bool := p.all fun name => !name.contains '\\'

theorem isPlain_iff {p : Path} : isPlain p = true ↔ ∀ name ∈ p, '\\' ∉ name := by
  simp [isPlain]

/-- The names of a file are legal. -/
theorem legal_of_files {t : FileTree} {p : Path} (h : t.files p ≠ none) :
    p ≠ [] ∧ ∀ name ∈ p, LegalName name := by
  constructor
  · rintro rfl
    exact h (files_nil t)
  · obtain ⟨n, hn⟩ := Option.ne_none_iff_exists'.mp fun hl => h (files_of_lookup_none hl)
    exact fun name hname => t.limits.legal name (accepted_of_lookup hn name hname)

/-- Legal names without a backslash are the components of a valid key. -/
theorem validKey_of_plain {p : Path} (hne : p ≠ []) (hlegal : ∀ name ∈ p, LegalName name)
    (hp : isPlain p = true) :
    ValidKey (['/'].intercalate p) ∧ (['/'].intercalate p).splitOn '/' = p := by
  have hsplit : (['/'].intercalate p).splitOn '/' = p :=
    List.splitOn_intercalate '/' (fun name h => (hlegal name h).2.2.2.1) hne
  refine ⟨⟨?_, by rwa [hsplit]⟩, hsplit⟩
  rw [mem_splitOn_iff (show '\\' ≠ '/' by decide), hsplit]
  intro h
  obtain ⟨name, hname, hmem⟩ := h
  exact isPlain_iff.mp hp name hname hmem

/-- The text of a file without a backslash in its names is the key that leads to it. -/
theorem keyForPath_plain {p : Path} (hne : p ≠ []) (hlegal : ∀ name ∈ p, LegalName name)
    (hp : isPlain p = true) : ValidKey (keyForPath p) ∧ (keyForPath p).splitOn '/' = p := by
  obtain ⟨hv, hsplit⟩ := validKey_of_plain hne hlegal hp
  have hkey : keyForPath p = ['/'].intercalate p := by
    have hback := keyForPath_splitOn hv
    rwa [hsplit] at hback
  rw [hkey]
  exact ⟨hv, hsplit⟩

theorem isPlain_splitOn {key : Str} (h : ValidKey key) : isPlain (key.splitOn '/') = true := by
  refine isPlain_iff.mpr fun name hname hmem => h.1 ?_
  exact (mem_splitOn_iff (by decide) key).mpr ⟨name, hname, hmem⟩

theorem replaceChar_of_not_mem {a b : Char} {s : Str} (h : a ∉ s) : replaceChar a b s = s := by
  refine (List.map_congr_left fun c hc => if_neg ?_).trans (List.map_id s)
  exact fun he => h (he ▸ hc)

theorem keyForPath_cons (name : Str) (p : Path) : ∃ tail, keyForPath (name :: p) =
    replaceChar '\\' '/' name ++ tail ∧ (p ≠ [] → tail = '/' :: keyForPath p) := by
  cases p with
  | nil => exact ⟨[], by simp [keyForPath], fun h => absurd rfl h⟩
  | cons d p =>
    refine ⟨'/' :: keyForPath (d :: p), ?_, fun _ => rfl⟩
    simp [keyForPath, List.intercalate_cons_cons, replaceChar]

/-- The components of the text of any other file are before its path: where they first differ,
a name has been cut at its first backslash. -/
theorem splitOn_keyForPath_lt {p : Path} (hslash : ∀ name ∈ p, '/' ∉ name)
    (h : isPlain p = false) : (keyForPath p).splitOn '/' < p := by
  induction p with
  | nil => simp [isPlain] at h
  | cons name p ih =>
    have hname : '/' ∉ name := hslash name (List.mem_cons_self ..)
    obtain ⟨tail, hkey, htail⟩ := keyForPath_cons name p
    by_cases hback : '\\' ∈ name
    · obtain ⟨front, back, rfl, hfront⟩ := List.eq_append_cons_of_mem hback
      have hslash' : '/' ∉ front := fun hm => hname (List.mem_append_left _ hm)
      have hcut : keyForPath ((front ++ '\\' :: back) :: p) =
          front ++ '/' :: (replaceChar '\\' '/' back ++ tail) := by
        have hkept := replaceChar_of_not_mem (b := '/') hfront
        rw [hkey]
        simp only [replaceChar, List.map_append, List.map_cons, if_true] at hkept ⊢
        rw [hkept]
        simp
      rw [hcut, List.splitOn_append_cons_self_of_not_mem hslash']
      have hlt : front ++ [] < front ++ '\\' :: back := List.append_left_lt (List.nil_lt_cons _ _)
      rw [List.append_nil] at hlt
      exact List.Lex.rel hlt
    · have hrest : isPlain p = false := by simpa [isPlain, hback] using h
      have hne : p ≠ [] := by
        rintro rfl
        simp [isPlain] at hrest
      rw [hkey, replaceChar_of_not_mem hback, htail hne,
        List.splitOn_append_cons_self_of_not_mem hname]
      exact List.Lex.cons (ih (fun d hd => hslash d (List.mem_cons_of_mem _ hd)) hrest)

/-! ### The keys to be listed -/

/-- A key of a file at or below the prefix, neither temporary nor internal, and after the token. -/
structure Listed (t : FileTree) (pre : Str) (token : Option Str) (key : Str) : Prop where
  valid : validateBlobKey key = .ok ()
  file : t.files (relativePath key) ≠ none
  below : startPath pre <+: relativePath key
  permanent : isUploadingTempFile (relativePath key) = false
  outside : isInternalStoragePath (relativePath key) = false
  later : ∀ x, token = some x → x < key

/-- The keys to be listed, each once, in the order of their components. -/
structure Enumerates (t : FileTree) (pre : Str) (token : Option Str) (keys : List Str) : Prop where
  mem : ∀ key, key ∈ keys ↔ Listed t pre token key
  nodup : keys.Nodup
  sorted : keys.Pairwise fun a b => relativePath a ≤ relativePath b

/-- The files whose text the walk gives when nothing stops it. -/
def givenFiles (t : FileTree) (pre : Str) (token : Option Str) : List Path :=
  (filesBelow t (startPath pre)).filter fun p => isVisible p && token.all (· < keyForPath p)

section Keys

variable {t : FileTree} {pre : Str} {token : Option Str}

theorem after_visibleKeys (t : FileTree) (pre : Str) (token : Option Str) :
    Paging.after token (visibleKeys t (startPath pre)) =
      (givenFiles t pre token).map keyForPath := by
  rw [Paging.after, visibleKeys, givenFiles, List.filter_map, List.filter_filter]
  congr 1
  apply List.filter_congr
  intro p _
  rw [Bool.eq_iff_iff]
  cases token <;> simp [and_comm]

theorem mem_givenFiles {p : Path} : p ∈ givenFiles t pre token ↔
    startPath pre <+: p ∧ t.files p ≠ none ∧ isInternalStoragePath p = false ∧
      isUploadingTempFile p = false ∧ ∀ x, token = some x → x < keyForPath p := by
  cases token <;> simp [givenFiles, mem_filesBelow, isVisible, and_assoc]

theorem sorted_givenFiles (t : FileTree) (pre : Str) (token : Option Str) :
    (givenFiles t pre token).Pairwise (· < ·) := by
  have hle := (pairwise_filesBelow t (startPath pre)).and (nodup_filesBelow t (startPath pre))
  exact (hle.imp fun h => lt_of_le_of_ne h.1 h.2).sublist List.filter_sublist

/-- The files without a backslash in their names are the ones with a key. -/
theorem listed_iff {key : Str} : Listed t pre token key ↔
    ∃ p ∈ (givenFiles t pre token).filter isPlain, keyForPath p = key := by
  constructor
  · intro h
    have hv := validateBlobKey_eq_ok.mp h.valid
    have hkey : keyForPath (relativePath key) = key := by
      rw [hv.relativePath_eq]
      exact keyForPath_splitOn hv
    refine ⟨relativePath key, List.mem_filter.mpr ⟨mem_givenFiles.mpr ?_, ?_⟩, hkey⟩
    · rw [hkey]
      exact ⟨h.below, h.file, h.outside, h.permanent, h.later⟩
    · rw [hv.relativePath_eq]
      exact isPlain_splitOn hv
  · intro h
    obtain ⟨p, hp, rfl⟩ := h
    obtain ⟨hp, hplain⟩ := List.mem_filter.mp hp
    obtain ⟨hbelow, hfile, hout, hperm, hlater⟩ := mem_givenFiles.mp hp
    obtain ⟨hne, hlegal⟩ := legal_of_files hfile
    obtain ⟨hv, hsplit⟩ := keyForPath_plain hne hlegal hplain
    have hpath : relativePath (keyForPath p) = p := by rw [hv.relativePath_eq, hsplit]
    exact ⟨validateBlobKey_eq_ok.mpr hv, by rwa [hpath], by rwa [hpath], by rwa [hpath],
      by rwa [hpath], hlater⟩

theorem enumerates_plain (t : FileTree) (pre : Str) (token : Option Str) :
    Enumerates t pre token (((givenFiles t pre token).filter isPlain).map keyForPath) := by
  have hpath : ∀ p ∈ (givenFiles t pre token).filter isPlain, relativePath (keyForPath p) = p := by
    intro p hp
    obtain ⟨hp, hplain⟩ := List.mem_filter.mp hp
    obtain ⟨hne, hlegal⟩ := legal_of_files (mem_givenFiles.mp hp).2.1
    obtain ⟨hv, hsplit⟩ := keyForPath_plain hne hlegal hplain
    rw [hv.relativePath_eq, hsplit]
  have hsorted : ((givenFiles t pre token).filter isPlain).Pairwise (· < ·) :=
    (sorted_givenFiles t pre token).sublist List.filter_sublist
  constructor
  · intro key
    rw [listed_iff, List.mem_map]
  · refine List.pairwise_map.mpr (hsorted.imp_of_mem fun {p q} hp hq hlt heq => ?_)
    have hsame := congrArg relativePath heq
    rw [hpath p hp, hpath q hq] at hsame
    exact hlt.ne hsame
  · refine List.pairwise_map.mpr (hsorted.imp_of_mem fun {p q} hp hq hlt => ?_)
    rw [hpath p hp, hpath q hq]
    exact hlt.le

/-- There is only one such list. -/
theorem Enumerates.unique {keys keys' : List Str} (h : Enumerates t pre token keys)
    (h' : Enumerates t pre token keys') : keys = keys' := by
  have hperm : keys.Perm keys' :=
    (List.perm_ext_iff_of_nodup h.nodup h'.nodup).mpr fun key => (h.mem key).trans (h'.mem key).symm
  refine hperm.eq_of_pairwise (fun a b ha hb hab hba => ?_) h.sorted h'.sorted
  have hva := validateBlobKey_eq_ok.mp ((h.mem a).mp ha).valid
  have hvb := validateBlobKey_eq_ok.mp ((h'.mem b).mp hb).valid
  have hpath := le_antisymm hab hba
  rw [hva.relativePath_eq, hvb.relativePath_eq] at hpath
  exact splitOn_injective '/' hpath

end Keys

/-! ### The walk -/

section Walk

variable {now : ℤ} {t : FileTree} {pre : Str} {token : Option Str} {limit fuel : ℕ}

/-- Every call ends, and one that returns gives the first keys to be listed. -/
def WalksInOrder (now : ℤ) (t : FileTree) (pre : Str) (token : Option Str) (limit : ℕ) : Prop :=
  ∃ keys, Enumerates t pre token keys ∧ ∃ bound, ∀ fuel, bound ≤ fuel →
    (FsM.run now (collectBlobPage fuel pre token limit) t).1 ≠ .error .outOfFuel ∧
      ∀ page, (FsM.run now (collectBlobPage fuel pre token limit) t).1 = .ok page →
        page = keys.take limit

/-- Among the first files that a walk gives, no name has a backslash in it. -/
def FirstPlain (t : FileTree) (pre : Str) (token : Option Str) (limit : ℕ) : Prop :=
  ∀ p ∈ (givenFiles t pre token).take limit, ∀ name ∈ p, '\\' ∉ name

theorem firstPlain_iff : FirstPlain t pre token limit ↔
    ((givenFiles t pre token).map keyForPath).take limit =
      (((givenFiles t pre token).filter isPlain).map keyForPath).take limit := by
  rw [Paging.take_map_filter_iff (sorted_givenFiles t pre token)]
  · exact forall₂_congr fun p _ => isPlain_iff.symm
  · intro x hx y hy hx' hy' heq
    obtain ⟨_, hfx, _⟩ := mem_givenFiles.mp hx
    obtain ⟨_, hfy, _⟩ := mem_givenFiles.mp hy
    have hlt := splitOn_keyForPath_lt (fun c hc => ((legal_of_files hfx).2 c hc).2.2.2.1) hx'
    rwa [heq, (keyForPath_plain (legal_of_files hfy).1 (legal_of_files hfy).2 hy').2] at hlt

/-- For every tree, prefix, token and limit: the walk gives the first of the keys to be listed,
in order and each once, exactly when its page cannot be allocated or no file with a backslash in
its names is among the first files. -/
theorem walks_in_order_iff (now : ℤ) (t : FileTree) (pre : Str)
    (hpre : validateBlobPrefix pre = .ok ()) (token : Option Str) (limit : ℕ) :
    WalksInOrder now t pre token limit ↔
      isizeMax < stringSize * limit ∨ FirstPlain t pre token limit := by
  constructor
  · intro h
    obtain ⟨keys, hkeys, bound, hrun⟩ := h
    obtain rfl := hkeys.unique (enumerates_plain t pre token)
    obtain ⟨_, hok⟩ := hrun (max bound (t.entries.length + 1)) (le_max_left _ _)
    rcases collectBlobPage_cases now hpre token limit
      (show t.entries.length < max bound (t.entries.length + 1) by omega) with
      ⟨hcap, _⟩ | ⟨hl, _⟩ | ⟨_, _, hpage⟩
    · exact Or.inl hcap
    · -- Nothing is below a start that is not there.
      right
      intro p hp
      have hbelow := List.mem_filter.mp (List.mem_of_mem_take hp)
      rw [filesBelow_none hl] at hbelow
      exact absurd hbelow.1 List.not_mem_nil
    · rw [after_visibleKeys] at hpage
      exact Or.inr (firstPlain_iff.mpr (hok _ (congrArg Prod.fst hpage)))
  · intro h
    refine ⟨_, enumerates_plain t pre token, t.entries.length + 1, fun fuel hfuel => ?_⟩
    rcases collectBlobPage_cases now hpre token limit
      (show t.entries.length < fuel by omega) with ⟨_, hr⟩ | ⟨_, e, hr⟩ | ⟨hcap, _, hr⟩
    · rw [hr]
      exact ⟨by simp, by simp⟩
    · rw [hr]
      exact ⟨by simp, by simp⟩
    · rw [hr]
      refine ⟨by simp, fun page hpage => ?_⟩
      rw [← Except.ok.inj hpage, after_visibleKeys]
      exact firstPlain_iff.mp (h.resolve_left (by omega))

end Walk

/-- A file with a backslash in its name comes after the page that is asked for. -/
theorem walks_in_order_before_backslash :
    WalksInOrder 0 (treeOfFiles [["a".toList], ["b\\c".toList]]) [] none 1 := by
  refine (walks_in_order_iff 0 _ [] rfl none 1).mpr (Or.inr ?_)
  unfold FirstPlain
  decide +kernel

/-- The files `a/b` and `a\b` give the same text, and it is returned twice. -/
theorem walk_repeats_key : ¬ ∀ (now : ℤ) (t : FileTree) (pre : Str) (token : Option Str)
    (limit : ℕ), validateBlobPrefix pre = .ok () → WalksInOrder now t pre token limit := by
  intro h
  let t := treeOfFiles [["a".toList, "b".toList], ["a\\b".toList]]
  have hgiven : (givenFiles t [] none).map keyForPath = ["a/b".toList, "a/b".toList] := by
    decide +kernel
  obtain ⟨keys, hkeys, bound, hrun⟩ := h 0 t [] none 2 rfl
  obtain ⟨_, hok⟩ := hrun (max bound (t.entries.length + 1)) (le_max_left _ _)
  rcases collectBlobPage_cases 0 (show validateBlobPrefix [] = .ok () from rfl) none 2
    (show t.entries.length < max bound (t.entries.length + 1) by omega) with
    ⟨hcap, _⟩ | ⟨hl, _⟩ | ⟨_, _, hpage⟩
  · exact absurd hcap (by decide)
  · exact absurd hl (by decide +kernel)
  · have htake := hok _ (congrArg Prod.fst hpage)
    rw [after_visibleKeys, hgiven] at htake
    have hnodup := hkeys.nodup.sublist (List.take_sublist 2 keys)
    rw [← htake] at hnodup
    exact absurd hnodup (by decide)

/-! ### Following the tokens -/

/-- The number of files whose text exceeds the token. -/
def filesBeyond (t : FileTree) (token : Option Str) : ℕ :=
  (Paging.after token ((filesBelow t []).map keyForPath)).length

section Drain

variable {now : ℤ} {t : FileTree} {pre : Str} {token : Option Str} {limit fuel : ℕ}

/-- A file that the walk gives is one whose text exceeds the token. -/
theorem filesBeyond_lt {p : Path} (hp : p ∈ givenFiles t pre token) :
    filesBeyond t (some (keyForPath p)) < filesBeyond t token := by
  obtain ⟨_, hfile, _, _, hlater⟩ := mem_givenFiles.mp hp
  have hmem : keyForPath p ∈ (filesBelow t []).map keyForPath :=
    List.mem_map_of_mem (mem_filesBelow.mpr ⟨List.nil_prefix, hfile⟩)
  refine Paging.length_after_lt (Paging.mem_after.mpr ⟨hmem, ?_⟩)
  cases token with
  | none => rfl
  | some x => simpa using hlater x rfl

/-- The files that the walk gives are among the ones whose text exceeds the token. -/
theorem length_after_le (t : FileTree) (pre : Str) (token : Option Str) :
    (Paging.after token (visibleKeys t (startPath pre))).length ≤ filesBeyond t token := by
  have hbeyond : filesBeyond t token =
      ((filesBelow t []).filter fun p => token.all (· < keyForPath p)).length := by
    rw [filesBeyond, Paging.after, List.filter_map, List.length_map]
    congr 1
    apply List.filter_congr
    intro p _
    cases token <;> simp
  have hsub : givenFiles t pre token ⊆
      (filesBelow t []).filter fun p => token.all (· < keyForPath p) := by
    intro p hp
    obtain ⟨hbelow, hkept⟩ := List.mem_filter.mp hp
    rw [Bool.and_eq_true] at hkept
    have hfile := mem_filesBelow.mpr ⟨List.nil_prefix, (mem_filesBelow.mp hbelow).2⟩
    exact List.mem_filter.mpr ⟨hfile, hkept.2⟩
  rw [after_visibleKeys, List.length_map, hbeyond]
  exact (List.subperm_of_subset ((nodup_filesBelow t _).filter _) hsub).length_le

/-- Either no page is returned whatever the token, or each is the one that `listBlobsPage_spec`
describes. -/
theorem listBlobsPage_fails_or (now : ℤ) (hpre : validateBlobPrefix pre = .ok ())
    (hlimit : 1 ≤ limit) (hwrap : limit + 1 < 2 ^ 64) (hfuel : t.entries.length < fuel) :
    (∀ token, ∃ stop, stop ≠ .outOfFuel ∧
      (FsM.run now (listBlobsPage fuel pre token limit) t).1 = .error stop) ∨
    (StartResolves t pre ∧ stringSize * (limit + 1) ≤ isizeMax) := by
  by_cases hserved : StartResolves t pre ∧ stringSize * (limit + 1) ≤ isizeMax
  · exact Or.inr hserved
  · refine Or.inl fun token => ?_
    simp only [listBlobsPage, if_neg (show limit ≠ 0 by omega), Nat.mod_eq_of_lt hwrap,
      Prog.bind_eq_bind, FsM.run_bind]
    rcases collectBlobPage_cases now hpre token (limit + 1) hfuel with
      ⟨_, hr⟩ | ⟨_, e, hr⟩ | ⟨hcap, hstart, _⟩
    · rw [hr]
      exact ⟨_, by simp, rfl⟩
    · rw [hr]
      exact ⟨_, by simp, rfl⟩
    · exact absurd ⟨hstart.resolve_right (by omega), hcap⟩ hserved

/-- For every tree, prefix and page size, from any token: a token that is returned is greater than
the one that was passed and is the text of a file, so fewer files are beyond it; and the loop over
pages ends after at most one call more than there are files beyond the first token. -/
theorem local_drain_terminates (now : ℤ) (t : FileTree) (pre : Str)
    (hpre : validateBlobPrefix pre = .ok ()) (limit : ℕ) (hlimit : 1 ≤ limit)
    (hwrap : limit + 1 < 2 ^ 64) (walkFuel : ℕ) (hwalk : t.entries.length < walkFuel) :
    (∀ token page x, (FsM.run now (listBlobsPage walkFuel pre token limit) t).1 = .ok page →
      page.nextContinuation = some x →
        (∀ y, token = some y → y < x) ∧ (∃ p, t.files p ≠ none ∧ keyForPath p = x) ∧
          filesBeyond t (some x) < filesBeyond t token) ∧
    ∀ token keys fuel, filesBeyond t token < fuel →
      (FsM.run now (drainPages walkFuel pre limit fuel token keys) t).1 ≠ .error .outOfFuel := by
  have hcases := listBlobsPage_fails_or now hpre hlimit hwrap hwalk
  constructor
  · intro token page x hpage hx
    rcases hcases with hfails | ⟨hstart, hcap⟩
    · obtain ⟨stop, _, hr⟩ := hfails token
      rw [hr] at hpage
      cases hpage
    · rw [listBlobsPage_spec now hpre hstart token hlimit hcap hwalk] at hpage
      obtain rfl := Except.ok.inj hpage
      have hmem := Paging.mem_of_nextToken hx
      rw [after_visibleKeys] at hmem
      obtain ⟨p, hp, rfl⟩ := List.mem_map.mp hmem
      obtain ⟨_, hfile, _, _, hlater⟩ := mem_givenFiles.mp hp
      exact ⟨hlater, ⟨p, hfile, rfl⟩, filesBeyond_lt hp⟩
  · intro token keys fuel hfuel
    rcases hcases with hfails | ⟨hstart, hcap⟩
    · obtain ⟨fuel, rfl⟩ : ∃ n, fuel = n + 1 := ⟨fuel - 1, by omega⟩
      obtain ⟨stop, hstop, hr⟩ := hfails token
      simp only [drainPages, Prog.bind_eq_bind, FsM.run_bind, hr]
      simpa using hstop
    · obtain ⟨ks, hks⟩ := Paging.drain_terminates (visibleKeys t (startPath pre)) limit token
        ((length_after_le t pre token).trans_lt hfuel)
      rw [drainPages_spec now hpre hstart hlimit hcap hwalk, hks]
      simp

end Drain

/-- Two files, read a key at a time from a token before both. -/
theorem local_drain_terminates_two_files :
    filesBeyond (treeOfFiles [["a".toList], ["b".toList]]) (some []) = 2 ∧
      (FsM.run 0 (drainPages 10 [] 1 3 (some []) []) (treeOfFiles [["a".toList], ["b".toList]])).1 ≠
        .error .outOfFuel := by
  have hcount : filesBeyond (treeOfFiles [["a".toList], ["b".toList]]) (some []) = 2 := by
    decide +kernel
  refine ⟨hcount, ?_⟩
  exact (local_drain_terminates 0 _ [] rfl 1 (by omega) (by omega) 10 (by decide +kernel)).2 _ _ 3
    (by omega)

end GraphqlOrmStorage.Local
