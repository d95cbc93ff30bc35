import GraphqlOrmStorage.LocalListing

/-!
# Page sizes up to the largest

The limit of a page is incremented before it is used as an allocation size and
as the bound of the walk, and the length of the walk's page is compared with the
limit again. The increment wraps at the top of the range, and long before that
the allocation is larger than any the target allows.
-/
namespace GraphqlOrmStorage.Local

open Text Program FileTree

/-- The number of visible files under a prefix. -/
def visibleCount (t : FileTree) (pre : Str) : ℕ :=
  ((filesBelow t (startPath pre)).filter isVisible).length

theorem length_visibleKeys (t : FileTree) (pre : Str) :
    (visibleKeys t (startPath pre)).length = visibleCount t pre := by
  rw [visibleKeys, List.length_map, visibleCount]

/-- The call returns the first `limit` visible keys, and a token exactly when there are more. -/
def PageComplete (now : ℤ) (t : FileTree) (pre : Str) (limit fuel : ℕ) : Prop :=
  ∃ page, (FsM.run now (listBlobsPage fuel pre none limit) t).1 = .ok page ∧
    page.keys.length = min limit (visibleCount t pre) ∧
    (page.nextContinuation.isSome ↔ limit < visibleCount t pre)

/-- The bytes of the page that is allocated, for a limit below the largest. -/
def Allocates (limit : ℕ) : Prop := stringSize * (limit + 1) ≤ isizeMax

/-- The token of a page is present exactly when keys are left. -/
lemma isSome_nextToken {limit : ℕ} (hlimit : 1 ≤ limit) (keys : List Str) :
    (Paging.nextToken limit keys).isSome ↔ limit < keys.length := by
  unfold Paging.nextToken
  split_ifs with h
  · have hne : keys.take limit ≠ [] := by
      intro hnil
      have hlen := congrArg List.length hnil
      rw [List.length_take, List.length_nil] at hlen
      omega
    simp [h, List.getLast?_eq_some_getLast hne]
  · simp [h]

/-- Below the largest limit everything depends on the allocation and on the start. -/
lemma pageComplete_iff {now : ℤ} {t : FileTree} {pre : Str}
    (hpre : validateBlobPrefix pre = .ok ()) {limit fuel : ℕ} (hlimit : 1 ≤ limit)
    (hwrap : limit + 1 < 2 ^ 64) (hfuel : t.entries.length < fuel) :
    PageComplete now t pre limit fuel ↔ Allocates limit ∧ StartResolves t pre := by
  constructor
  · intro h
    obtain ⟨page, hpage, -, -⟩ := h
    exact of_listBlobsPage_ok hpre hlimit hwrap hfuel hpage
  · intro h
    obtain ⟨hcap, hstart⟩ := h
    have hrun := listBlobsPage_spec now hpre hstart none hlimit hcap hfuel
    rw [Paging.after_none] at hrun
    refine ⟨_, congrArg Prod.fst hrun, ?_, ?_⟩
    · rw [List.length_take, length_visibleKeys]
    · rw [isSome_nextToken hlimit, length_visibleKeys]

/-- At the largest limit the walk stops before its first entry. -/
lemma listBlobsPage_wraps (now : ℤ) (t : FileTree) {pre : Str}
    (hpre : validateBlobPrefix pre = .ok ()) {limit fuel : ℕ} (hlimit : limit + 1 = 2 ^ 64)
    (hfuel : t.entries.length < fuel) :
    FsM.run now (listBlobsPage fuel pre none limit) t = (.ok ⟨[], none⟩, t) := by
  obtain ⟨fuel, rfl⟩ : ∃ n, fuel = n + 1 := ⟨fuel - 1, by omega⟩
  have hcollect : collectBlobPage (fuel + 1) pre none 0 = .ret (.ok []) := by
    simp only [collectBlobPage, hpre]
    rfl
  have hzero : (limit + 1) % 2 ^ 64 = 0 := by omega
  rw [listBlobsPage, if_neg (show limit ≠ 0 by omega), hzero, hcollect]
  rfl

/-- For every limit from one to the largest: a page holds as many keys as it should,
and its token tells whether there are more, exactly when the page can be allocated
and the start of the walk resolves, or the limit is the largest and nothing is visible. -/
theorem page_sizes_exact_iff (now : ℤ) (t : FileTree) (pre : Str)
    (hpre : validateBlobPrefix pre = .ok ()) (limit fuel : ℕ) (hlimit : 1 ≤ limit)
    (husize : limit < 2 ^ 64) (hfuel : t.entries.length < fuel) :
    PageComplete now t pre limit fuel ↔
      (limit + 1 < 2 ^ 64 ∧ Allocates limit ∧ StartResolves t pre) ∨
        (limit + 1 = 2 ^ 64 ∧ visibleCount t pre = 0) := by
  by_cases hwrap : limit + 1 < 2 ^ 64
  · rw [pageComplete_iff hpre hlimit hwrap hfuel]
    constructor
    · intro h
      exact Or.inl ⟨hwrap, h⟩
    · intro h
      cases h with
      | inl h => exact h.2
      | inr h => omega
  · have hlast : limit + 1 = 2 ^ 64 := by omega
    have hrun := congrArg Prod.fst (listBlobsPage_wraps now t hpre hlast hfuel)
    constructor
    · intro h
      obtain ⟨page, hpage, hlen, -⟩ := h
      rw [hrun, Except.ok.injEq] at hpage
      rw [← hpage, List.length_nil] at hlen
      exact Or.inr ⟨hlast, by omega⟩
    · intro h
      have hzero : visibleCount t pre = 0 := by
        cases h with
        | inl h => omega
        | inr h => exact h.2
      refine ⟨_, hrun, ?_, ?_⟩
      · rw [hzero, List.length_nil, Nat.min_zero]
      · simp [hzero]

/-- Two files and a limit of one. -/
theorem page_sizes_exact_two_files :
    PageComplete 0 (treeOfFiles [["a".toList], ["b".toList]]) [] 1 10 :=
  (page_sizes_exact_iff 0 (treeOfFiles [["a".toList], ["b".toList]]) [] rfl 1 10 (by omega)
    (by omega) (by decide +kernel)).mpr
    (Or.inl ⟨by omega, show stringSize * (1 + 1) ≤ isizeMax by decide,
      Or.inl (by decide +kernel)⟩)

/-- With the largest limit a listing of one file comes back empty and ends there. -/
theorem largest_limit_lists_nothing : ¬ ∀ (now : ℤ) (t : FileTree) (pre : Str) (limit fuel : ℕ),
    validateBlobPrefix pre = .ok () → 1 ≤ limit → limit < 2 ^ 64 → t.entries.length < fuel →
    PageComplete now t pre limit fuel := by
  intro h
  have hfuel : (treeOfFiles [["a".toList]]).entries.length < 10 := by decide +kernel
  obtain ⟨page, hpage, hlen, -⟩ :=
    h 0 (treeOfFiles [["a".toList]]) [] (2 ^ 64 - 1) 10 rfl (by omega) (by omega) hfuel
  have hrun : (FsM.run 0 (listBlobsPage 10 [] none (2 ^ 64 - 1)) (treeOfFiles [["a".toList]])).1 =
      .ok ⟨[], none⟩ := congrArg Prod.fst (listBlobsPage_wraps 0 _ rfl (by omega) hfuel)
  have hcount : visibleCount (treeOfFiles [["a".toList]]) [] = 1 := by decide +kernel
  rw [hrun, Except.ok.injEq] at hpage
  rw [← hpage, hcount, List.length_nil] at hlen
  omega

end GraphqlOrmStorage.Local
