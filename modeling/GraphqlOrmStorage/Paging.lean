import Mathlib

/-!
# Paging through a list with tokens

A server keeps a list and answers a request with the first items after a token,
where "after" is decided by an order on the items that need not be the order of
the list. A client drains the list by passing the last item of a page as the
next token. The main result says exactly when draining returns every item once:
at each page boundary the order must separate what was returned from what is
still to come.
-/
namespace GraphqlOrmStorage.Paging

section NextToken

variable {α : Type} {size : ℕ} {left : List α}

/-- The token of a page of `size` items, when more than these are left. -/
def nextToken (size : ℕ) (left : List α) : Option α :=
  if size < left.length then (left.take size).getLast? else none

theorem nextToken_eq_none (hs : 0 < size) :
    nextToken size left = none ↔ left.length ≤ size := by
  unfold nextToken
  split_ifs with h
  · have hne : left.take size ≠ [] := by
      intro he
      have := congrArg List.length he
      simp only [List.length_take, List.length_nil] at this
      omega
    simp [List.getLast?_eq_some_getLast hne, h]
  · simp
    omega

theorem nextToken_eq_some {x : α} (h : nextToken size left = some x) :
    size < left.length ∧ (left.take size).getLast? = some x := by
  unfold nextToken at h
  split_ifs at h with hl
  exact ⟨hl, h⟩

/-- The next token is one of the items that were left. -/
theorem mem_of_nextToken {x : α} (h : nextToken size left = some x) : x ∈ left :=
  List.mem_of_mem_take (List.mem_of_getLast? (nextToken_eq_some h).2)

/-- The last item of a page is the item before the next boundary. -/
theorem getLast?_page (hs : 0 < size) {items : List α} {i : ℕ} (h : i + size ≤ items.length) :
    ((items.drop i).take size).getLast? = items[i + size - 1]? := by
  have hlen : ((items.drop i).take size).length = size := by
    simp only [List.length_take, List.length_drop]
    omega
  rw [List.getLast?_eq_getElem?, hlen, List.getElem?_take_of_lt (by omega), List.getElem?_drop]
  congr 1
  omega

end NextToken

variable {α : Type} [LinearOrder α] {size : ℕ}

/-- The items that a token leaves to be returned. -/
def after (token : Option α) (items : List α) : List α :=
  items.filter fun k => token.all (· < k)

/-- Follow the tokens until there is none. -/
def drain (items : List α) (size : ℕ) : ℕ → Option α → Option (List α)
  | 0, _ => none
  | fuel + 1, token =>
    match nextToken size (after token items) with
    | none => some ((after token items).take size)
    | some next => (drain items size fuel (some next)).map ((after token items).take size ++ ·)

@[simp] theorem after_none (items : List α) : after none items = items := by
  simp [after]

theorem mem_after_some {t k : α} {items : List α} :
    k ∈ after (some t) items ↔ k ∈ items ∧ t < k := by
  simp [after]

/-- Each page leaves fewer items than the one before. -/
theorem length_after_lt {items : List α} {token : Option α} {x : α} (h : x ∈ after token items) :
    (after (some x) items).length < (after token items).length := by
  have hsub : after (some x) items = (after token items).filter (x < ·) := by
    simp only [after, List.filter_filter]
    apply List.filter_congr
    intro k _
    have hx := (List.mem_filter.mp h).2
    cases token with
    | none => simp
    | some t =>
      have htx : t < x := by simpa using hx
      by_cases hk : x < k
      · simp [hk, htx.trans hk]
      · simp [hk]
  rw [hsub]
  apply Nat.lt_of_le_of_ne (List.length_filter_le _ _)
  intro he
  have hall := List.length_filter_eq_length_iff.mp he x h
  simp at hall

/-- Draining ends after at most as many pages as there are items left. -/
theorem drain_terminates (items : List α) (size : ℕ) {fuel : ℕ} (token : Option α)
    (h : (after token items).length < fuel) : ∃ ks, drain items size fuel token = some ks := by
  induction fuel generalizing token with
  | zero => omega
  | succ fuel ih =>
    simp only [drain]
    cases hn : nextToken size (after token items) with
    | none => exact ⟨_, rfl⟩
    | some x =>
      have hlt := length_after_lt (mem_of_nextToken hn)
      obtain ⟨ks, hks⟩ := ih (some x) (by omega)
      exact ⟨_, by simp only [hks]; rfl⟩

/-- More fuel does not change the result. -/
theorem drain_mono {items : List α} {n m : ℕ} (hnm : n ≤ m) {token : Option α} {ks : List α}
    (h : drain items size n token = some ks) : drain items size m token = some ks := by
  induction n generalizing m token ks with
  | zero => simp [drain] at h
  | succ n ih =>
    obtain ⟨m, rfl⟩ : ∃ k, m = k + 1 := ⟨m - 1, by omega⟩
    simp only [drain] at h ⊢
    cases hn : nextToken size (after token items) with
    | none => simpa [hn] using h
    | some x =>
      simp only [hn, Option.map_eq_some_iff] at h ⊢
      obtain ⟨ks', h', rfl⟩ := h
      exact ⟨ks', ih (by omega) h', rfl⟩

/-- Nothing at or before the token is returned again. -/
theorem lt_of_mem_drain {items : List α} {n : ℕ} {t : α} {ks : List α}
    (h : drain items size n (some t) = some ks) : ∀ k ∈ ks, t < k := by
  induction n generalizing t ks with
  | zero => simp [drain] at h
  | succ n ih =>
    have hpage : ∀ k ∈ (after (some t) items).take size, t < k :=
      fun k hk => (mem_after_some.mp (List.mem_of_mem_take hk)).2
    simp only [drain] at h
    cases hn : nextToken size (after (some t) items) with
    | none =>
      simp only [hn, Option.some.injEq] at h
      exact h ▸ hpage
    | some x =>
      simp only [hn, Option.map_eq_some_iff] at h
      obtain ⟨ks', h', rfl⟩ := h
      have htx : t < x := (mem_after_some.mp (mem_of_nextToken hn)).2
      intro k hk
      rcases List.mem_append.mp hk with hk | hk
      · exact hpage k hk
      · exact htx.trans (ih h' k hk)

/-- The first page holds the first item that is left. -/
theorem head_mem_drain (hs : 0 < size) {items : List α} {fuel : ℕ} {token : Option α} {ks : List α}
    (h : drain items size fuel token = some ks) {z : α} (hz : (after token items).head? = some z) :
    z ∈ ks := by
  cases fuel with
  | zero => simp [drain] at h
  | succ n =>
    obtain ⟨rest, hrest⟩ := List.head?_eq_some_iff.mp hz
    have hpage : z ∈ (after token items).take size := by
      obtain ⟨m, rfl⟩ : ∃ m, size = m + 1 := ⟨size - 1, by omega⟩
      simp [hrest]
    simp only [drain] at h
    cases hn : nextToken size (after token items) with
    | none =>
      simp only [hn, Option.some.injEq] at h
      exact h ▸ hpage
    | some x =>
      simp only [hn, Option.map_eq_some_iff] at h
      obtain ⟨ks', -, rfl⟩ := h
      exact List.mem_append_left _ hpage

/-- The order separates the first `i` items from the others, and the last of the first
ones is their greatest. -/
def CutAt (items : List α) (i : ℕ) : Prop :=
  ∃ x, items[i - 1]? = some x ∧ (∀ k ∈ items.take i, k ≤ x) ∧ ∀ k ∈ items.drop i, x < k

/-- At a cut, the token leaves exactly the rest of the list. -/
theorem after_eq_drop {items : List α} {i : ℕ} {x : α} (hle : ∀ k ∈ items.take i, k ≤ x)
    (hlt : ∀ k ∈ items.drop i, x < k) : after (some x) items = items.drop i := by
  have h1 : (items.take i).filter (x < ·) = [] := by
    apply List.filter_eq_nil_iff.mpr
    intro k hk
    simpa using hle k hk
  have h2 : (items.drop i).filter (x < ·) = items.drop i := by
    apply List.filter_eq_self.mpr
    intro k hk
    simpa using hlt k hk
  calc after (some x) items = (items.take i ++ items.drop i).filter (x < ·) := by
        rw [List.take_append_drop]; rfl
    _ = items.drop i := by rw [List.filter_append, h1, h2, List.nil_append]

/-- Where every later boundary is a cut, draining returns the rest of the list as it is. -/
theorem drain_of_cuts (hs : 0 < size) {items : List α} (j : ℕ) (token : Option α) (fuel : ℕ)
    (hcut : ∀ i, j < i → i * size < items.length → CutAt items (i * size))
    (ht : after token items = items.drop (j * size)) (hf : items.length < fuel + j * size) :
    drain items size fuel token = some (items.drop (j * size)) ∨ items.length < j * size := by
  induction fuel generalizing j token with
  | zero => right; omega
  | succ fuel ih =>
    left
    simp only [drain, ht]
    cases hn : nextToken size (items.drop (j * size)) with
    | none =>
      have hle := (nextToken_eq_none hs).mp hn
      simp only [List.take_of_length_le hle]
    | some x =>
      obtain ⟨hlong, hlast⟩ := nextToken_eq_some hn
      simp only [List.length_drop] at hlong
      have hnext : (j + 1) * size = j * size + size := Nat.succ_mul j size
      obtain ⟨y, hy, hle, hlt⟩ := hcut (j + 1) (by omega) (by omega)
      -- The token of this page is the item the cut is about.
      obtain rfl : x = y := by
        rw [getLast?_page hs (by omega), ← hnext, hy] at hlast
        exact (Option.some.inj hlast).symm
      have hrest := ih (j + 1) (some x) (fun i hi => hcut i (by omega)) (after_eq_drop hle hlt)
        (by omega)
      rcases hrest with hrest | hrest
      · simp only [hrest, Option.map_some]
        rw [hnext, ← List.drop_drop, List.take_append_drop]
      · omega

/-- When the pages after `x` return what follows the page that ends in `x`, nothing on or
before that page is greater than `x`: the first such item would be returned again. -/
theorem page_le_token (hs : 0 < size) {items : List α} (hnd : items.Nodup) {i : ℕ} {x : α}
    {fuel : ℕ} {ks : List α} (hd : drain items size fuel (some x) = some ks)
    (hp : ks.Perm (items.drop i)) : ∀ k ∈ items.take i, k ≤ x := by
  by_contra hne
  simp only [not_forall, not_le] at hne
  obtain ⟨k, hk, hxk⟩ := hne
  have hsplit : after (some x) items = (items.take i).filter (x < ·) ++
      (items.drop i).filter (x < ·) := by
    rw [← List.filter_append, List.take_append_drop]
    rfl
  obtain ⟨z, rest, hz⟩ : ∃ z rest, (items.take i).filter (x < ·) = z :: rest := by
    apply List.exists_cons_of_ne_nil
    exact List.ne_nil_of_mem (List.mem_filter.mpr ⟨hk, by simpa using hxk⟩)
  have hzks : z ∈ ks := by
    apply head_mem_drain hs hd
    rw [hsplit, hz]
    rfl
  have hztake : z ∈ items.take i :=
    (List.mem_filter.mp (hz ▸ List.mem_cons_self : z ∈ _)).1
  have hzdrop : z ∈ items.drop i := hp.mem_iff.mp hzks
  exact List.disjoint_take_drop hnd le_rfl hztake hzdrop

/-- Where draining returns the rest of the list, every later boundary is a cut. -/
theorem cuts_of_drain (hs : 0 < size) {items : List α} (hnd : items.Nodup) {j : ℕ}
    {token : Option α} (ht : after token items = items.drop (j * size)) {fuel : ℕ} {ks : List α}
    (hd : drain items size fuel token = some ks) (hp : ks.Perm (items.drop (j * size))) :
    ∀ i, j < i → i * size < items.length → CutAt items (i * size) := by
  induction fuel generalizing j token ks with
  | zero => simp [drain] at hd
  | succ fuel ih =>
    simp only [drain, ht] at hd
    cases hn : nextToken size (items.drop (j * size)) with
    | none =>
      have hle := (nextToken_eq_none hs).mp hn
      simp only [List.length_drop] at hle
      intro i hi hlen
      have : (j + 1) * size ≤ i * size := Nat.mul_le_mul_right size hi
      rw [Nat.succ_mul] at this
      omega
    | some x =>
      simp only [hn, Option.map_eq_some_iff] at hd
      obtain ⟨ks', hd', rfl⟩ := hd
      obtain ⟨hlong, hlast⟩ := nextToken_eq_some hn
      simp only [List.length_drop] at hlong
      have hnext : (j + 1) * size = j * size + size := Nat.succ_mul j size
      have hsplit : items.drop (j * size) =
          (items.drop (j * size)).take size ++ items.drop ((j + 1) * size) := by
        rw [hnext, ← List.drop_drop, List.take_append_drop]
      have hp' : ks'.Perm (items.drop ((j + 1) * size)) := by
        have hp := hp.trans (List.Perm.of_eq hsplit)
        exact (List.perm_append_left_iff _).mp hp
      have hlt : ∀ k ∈ items.drop ((j + 1) * size), x < k :=
        fun k hk => lt_of_mem_drain hd' k (hp'.mem_iff.mpr hk)
      have hle := page_le_token hs hnd hd' hp'
      have hcut : CutAt items ((j + 1) * size) :=
        ⟨x, by rw [hnext, ← getLast?_page hs (by omega), hlast], hle, hlt⟩
      intro i hi hlen
      by_cases he : i = j + 1
      · rw [he]; exact hcut
      · exact ih (after_eq_drop hle hlt) hd' hp' i (by omega) hlen

/-- Draining with pages of `size` items returns every item exactly once if and only if the
items are distinct and every page boundary is a cut. -/
theorem drain_exact_iff (hs : 0 < size) (items : List α) :
    (∃ fuel ks, drain items size fuel none = some ks ∧ ks.Nodup ∧ ks.Perm items) ↔
      items.Nodup ∧ ∀ j, 0 < j → j * size < items.length → CutAt items (j * size) := by
  constructor
  · rintro ⟨fuel, ks, hd, hnd, hp⟩
    have hitems := hp.nodup_iff.mp hnd
    refine ⟨hitems, ?_⟩
    exact cuts_of_drain (j := 0) hs hitems (by simp) hd (by simpa using hp)
  · rintro ⟨hnd, hcut⟩
    rcases drain_of_cuts hs 0 none (items.length + 1) hcut (by simp) (by omega) with h | h
    · exact ⟨_, _, h, by simpa using hnd, by simp⟩
    · omega

/-- Only items are returned. -/
theorem mem_of_mem_drain {items : List α} {fuel : ℕ} {token : Option α} {ks : List α}
    (h : drain items size fuel token = some ks) : ∀ k ∈ ks, k ∈ items := by
  induction fuel generalizing token ks with
  | zero => simp [drain] at h
  | succ fuel ih =>
    have hpage : ∀ k ∈ (after token items).take size, k ∈ items :=
      fun k hk => (List.mem_filter.mp (List.mem_of_mem_take hk)).1
    simp only [drain] at h
    cases hn : nextToken size (after token items) with
    | none =>
      simp only [hn, Option.some.injEq] at h
      exact h ▸ hpage
    | some x =>
      simp only [hn, Option.map_eq_some_iff] at h
      obtain ⟨ks', hrest, heq⟩ := h
      subst heq
      intro k hk
      rcases List.mem_append.mp hk with hk | hk
      · exact hpage k hk
      · exact ih hrest k hk

/-- Draining that returns every item once returns them in their order. -/
theorem drain_eq_of_perm (hs : 0 < size) {items : List α} {fuel : ℕ} {ks : List α}
    (h : drain items size fuel none = some ks) (hnodup : ks.Nodup) (hperm : ks.Perm items) :
    ks = items := by
  have hcuts := ((drain_exact_iff hs items).mp ⟨fuel, ks, h, hnodup, hperm⟩).2
  have hall : drain items size (items.length + 1) none = some items := by
    rcases drain_of_cuts hs 0 none (items.length + 1) hcuts (by simp) (by omega) with hd | hd
    · simpa using hd
    · omega
  have hmore := drain_mono (le_max_left fuel (items.length + 1)) h
  rw [drain_mono (le_max_right fuel (items.length + 1)) hall] at hmore
  exact (Option.some.inj hmore).symm

/-- A list in strict order is cut at every boundary. -/
theorem cutAt_of_pairwise {items : List α} (h : items.Pairwise (· < ·)) {i : ℕ} (hi : 0 < i)
    (hlen : i < items.length) : CutAt items i := by
  have hlast : i - 1 < items.length := by omega
  have horder := List.pairwise_iff_getElem.mp h
  refine ⟨items[i - 1], List.getElem?_eq_getElem hlast, fun k hk => ?_, fun k hk => ?_⟩
  · obtain ⟨j, hj, hk⟩ := List.mem_take_iff_getElem.mp hk
    subst hk
    by_cases hjlast : j = i - 1
    · simp [hjlast]
    · exact (horder j (i - 1) (by omega) hlast (by omega)).le
  · obtain ⟨j, hj, hk⟩ := List.mem_drop_iff_getElem.mp hk
    subst hk
    exact horder (i - 1) (i + j) hlast (by omega) (by omega)

/-- Draining a list in strict order returns it as it is. -/
theorem drain_of_pairwise (hs : 0 < size) {items : List α} (h : items.Pairwise (· < ·)) {fuel : ℕ}
    (hfuel : items.length < fuel) : drain items size fuel none = some items := by
  have hcuts : ∀ j, 0 < j → j * size < items.length → CutAt items (j * size) :=
    fun j hj hlen => cutAt_of_pairwise h (Nat.mul_pos hj hs) hlen
  rcases drain_of_cuts hs 0 none fuel hcuts (by simp) (by omega) with hd | hd
  · simpa using hd
  · omega

/-! ### Items that change between the pages -/

/-- A drain with the items that each page met and what was returned from the token on. -/
inductive ChangingDrain (size : ℕ) : Option α → List (List α) → List α → Prop
  | last {token : Option α} {items : List α} : nextToken size (after token items) = none →
      ChangingDrain size token [items] ((after token items).take size)
  | more {token : Option α} {items : List α} {rest : List (List α)} {next : α} {keys : List α} :
      nextToken size (after token items) = some next → ChangingDrain size (some next) rest keys →
      ChangingDrain size token (items :: rest) ((after token items).take size ++ keys)

theorem pairwise_after {items : List α} (h : items.Pairwise (· < ·)) (token : Option α) :
    (after token items).Pairwise (· < ·) := h.filter _

theorem mem_after {token : Option α} {k : α} {items : List α} :
    k ∈ after token items ↔ k ∈ items ∧ token.all (· < k) = true := List.mem_filter

/-- The items up to the next token are those of the page. -/
theorem mem_take_iff_le {left : List α} (hs : 0 < size) (h : left.Pairwise (· < ·)) {x k : α}
    (hx : nextToken size left = some x) (hk : k ∈ left) : k ∈ left.take size ↔ k ≤ x := by
  obtain ⟨hlong, hlast⟩ := nextToken_eq_some hx
  have hat := getLast?_page hs (show 0 + size ≤ left.length by omega)
  rw [List.drop_zero, hlast, Nat.zero_add] at hat
  obtain ⟨y, hy, hle, hlt⟩ := cutAt_of_pairwise h hs hlong
  rw [hy] at hat
  obtain rfl := Option.some.inj hat
  refine ⟨hle k, fun hkx => ?_⟩
  rw [← List.take_append_drop size left] at hk
  rcases List.mem_append.mp hk with hk | hk
  · exact hk
  · exact absurd hkx (not_le.mpr (hlt k hk))

section Changing

variable {token : Option α} {lists : List (List α)} {keys : List α}

/-- Nothing at or before the token is returned. -/
theorem ChangingDrain.after_token (h : ChangingDrain size token lists keys) :
    ∀ k ∈ keys, token.all (· < k) = true := by
  induction h with
  | last _ => exact fun k hk => (mem_after.mp (List.mem_of_mem_take hk)).2
  | @more token items rest next keys hnext _ ih =>
    intro k hk
    rcases List.mem_append.mp hk with hk | hk
    · exact (mem_after.mp (List.mem_of_mem_take hk)).2
    · have htoken := (mem_after.mp (mem_of_nextToken hnext)).2
      have hlt : next < k := by simpa using ih k hk
      cases token with
      | none => rfl
      | some t =>
        have ht : t < next := by simpa using htoken
        simpa using ht.trans hlt

/-- Where every page meets its items in order, the pages go on in that order. -/
theorem ChangingDrain.pairwise (hs : 0 < size) (h : ChangingDrain size token lists keys)
    (hsorted : ∀ items ∈ lists, items.Pairwise (· < ·)) : keys.Pairwise (· < ·) := by
  induction h with
  | @last token items _ =>
    have hleft := pairwise_after (hsorted items (List.mem_cons_self ..)) token
    exact hleft.sublist (List.take_sublist ..)
  | @more token items rest next keys hnext hrest ih =>
    have hleft := pairwise_after (hsorted items (List.mem_cons_self ..)) token
    refine List.pairwise_append.mpr ⟨hleft.sublist (List.take_sublist ..), ?_, fun a ha b hb => ?_⟩
    · exact ih fun items hi => hsorted items (List.mem_cons_of_mem _ hi)
    · have hle := (mem_take_iff_le hs hleft hnext (List.mem_of_mem_take ha)).mp ha
      have hlt : next < b := by simpa using hrest.after_token b hb
      exact hle.trans_lt hlt

/-- An item that every page meets is returned, whatever else comes and goes. -/
theorem ChangingDrain.mem_of_stays (hs : 0 < size) (h : ChangingDrain size token lists keys)
    (hsorted : ∀ items ∈ lists, items.Pairwise (· < ·)) {k : α} (hk : token.all (· < k) = true)
    (hstays : ∀ items ∈ lists, k ∈ items) : k ∈ keys := by
  induction h with
  | @last token items hnext =>
    have hle := (nextToken_eq_none hs).mp hnext
    rw [List.take_of_length_le hle]
    exact mem_after.mpr ⟨hstays items (List.mem_cons_self ..), hk⟩
  | @more token items rest next keys hnext _ ih =>
    have hleft := pairwise_after (hsorted items (List.mem_cons_self ..)) token
    have hmem := mem_after.mpr ⟨hstays items (List.mem_cons_self ..), hk⟩
    rw [List.mem_append, mem_take_iff_le hs hleft hnext hmem]
    rcases le_or_gt k next with hle | hlt
    · exact Or.inl hle
    · refine Or.inr (ih (fun items hi => hsorted items (List.mem_cons_of_mem _ hi)) ?_ ?_)
      · simpa using hlt
      · exact fun items hi => hstays items (List.mem_cons_of_mem _ hi)

/-- Only items that some page met are returned. -/
theorem ChangingDrain.mem_some (h : ChangingDrain size token lists keys) :
    ∀ k ∈ keys, ∃ items ∈ lists, k ∈ items := by
  induction h with
  | @last token items _ =>
    exact fun k hk => ⟨items, List.mem_cons_self .., (mem_after.mp (List.mem_of_mem_take hk)).1⟩
  | @more token items rest next keys _ _ ih =>
    intro k hk
    rcases List.mem_append.mp hk with hk | hk
    · exact ⟨items, List.mem_cons_self .., (mem_after.mp (List.mem_of_mem_take hk)).1⟩
    · obtain ⟨met, hmet, hk⟩ := ih k hk
      exact ⟨met, List.mem_cons_of_mem _ hmet, hk⟩

end Changing

section Parts

variable {β : Type}

/-- A sorted list and the part of it that passes a test begin with the same values exactly when
the first items pass, if an item that does not pass shares its value with earlier ones only. -/
theorem take_map_filter_iff {P : α → Bool} {f : α → β} {items : List α}
    (hsorted : items.Pairwise (· < ·))
    (hf : ∀ x ∈ items, ∀ y ∈ items, P x = false → P y = true → f x = f y → y < x) (n : ℕ) :
    (items.map f).take n = ((items.filter P).map f).take n ↔ ∀ x ∈ items.take n, P x = true := by
  induction items generalizing n with
  | nil => simp
  | cons a items ih =>
    obtain ⟨hlt, hsorted⟩ := List.pairwise_cons.mp hsorted
    have ih := ih hsorted fun x hx y hy =>
      hf x (List.mem_cons_of_mem _ hx) y (List.mem_cons_of_mem _ hy)
    cases n with
    | zero => simp
    | succ n =>
      cases ha : P a with
      | true => simp [ha, ih n]
      | false =>
        constructor
        · intro h
          cases hpart : items.filter P with
          | nil => simp [ha, hpart] at h
          | cons b rest =>
            have hb : b ∈ items.filter P := by rw [hpart]; exact List.mem_cons_self ..
            obtain ⟨hmem, hpass⟩ := List.mem_filter.mp hb
            have hvalue : f a = f b := by
              simp only [List.map_cons, List.take_succ_cons, List.filter_cons, ha, hpart,
                Bool.false_eq_true, if_false] at h
              exact (List.cons.inj h).1
            have hlater := hf a (List.mem_cons_self ..) b (List.mem_cons_of_mem _ hmem) ha hpass
              hvalue
            exact absurd hlater (lt_asymm (hlt b hmem))
        · intro h
          exact absurd (h a (List.mem_cons_self ..)) (by simp [ha])

end Parts

end GraphqlOrmStorage.Paging
