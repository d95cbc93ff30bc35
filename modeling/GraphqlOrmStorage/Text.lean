import Mathlib

/-!
# Text as a list of characters

A Rust `str` is a sequence of Unicode scalar values, which is exactly a list of
characters here. Its ordering is bytewise on the UTF-8 encoding, which agrees
with the lexicographic order on scalar values, so the order of `List Char` is
the order of `str`. Splitting at a separator is `List.splitOn`, joining is
`List.intercalate`; the remaining standard functions are defined below.
-/
namespace GraphqlOrmStorage.Text

abbrev Str := List Char

/-- The Unicode `White_Space` property, as `char::is_whitespace` has it. -/
def isWhitespace (c : Char) : Bool :=
  (0x9 ≤ c.toNat && c.toNat ≤ 0xD) || c.toNat == 0x20 || c.toNat == 0x85 || c.toNat == 0xA0 ||
    c.toNat == 0x1680 || (0x2000 ≤ c.toNat && c.toNat ≤ 0x200A) || c.toNat == 0x2028 ||
    c.toNat == 0x2029 || c.toNat == 0x202F || c.toNat == 0x205F || c.toNat == 0x3000

/-- Remove the longest prefix and the longest suffix of characters satisfying `p`. -/
def trimBy (p : Char → Bool) (s : Str) : Str := (s.dropWhile p).rdropWhile p

/-- `str::trim`. -/
def trim (s : Str) : Str := trimBy isWhitespace s

/-- `str::trim_matches` for a single character. -/
def trimMatches (c : Char) (s : Str) : Str := trimBy (· == c) s

/-- `str::to_ascii_lowercase`: only the letters `A` to `Z` change. -/
def toAsciiLowercase (s : Str) : Str :=
  s.map (fun c => if 'A' ≤ c ∧ c ≤ 'Z' then Char.ofNat (c.toNat + 32) else c)

/-- `str::rsplit_once`: the text before and after the last occurrence of `c`. -/
def rsplitOnce (c : Char) : Str → Option (Str × Str)
  | [] => none
  | x :: xs => match rsplitOnce c xs with
    | some (a, b) => some (x :: a, b)
    | none => if x = c then some ([], xs) else none

/-- `str::strip_prefix`. -/
def stripPrefix (p s : Str) : Option Str :=
  if p <+: s then some (s.drop p.length) else none

/-- `str::strip_suffix`. -/
def stripSuffix (p s : Str) : Option Str :=
  if p <:+ s then some (s.take (s.length - p.length)) else none

theorem stripSuffix_eq_some {p s r : Str} : stripSuffix p s = some r ↔ s = r ++ p := by
  unfold stripSuffix
  constructor
  · intro h
    split at h
    · rename_i hp
      obtain ⟨t, rfl⟩ := hp
      have ht : t = r := by simpa using h
      rw [ht]
    · cases h
  · rintro rfl
    simp

/-- `str::replace` of one character by another. -/
def replaceChar (a b : Char) (s : Str) : Str := s.map (fun c => if c = a then b else c)

theorem rsplitOnce_eq_none {c : Char} {s : Str} : rsplitOnce c s = none ↔ c ∉ s := by
  induction s with
  | nil => simp [rsplitOnce]
  | cons x xs ih =>
    simp only [rsplitOnce, List.mem_cons, not_or]
    cases h : rsplitOnce c xs with
    | none =>
      have hxs : c ∉ xs := ih.mp h
      by_cases hx : x = c
      · simp [hx]
      · simp [hx, hxs, Ne.symm hx]
    | some ab =>
      have hxs : c ∈ xs := by
        by_contra hn
        rw [ih.mpr hn] at h
        cases h
      simp [hxs]

/-- The split is at the last occurrence: the second part holds no separator. -/
theorem rsplitOnce_eq_some {c : Char} {s a b : Str} :
    rsplitOnce c s = some (a, b) ↔ s = a ++ c :: b ∧ c ∉ b := by
  induction s generalizing a with
  | nil => simp [rsplitOnce]
  | cons x xs ih =>
    simp only [rsplitOnce]
    cases h : rsplitOnce c xs with
    | none =>
      have hxs : c ∉ xs := rsplitOnce_eq_none.mp h
      by_cases hx : x = c
      · subst hx
        cases a with
        | nil =>
          constructor
          · intro he
            have hb : xs = b := by simpa using he
            exact ⟨by simp [hb], hb ▸ hxs⟩
          · rintro ⟨he, _⟩
            simpa using he
        | cons y ys =>
          constructor
          · intro he; simp at he
          · rintro ⟨he, _⟩
            have hx : xs = ys ++ x :: b := by simpa using (List.cons.inj he).2
            exact absurd (by simp [hx]) hxs
      · simp only [hx, if_false]
        constructor
        · intro he; cases he
        · rintro ⟨he, _⟩
          cases a with
          | nil => exact absurd (List.cons.inj he).1 hx
          | cons y ys =>
            have hy : xs = ys ++ c :: b := by simpa using (List.cons.inj he).2
            exact absurd (by simp [hy]) hxs
    | some ab =>
      obtain ⟨a', b'⟩ := ab
      have hxs : c ∈ xs := by
        by_contra hn
        rw [rsplitOnce_eq_none.mpr hn] at h
        cases h
      cases a with
      | nil =>
        constructor
        · intro he; simp at he
        · rintro ⟨he, hb⟩
          have : xs = b := by simpa using (List.cons.inj he).2
          exact absurd (this ▸ hxs) hb
      | cons y ys =>
        rw [h] at ih
        have hi := ih (a := ys)
        simp only [Option.some.injEq, Prod.mk.injEq] at hi
        simp only [Option.some.injEq, Prod.mk.injEq, List.cons.injEq, List.cons_append]
        constructor
        · rintro ⟨⟨rfl, rfl⟩, rfl⟩
          exact ⟨⟨rfl, (hi.mp ⟨rfl, rfl⟩).1⟩, (hi.mp ⟨rfl, rfl⟩).2⟩
        · rintro ⟨⟨rfl, he⟩, hb⟩
          obtain ⟨h1, h2⟩ := hi.mpr ⟨he, hb⟩
          exact ⟨⟨rfl, h1⟩, h2⟩

theorem mem_trimBy {p : Char → Bool} {s : Str} {c : Char} (h : c ∈ trimBy p s) : c ∈ s := by
  have hpre : trimBy p s <+: s.dropWhile p := List.rdropWhile_prefix p _
  exact (List.dropWhile_sublist p).subset (hpre.subset h)

theorem stripPrefix_eq_some {p s r : Str} : stripPrefix p s = some r ↔ s = p ++ r := by
  unfold stripPrefix
  constructor
  · intro h
    split at h
    · rename_i hp
      obtain ⟨t, rfl⟩ := hp
      simpa using h
    · cases h
  · rintro rfl
    simp

/-- No part of a text split at a separator holds the separator. -/
theorem not_mem_of_mem_splitOn {c : Char} {s part : Str} (h : part ∈ s.splitOn c) : c ∉ part := by
  induction s generalizing part with
  | nil => simp only [List.splitOn_nil, List.mem_singleton] at h; simp [h]
  | cons x xs ih =>
    rw [List.splitOn_cons_eq_if_modifyHead] at h
    split at h
    · rcases List.mem_cons.mp h with rfl | h
      · simp
      · exact ih h
    · rename_i hx
      cases hs : xs.splitOn c with
      | nil => exact absurd hs (List.splitOn_ne_nil c xs)
      | cons y ys =>
        rw [hs, List.modifyHead_cons] at h
        rcases List.mem_cons.mp h with rfl | h
        · have hy : c ∉ y := ih (by simp [hs])
          simp only [List.mem_cons, not_or]
          exact ⟨fun he => hx (by simp [he]), hy⟩
        · exact ih (by simp [hs, h])

/-- The parts of a text hold exactly its characters other than the separators. -/
theorem mem_splitOn_iff {c x : Char} (hx : x ≠ c) (s : Str) :
    x ∈ s ↔ ∃ part ∈ s.splitOn c, x ∈ part := by
  induction s with
  | nil => simp
  | cons y ys ih =>
    rw [List.splitOn_cons_eq_if_modifyHead]
    split
    · rename_i hy
      have hy : y = c := by simpa using hy
      simp [hy, hx, ih]
    · cases hs : ys.splitOn c with
      | nil => exact absurd hs (List.splitOn_ne_nil c ys)
      | cons z zs =>
        rw [hs] at ih
        have hz : x ∈ ys ↔ x ∈ z ∨ ∃ part ∈ zs, x ∈ part := by simpa using ih
        simp [hz, or_assoc]

/-- A text is recovered from its parts, so the parts determine the text. -/
theorem splitOn_injective (c : Char) : Function.Injective (List.splitOn c) := by
  intro s t h
  calc
    s = [c].intercalate (s.splitOn c) := (List.intercalate_splitOn c).symm
    _ = [c].intercalate (t.splitOn c) := by rw [h]
    _ = t := List.intercalate_splitOn c

end GraphqlOrmStorage.Text
