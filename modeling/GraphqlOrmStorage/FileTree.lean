import GraphqlOrmStorage.Text
import GraphqlOrmStorage.Program

/-!
# A POSIX-like file tree

Paths are lists of names below one root directory, which always exists. A tree
is a finite list of entries in which every entry's parent is a directory; the
invariant is a field, so a tree with a dangling entry or with a file above
another entry cannot be written down. Each function below is one filesystem
call: it returns the call's result and the tree afterwards, and a failing call
reports the kind the standard library maps the `errno` to.

A handle is not modelled apart from its path. `File::open` therefore replies
with the opened node itself, and writes through an open handle go to the path
the handle was created at; they are lost when that path no longer names a file.
-/
namespace GraphqlOrmStorage

open Text

abbrev Bytes := List UInt8
abbrev Path := List Str

/-- The members of `std::io::ErrorKind` that the modelled code or its callees meet. -/
inductive ErrorKind where
  | notFound | alreadyExists | notADirectory | isADirectory | invalidFilename | invalidInput
  | fileTooLarge | permissionDenied | timedOut | connectionAborted | connectionReset | brokenPipe
  | notConnected | unexpectedEof | storageFull | quotaExceeded | other
  deriving DecidableEq, Repr

/-- What a name below a directory can be on a POSIX filesystem. -/
def LegalName (c : Str) : Prop :=
  c ≠ [] ∧ c ≠ ['.'] ∧ c ≠ ['.', '.'] ∧ '/' ∉ c ∧ '\x00' ∉ c

instance (c : Str) : Decidable (LegalName c) := inferInstanceAs (Decidable (_ ∧ _))

/-- The bounds of one filesystem: the names it takes (`NAME_MAX` and the like) and
the largest file it holds. File offsets are signed 64-bit numbers. -/
structure Limits where
  acceptsName : Str → Bool
  maxFileSize : ℕ
  legal : ∀ c, acceptsName c → LegalName c
  offset_bound : maxFileSize < 2 ^ 63

/-- The offsets go up to this one. -/
theorem Limits.largestOffset_lt : 2 ^ 63 - 1 < 2 ^ 63 := by omega

/-- A filesystem that takes every legal name. -/
def Limits.AnyName (l : Limits) : Prop := ∀ c, LegalName c → l.acceptsName c

/-- Every legal name, and files up to the largest offset. -/
def Limits.widest : Limits where
  acceptsName c := decide (LegalName c)
  maxFileSize := 2 ^ 63 - 1
  legal := fun c h => by simpa using h
  offset_bound := largestOffset_lt

inductive Node where
  | dir
  | file (content : Bytes) (modified : ℤ)
  deriving DecidableEq, Repr

structure FileTree where
  limits : Limits
  entries : List (Path × Node)
  nodup : (entries.map Prod.fst).Nodup
  nonempty : ∀ e ∈ entries, e.1 ≠ []
  accepted : ∀ e ∈ entries, ∀ c ∈ e.1, limits.acceptsName c
  parent : ∀ e ∈ entries, e.1.dropLast ≠ [] → (e.1.dropLast, Node.dir) ∈ entries

namespace FileTree

/-- The root directory and nothing in it. -/
def empty (limits : Limits) : FileTree where
  limits := limits
  entries := []
  nodup := by simp
  nonempty := by simp
  accepted := by simp
  parent := by simp

def lookup (t : FileTree) (p : Path) : Option Node :=
  if p = [] then some .dir else t.entries.lookup p

/-- The content of the regular file at a path. -/
def files (t : FileTree) (p : Path) : Option Bytes :=
  match t.lookup p with
  | some (.file b _) => some b
  | _ => none

@[simp] theorem lookup_nil (t : FileTree) : t.lookup [] = some .dir := by simp [lookup]

@[simp] theorem files_nil (t : FileTree) : t.files [] = none := by simp [files]

@[simp] theorem lookup_empty (l : Limits) {p : Path} (hp : p ≠ []) :
    (empty l).lookup p = none := by simp [lookup, empty, hp]

@[simp] theorem files_empty (l : Limits) (p : Path) : (empty l).files p = none := by
  by_cases hp : p = [] <;> simp [files, hp]

theorem files_eq_some {t : FileTree} {p : Path} {b : Bytes} :
    t.files p = some b ↔ ∃ m, t.lookup p = some (.file b m) := by
  unfold files
  split
  · rename_i b' m h
    constructor
    · intro he; exact ⟨m, by simp_all⟩
    · rintro ⟨m', h'⟩; simp_all
  · rename_i h
    constructor
    · intro he; cases he
    · rintro ⟨m, h'⟩; exact absurd h' (h b m)

theorem files_of_lookup_dir {t : FileTree} {p : Path} (h : t.lookup p = some .dir) :
    t.files p = none := by simp [files, h]

theorem files_of_lookup_none {t : FileTree} {p : Path} (h : t.lookup p = none) :
    t.files p = none := by simp [files, h]

/-- Membership of the entry list is what `lookup` reports below the root. -/
theorem mem_entries_iff (t : FileTree) (p : Path) (n : Node) :
    (p, n) ∈ t.entries ↔ p ≠ [] ∧ t.lookup p = some n := by
  have hgen : ∀ l : List (Path × Node), (l.map Prod.fst).Nodup →
      ((p, n) ∈ l ↔ l.lookup p = some n) := by
    intro l hl
    induction l with
    | nil => simp
    | cons e l ih =>
      obtain ⟨q, m⟩ := e
      have hq : q ∉ l.map Prod.fst := (List.nodup_cons.mp hl).1
      have hl' := (List.nodup_cons.mp hl).2
      by_cases he : p = q
      · subst he
        have hnot : (p, n) ∉ l := fun h => hq (List.mem_map.mpr ⟨(p, n), h, rfl⟩)
        simp [hnot, eq_comm]
      · have hb : (p == q) = false := by simpa using he
        simp [List.lookup_cons, hb, he, ih hl']
  constructor
  · intro h
    have hp := t.nonempty _ h
    exact ⟨hp, by rw [lookup, if_neg hp]; exact (hgen _ t.nodup).mp h⟩
  · rintro ⟨hp, h⟩
    rw [lookup, if_neg hp] at h
    exact (hgen _ t.nodup).mpr h

/-- Every name on an existing path is one the filesystem takes. -/
theorem accepted_of_lookup {t : FileTree} {p : Path} {n : Node} (h : t.lookup p = some n) :
    ∀ c ∈ p, t.limits.acceptsName c := by
  by_cases hp : p = []
  · simp [hp]
  · exact t.accepted _ ((t.mem_entries_iff p n).mpr ⟨hp, h⟩)

theorem lookup_dropLast {t : FileTree} {p : Path} {n : Node} (hp : p ≠ [])
    (h : t.lookup p = some n) : t.lookup p.dropLast = some .dir := by
  by_cases hd : p.dropLast = []
  · simp [hd]
  · have hm := t.parent _ ((t.mem_entries_iff p n).mpr ⟨hp, h⟩) hd
    exact ((t.mem_entries_iff _ _).mp hm).2

/-- Everything above an existing path is a directory. -/
theorem lookup_ancestor {t : FileTree} {p rest : Path} {n : Node} (hr : rest ≠ [])
    (h : t.lookup (p ++ rest) = some n) : t.lookup p = some .dir := by
  induction rest using List.reverseRecOn generalizing n with
  | nil => exact absurd rfl hr
  | append_singleton rest c ih =>
    have hd : t.lookup (p ++ rest) = some .dir := by
      have := lookup_dropLast (by simp) h
      rwa [← List.append_assoc, List.dropLast_concat] at this
    by_cases he : rest = []
    · simpa [he] using hd
    · exact ih he hd

/-- A new entry may be written at a path: its parent is a directory, the name is
taken by the filesystem and no directory is in the way. -/
def CanPlace (t : FileTree) (p : Path) : Prop :=
  p ≠ [] ∧ (∀ c ∈ p, t.limits.acceptsName c) ∧ t.lookup p.dropLast = some .dir ∧
    t.lookup p ≠ some .dir

instance (t : FileTree) (p : Path) : Decidable (t.CanPlace p) :=
  inferInstanceAs (Decidable (_ ∧ _))

/-- Write `n` at `p`, replacing a file that may be there. -/
def insertNode (t : FileTree) (p : Path) (n : Node) (h : t.CanPlace p) : FileTree where
  limits := t.limits
  entries := (p, n) :: t.entries.filter (fun e => e.1 ≠ p)
  nodup := by
    simp only [List.map_cons, List.nodup_cons]
    refine ⟨by simp, ?_⟩
    exact t.nodup.sublist (List.filter_sublist.map _)
  nonempty := by
    intro e he
    rcases List.mem_cons.mp he with rfl | he
    · exact h.1
    · exact t.nonempty e (List.mem_filter.mp he).1
  accepted := by
    intro e he
    rcases List.mem_cons.mp he with rfl | he
    · exact h.2.1
    · exact t.accepted e (List.mem_filter.mp he).1
  parent := by
    intro e he hne
    rcases List.mem_cons.mp he with rfl | he
    · have hm := (t.mem_entries_iff _ _).mpr ⟨hne, h.2.2.1⟩
      have hlen : p.dropLast ≠ p := fun heq => by
        have := congrArg List.length heq
        have := List.length_pos_iff.mpr h.1
        simp only [List.length_dropLast] at *
        omega
      exact List.mem_cons_of_mem _ (List.mem_filter.mpr ⟨hm, by simpa using hlen⟩)
    · have hm := t.parent e (List.mem_filter.mp he).1 hne
      have hp : e.1.dropLast ≠ p := fun heq => by
        rw [heq] at hm
        exact h.2.2.2 ((t.mem_entries_iff _ _).mp hm).2
      exact List.mem_cons_of_mem _ (List.mem_filter.mpr ⟨hm, by simpa using hp⟩)

/-- Remove the entry at `p`, which is not a directory. -/
def eraseNode (t : FileTree) (p : Path) (h : t.lookup p ≠ some .dir) : FileTree where
  limits := t.limits
  entries := t.entries.filter (fun e => e.1 ≠ p)
  nodup := t.nodup.sublist (List.filter_sublist.map _)
  nonempty := fun e he => t.nonempty e (List.mem_filter.mp he).1
  accepted := fun e he => t.accepted e (List.mem_filter.mp he).1
  parent := by
    intro e he hne
    have hm := t.parent e (List.mem_filter.mp he).1 hne
    have hp : e.1.dropLast ≠ p := fun heq => by
      rw [heq] at hm
      exact h ((t.mem_entries_iff _ _).mp hm).2
    exact List.mem_filter.mpr ⟨hm, by simpa using hp⟩

@[simp] theorem limits_insertNode (t : FileTree) (p : Path) (n : Node) (h : t.CanPlace p) :
    (t.insertNode p n h).limits = t.limits := rfl

@[simp] theorem limits_eraseNode (t : FileTree) (p : Path) (h : t.lookup p ≠ some .dir) :
    (t.eraseNode p h).limits = t.limits := rfl

lemma lookup_filter_ne (l : List (Path × Node)) (p q : Path) :
    (l.filter (fun e => e.1 ≠ p)).lookup q = if q = p then none else l.lookup q := by
  induction l with
  | nil => simp
  | cons e l ih =>
    obtain ⟨r, n⟩ := e
    by_cases hr : r = p
    · rw [List.filter_cons_of_neg (by simpa using hr), ih, List.lookup_cons]
      by_cases hq : q = p
      · simp [hq]
      · have hb : (q == r) = false := by simpa [hr] using hq
        simp [hq, hb]
    · rw [List.filter_cons_of_pos (by simpa using hr), List.lookup_cons, List.lookup_cons, ih]
      by_cases hq : q = p
      · have hb : (p == r) = false := by simpa using Ne.symm hr
        simp [hq, hb]
      · simp [hq]

@[simp] theorem lookup_insertNode (t : FileTree) (p : Path) (n : Node) (h : t.CanPlace p)
    (q : Path) : (t.insertNode p n h).lookup q = if q = p then some n else t.lookup q := by
  by_cases hq : q = []
  · subst hq
    simp [Ne.symm h.1]
  · simp only [lookup, hq, if_false, insertNode, List.lookup_cons]
    by_cases hqp : q = p
    · simp [hqp]
    · have hb : (q == p) = false := by simpa using hqp
      simp only [hb, lookup_filter_ne, if_neg hqp]

@[simp] theorem lookup_eraseNode (t : FileTree) (p : Path) (h : t.lookup p ≠ some .dir)
    (q : Path) : (t.eraseNode p h).lookup q = if q = p then none else t.lookup q := by
  have hp : p ≠ [] := fun he => h (by simp [he])
  by_cases hq : q = []
  · subst hq
    simp [Ne.symm hp]
  · simp only [lookup, hq, if_false, eraseNode, lookup_filter_ne]

@[simp] theorem files_insertNode (t : FileTree) (p : Path) (b : Bytes) (m : ℤ)
    (h : t.CanPlace p) : (t.insertNode p (.file b m) h).files = Function.update t.files p b := by
  funext q
  by_cases hq : q = p
  · subst hq; simp [files]
  · simp [files, hq]

@[simp] theorem files_eraseNode (t : FileTree) (p : Path) (h : t.lookup p ≠ some .dir) :
    (t.eraseNode p h).files = Function.update t.files p none := by
  funext q
  by_cases hq : q = p
  · subst hq; simp [files]
  · simp [files, hq]

def isDir (t : FileTree) (p : Path) : Bool := t.lookup p = some .dir

theorem isDir_iff {t : FileTree} {p : Path} : t.isDir p = true ↔ t.lookup p = some .dir := by
  simp [isDir]

/-- A path names nothing exactly when it names neither a file nor a directory. -/
theorem lookup_eq_none_iff {t : FileTree} {p : Path} :
    t.lookup p = none ↔ t.files p = none ∧ t.isDir p = false := by
  unfold files isDir
  rcases h : t.lookup p with _ | (_ | ⟨b, m⟩) <;> simp

@[simp] theorem isDir_insertNode_file (t : FileTree) (p : Path) (b : Bytes) (m : ℤ)
    (h : t.CanPlace p) : (t.insertNode p (.file b m) h).isDir = t.isDir := by
  funext q
  by_cases hq : q = p
  · subst hq; simp [isDir, h.2.2.2]
  · simp [isDir, hq]

@[simp] theorem isDir_eraseNode (t : FileTree) (p : Path) (h : t.lookup p ≠ some .dir) :
    (t.eraseNode p h).isDir = t.isDir := by
  funext q
  by_cases hq : q = p
  · subst hq; simp [isDir, h]
  · simp [isDir, hq]

theorem canPlace_iff {t : FileTree} {p : Path} :
    t.CanPlace p ↔ p ≠ [] ∧ (∀ c ∈ p, t.limits.acceptsName c) ∧ t.isDir p.dropLast ∧
      t.isDir p = false := by
  simp [CanPlace, isDir]

theorem canPlace_of_files {t : FileTree} {p : Path} {b : Bytes} (h : t.files p = some b) :
    t.CanPlace p := by
  obtain ⟨m, hm⟩ := files_eq_some.mp h
  have hp : p ≠ [] := by rintro rfl; simp at hm
  exact ⟨hp, accepted_of_lookup hm, lookup_dropLast hp hm, by simp [hm]⟩

/-! ### The calls -/

/-- Why a path does not resolve: the first component that is missing decides. -/
def resolveErrorFrom (t : FileTree) (base : Path) : Path → ErrorKind
  | [] => .notFound
  | c :: cs => match t.lookup (base ++ [c]) with
    | some .dir => resolveErrorFrom t (base ++ [c]) cs
    | some (.file _ _) => .notADirectory
    | none => if t.limits.acceptsName c then .notFound else .invalidFilename

def resolveError (t : FileTree) (p : Path) : ErrorKind := t.resolveErrorFrom [] p

/-- Why no entry can be written at a path. -/
def placeError (t : FileTree) (p : Path) : ErrorKind :=
  if t.lookup p = some .dir then .isADirectory else t.resolveError p

/-- `stat`. -/
def metadata (t : FileTree) (p : Path) : Except ErrorKind Node :=
  match t.lookup p with
  | some n => .ok n
  | none => .error (t.resolveError p)

/-- `read` of a whole file; a directory opens but does not read. -/
def readFile (t : FileTree) (p : Path) : Except ErrorKind Bytes :=
  match t.lookup p with
  | some (.file b _) => .ok b
  | some .dir => .error .isADirectory
  | none => .error (t.resolveError p)

/-- `read_dir`: the entries of a directory, in no particular order. -/
def readDir (t : FileTree) (p : Path) : Except ErrorKind (List Path) :=
  match t.lookup p with
  | some .dir => .ok ((t.entries.map Prod.fst).filter fun q => q.dropLast = p)
  | some (.file _ _) => .error .notADirectory
  | none => .error (t.resolveError p)

/-- `create_dir_all` below an existing directory `base`: missing directories are made
one by one, and those already made stay when a later one cannot be. -/
def createDirsFrom (t : FileTree) (base : Path) : Path → Except ErrorKind Unit × FileTree
  | [] => (.ok (), t)
  | c :: cs => match t.lookup (base ++ [c]) with
    | some .dir => createDirsFrom t (base ++ [c]) cs
    | some (.file _ _) => (.error (if cs = [] then .alreadyExists else .notADirectory), t)
    | none =>
      if h : t.CanPlace (base ++ [c]) then
        createDirsFrom (t.insertNode (base ++ [c]) .dir h) (base ++ [c]) cs
      else (.error .invalidFilename, t)

def createDirAll (t : FileTree) (p : Path) : Except ErrorKind Unit × FileTree :=
  t.createDirsFrom [] p

/-- `open` for writing with creation and truncation. -/
def createFile (t : FileTree) (p : Path) (now : ℤ) : Except ErrorKind Unit × FileTree :=
  if h : t.CanPlace p then (.ok (), t.insertNode p (.file [] now) h)
  else (.error (t.placeError p), t)

/-- Append through the handle created at `p`. What exceeds the largest file size is
not written and the call fails. -/
def append (t : FileTree) (p : Path) (b : Bytes) (now : ℤ) : Except ErrorKind Unit × FileTree :=
  match t.files p with
  | none => (.ok (), t)
  | some old =>
    let content := (old ++ b).take t.limits.maxFileSize
    let t' := if h : t.CanPlace p then t.insertNode p (.file content now) h else t
    if old.length + b.length ≤ t.limits.maxFileSize then (.ok (), t')
    else (.error .fileTooLarge, t')

/-- `open` with truncation and a single write of the whole content. -/
def writeFile (t : FileTree) (p : Path) (b : Bytes) (now : ℤ) : Except ErrorKind Unit × FileTree :=
  match t.createFile p now with
  | (.ok (), t') => t'.append p b now
  | (.error e, t') => (.error e, t')

/-- `rename` of a regular file, replacing a regular file at the destination. Renaming
a directory is not needed here and is refused. -/
def rename (t : FileTree) (src dst : Path) : Except ErrorKind Unit × FileTree :=
  match t.lookup src with
  | none => (.error (t.resolveError src), t)
  | some .dir => (.error .isADirectory, t)
  | some (.file b m) =>
    if h : t.CanPlace dst then
      if src = dst then (.ok (), t)
      else
        let t' := t.insertNode dst (.file b m) h
        (.ok (), if hs : t'.lookup src ≠ some .dir then t'.eraseNode src hs else t')
    else (.error (t.placeError dst), t)

/-- `link`: a second name for a regular file, never replacing anything. -/
def hardLink (t : FileTree) (src dst : Path) : Except ErrorKind Unit × FileTree :=
  match t.lookup src with
  | none => (.error (t.resolveError src), t)
  | some .dir => (.error .permissionDenied, t)
  | some (.file b m) =>
    if (t.lookup dst).isSome then (.error .alreadyExists, t)
    else if h : t.CanPlace dst then (.ok (), t.insertNode dst (.file b m) h)
    else (.error (t.placeError dst), t)

/-- `unlink`. -/
def removeFile (t : FileTree) (p : Path) : Except ErrorKind Unit × FileTree :=
  match t.lookup p with
  | none => (.error (t.resolveError p), t)
  | some .dir => (.error .isADirectory, t)
  | some (.file _ _) =>
    (.ok (), if h : t.lookup p ≠ some .dir then t.eraseNode p h else t)

/-- `std::fs::copy`: open the source, insist on a regular file, truncate the target
and copy. A file copied onto itself is truncated first and so ends up empty. -/
def copyFile (t : FileTree) (src dst : Path) (now : ℤ) : Except ErrorKind ℕ × FileTree :=
  match t.lookup src with
  | none => (.error (t.resolveError src), t)
  | some .dir => (.error .invalidInput, t)
  | some (.file b _) =>
    if h : t.CanPlace dst then
      (.ok (if src = dst then [] else b).length,
        t.insertNode dst (.file (if src = dst then [] else b) now) h)
    else (.error (t.placeError dst), t)

/-! ### What each call does to the files and directories of the tree -/

/-- The two trees have the same directories and the same limits. -/
def SameDirs (t t' : FileTree) : Prop := t'.isDir = t.isDir ∧ t'.limits = t.limits

theorem SameDirs.refl (t : FileTree) : SameDirs t t := ⟨rfl, rfl⟩

theorem SameDirs.trans {t₁ t₂ t₃ : FileTree} (h₁ : SameDirs t₁ t₂) (h₂ : SameDirs t₂ t₃) :
    SameDirs t₁ t₃ := ⟨h₂.1.trans h₁.1, h₂.2.trans h₁.2⟩

theorem SameDirs.canPlace {t t' : FileTree} (h : SameDirs t t') {p : Path} :
    t'.CanPlace p ↔ t.CanPlace p := by
  rw [canPlace_iff, canPlace_iff, h.1, h.2]

theorem createFile_of_canPlace {t : FileTree} {p : Path} (h : t.CanPlace p) (now : ℤ) :
    (t.createFile p now).1 = .ok () ∧
      (t.createFile p now).2.files = Function.update t.files p (some []) ∧
      SameDirs t (t.createFile p now).2 := by
  simp only [createFile, dif_pos h]
  exact ⟨trivial, files_insertNode .., isDir_insertNode_file .., rfl⟩

theorem createFile_of_not_canPlace {t : FileTree} {p : Path} (h : ¬ t.CanPlace p) (now : ℤ) :
    t.createFile p now = (.error (t.placeError p), t) := by
  simp only [createFile, dif_neg h]

theorem append_files {t : FileTree} {p : Path} {old : Bytes} (h : t.files p = some old)
    (b : Bytes) (now : ℤ) :
    (t.append p b now).2.files =
        Function.update t.files p (some ((old ++ b).take t.limits.maxFileSize)) ∧
      SameDirs t (t.append p b now).2 := by
  have hc := canPlace_of_files h
  simp only [append, h, dif_pos hc]
  split_ifs <;> exact ⟨files_insertNode t p _ now hc, isDir_insertNode_file t p _ now hc, rfl⟩

theorem append_result {t : FileTree} {p : Path} {old : Bytes} (h : t.files p = some old)
    (b : Bytes) (now : ℤ) :
    (t.append p b now).1 =
      if old.length + b.length ≤ t.limits.maxFileSize then .ok () else .error .fileTooLarge := by
  simp only [append, h]
  split_ifs <;> rfl

theorem rename_of_canPlace {t : FileTree} {src dst : Path} {b : Bytes} (hs : t.files src = some b)
    (hd : t.CanPlace dst) (hne : src ≠ dst) :
    (t.rename src dst).1 = .ok () ∧
      (t.rename src dst).2.files = Function.update (Function.update t.files dst (some b)) src none ∧
      SameDirs t (t.rename src dst).2 := by
  obtain ⟨m, hm⟩ := files_eq_some.mp hs
  have hsrc : (t.insertNode dst (.file b m) hd).lookup src ≠ some .dir := by simp [hne, hm]
  simp only [rename, hm, dif_pos hd, if_neg hne, dif_pos hsrc]
  exact ⟨trivial, by simp, by simp, rfl⟩

/-- A failing `rename` changes nothing. -/
theorem rename_error {t : FileTree} {src dst : Path} {e : ErrorKind}
    (h : (t.rename src dst).1 = .error e) : (t.rename src dst).2 = t := by
  unfold rename at *
  split at h
  · rfl
  · rfl
  · split_ifs at h ⊢
    rfl

/-- A `rename` succeeds only from a regular file to a place that can be written. -/
theorem rename_ok {t : FileTree} {src dst : Path} (h : (t.rename src dst).1 = .ok ()) :
    ∃ b, t.files src = some b ∧ t.CanPlace dst := by
  unfold rename at h
  split at h
  · cases h
  · cases h
  · rename_i b m hm
    split_ifs at h with hd
    · exact ⟨b, files_eq_some.mpr ⟨m, hm⟩, hd⟩
    · exact ⟨b, files_eq_some.mpr ⟨m, hm⟩, hd⟩

theorem hardLink_of_canPlace {t : FileTree} {src dst : Path} {b : Bytes}
    (hs : t.files src = some b) (hd : t.CanPlace dst) (hn : t.files dst = none) :
    (t.hardLink src dst).1 = .ok () ∧
      (t.hardLink src dst).2.files = Function.update t.files dst (some b) ∧
      SameDirs t (t.hardLink src dst).2 := by
  obtain ⟨m, hm⟩ := files_eq_some.mp hs
  have hnone : t.lookup dst = none := lookup_eq_none_iff.mpr ⟨hn, (canPlace_iff.mp hd).2.2.2⟩
  simp only [hardLink, hm, hnone, dif_pos hd, Option.isSome_none, Bool.false_eq_true, if_false]
  exact ⟨trivial, files_insertNode .., isDir_insertNode_file .., rfl⟩

/-- A failing `link` changes nothing. -/
theorem hardLink_error {t : FileTree} {src dst : Path} {e : ErrorKind}
    (h : (t.hardLink src dst).1 = .error e) : (t.hardLink src dst).2 = t := by
  unfold hardLink at *
  split at h
  · rfl
  · rfl
  · split_ifs at h ⊢ <;> rfl

/-- A `link` succeeds only where nothing was before. -/
theorem hardLink_ok {t : FileTree} {src dst : Path} (h : (t.hardLink src dst).1 = .ok ()) :
    ∃ b, t.files src = some b ∧ t.CanPlace dst ∧ t.files dst = none := by
  unfold hardLink at h
  split at h
  · cases h
  · cases h
  · rename_i b m hm
    split_ifs at h with he hd
    refine ⟨b, files_eq_some.mpr ⟨m, hm⟩, hd, ?_⟩
    exact files_of_lookup_none (by simpa using he)

theorem removeFile_of_files {t : FileTree} {p : Path} {b : Bytes} (h : t.files p = some b) :
    (t.removeFile p).1 = .ok () ∧ (t.removeFile p).2.files = Function.update t.files p none ∧
      SameDirs t (t.removeFile p).2 := by
  obtain ⟨m, hm⟩ := files_eq_some.mp h
  have hd : t.lookup p ≠ some .dir := by simp [hm]
  simp only [removeFile, hm, ne_eq, reduceCtorEq, Option.some.injEq, not_false_eq_true, dite_true]
  exact ⟨trivial, files_eraseNode _ _ hd, isDir_eraseNode _ _ hd, rfl⟩

/-- Removing what is not a regular file fails and changes nothing. -/
theorem removeFile_of_no_file {t : FileTree} {p : Path} (h : t.files p = none) :
    (∃ e, (t.removeFile p).1 = .error e) ∧ (t.removeFile p).2 = t := by
  unfold removeFile
  split
  · exact ⟨⟨_, rfl⟩, rfl⟩
  · exact ⟨⟨_, rfl⟩, rfl⟩
  · rename_i b m hm
    rw [files_eq_some.mpr ⟨m, hm⟩] at h
    cases h

/-- Whether or not the removal succeeds, no regular file is left at the path, and
nothing else changes. -/
theorem removeFile_files (t : FileTree) (p : Path) :
    (t.removeFile p).2.files = Function.update t.files p none ∧
      SameDirs t (t.removeFile p).2 := by
  cases h : t.files p with
  | some b => exact (removeFile_of_files h).2
  | none =>
    rw [(removeFile_of_no_file h).2, ← h, Function.update_eq_self]
    exact ⟨rfl, SameDirs.refl t⟩

theorem copyFile_of_canPlace {t : FileTree} {src dst : Path} {b : Bytes}
    (hs : t.files src = some b) (hd : t.CanPlace dst) (hne : src ≠ dst) (now : ℤ) :
    (t.copyFile src dst now).1 = .ok b.length ∧
      (t.copyFile src dst now).2.files = Function.update t.files dst (some b) ∧
      SameDirs t (t.copyFile src dst now).2 := by
  obtain ⟨m, hm⟩ := files_eq_some.mp hs
  simp only [copyFile, hm, if_neg hne, dif_pos hd]
  exact ⟨trivial, files_insertNode .., isDir_insertNode_file .., rfl⟩

theorem copyFile_error {t : FileTree} {src dst : Path} {now : ℤ} {e : ErrorKind}
    (h : (t.copyFile src dst now).1 = .error e) : (t.copyFile src dst now).2 = t := by
  unfold copyFile at *
  split at h
  · rfl
  · rfl
  · split_ifs at h ⊢
    rfl

theorem copyFile_ok {t : FileTree} {src dst : Path} {now : ℤ} {n : ℕ}
    (h : (t.copyFile src dst now).1 = .ok n) :
    ∃ b, t.files src = some b ∧ t.CanPlace dst := by
  unfold copyFile at h
  split at h
  · cases h
  · cases h
  · rename_i b m hm
    by_cases hd : t.CanPlace dst
    · exact ⟨b, files_eq_some.mpr ⟨m, hm⟩, hd⟩
    · simp [hd] at h

/-- A successful copy, even of a file onto itself, changes the files at its target only. -/
theorem copyFile_files {t : FileTree} {src dst : Path} {now : ℤ} {n : ℕ}
    (h : (t.copyFile src dst now).1 = .ok n) :
    (∃ content, (t.copyFile src dst now).2.files = Function.update t.files dst content) ∧
      SameDirs t (t.copyFile src dst now).2 := by
  obtain ⟨b, hb, hc⟩ := copyFile_ok h
  obtain ⟨m, hm⟩ := files_eq_some.mp hb
  simp only [copyFile, hm, dif_pos hc]
  exact ⟨⟨_, files_insertNode ..⟩, isDir_insertNode_file .., rfl⟩

theorem readFile_eq_ok {t : FileTree} {p : Path} {b : Bytes} :
    t.readFile p = .ok b ↔ t.files p = some b := by
  unfold readFile files
  rcases t.lookup p with _ | (_ | ⟨b, m⟩) <;> simp

theorem metadata_eq_ok {t : FileTree} {p : Path} {n : Node} :
    t.metadata p = .ok n ↔ t.lookup p = some n := by
  unfold metadata
  rcases t.lookup p with _ | n <;> simp

/-! ### Why a path does not resolve -/

theorem isDir_of_isDir_append {t : FileTree} {p rest : Path} (h : t.isDir (p ++ rest) = true) :
    t.isDir p = true := by
  by_cases hr : rest = []
  · simpa [hr] using h
  · exact isDir_iff.mpr (lookup_ancestor hr (isDir_iff.mp h))

/-- Directories on the way are walked through. -/
theorem resolveErrorFrom_append {t : FileTree} {base front rest : Path}
    (h : t.isDir (base ++ front) = true) :
    t.resolveErrorFrom base (front ++ rest) = t.resolveErrorFrom (base ++ front) rest := by
  induction front generalizing base with
  | nil => simp
  | cons c front ih =>
    rw [List.append_cons] at h ⊢
    have hdir := isDir_iff.mp (isDir_of_isDir_append h)
    rw [← ih h, List.cons_append, resolveErrorFrom, hdir]

/-- A path that names nothing has a first part at which no directory is. -/
theorem exists_first_missing {t : FileTree} {base path : Path} (hb : t.isDir base = true)
    (hnone : t.lookup (base ++ path) = none) : ∃ front c back, path = front ++ c :: back ∧
      t.isDir (base ++ front) = true ∧ t.isDir (base ++ front ++ [c]) = false := by
  induction path generalizing base with
  | nil =>
    rw [List.append_nil, isDir_iff.mp hb] at hnone
    cases hnone
  | cons c cs ih =>
    cases hdir : t.isDir (base ++ [c]) with
    | false => exact ⟨[], c, cs, rfl, by simpa using hb, by simpa using hdir⟩
    | true =>
      obtain ⟨front, d, back, heq, hfront, hd⟩ := ih hdir (by simpa using hnone)
      exact ⟨c :: front, d, back, by rw [heq, List.cons_append], by simpa using hfront,
        by simpa using hd⟩

/-- A path resolves to nothing, and is reported so, exactly when its first missing name is one
the filesystem takes. -/
theorem resolveError_eq_notFound_iff {t : FileTree} {path : Path} :
    t.lookup path = none ∧ t.resolveError path = .notFound ↔ ∃ front c back,
      path = front ++ c :: back ∧ t.isDir front = true ∧ t.lookup (front ++ [c]) = none ∧
        t.limits.acceptsName c := by
  have hroot : t.isDir [] = true := isDir_iff.mpr t.lookup_nil
  constructor
  · intro h
    obtain ⟨hnone, herr⟩ := h
    obtain ⟨front, c, back, heq, hfront, hc⟩ := exists_first_missing hroot hnone
    rw [resolveError, heq, resolveErrorFrom_append hfront, resolveErrorFrom] at herr
    cases hl : t.lookup (front ++ [c]) with
    | some n =>
      cases n with
      | dir => simp [isDir, hl] at hc
      | file b m => simp [hl] at herr
    | none =>
      have hacc : t.limits.acceptsName c = true := by
        by_contra hacc
        simp [hl, hacc] at herr
      exact ⟨front, c, back, heq, hfront, hl, hacc⟩
  · intro h
    obtain ⟨front, c, back, heq, hfront, hl, hacc⟩ := h
    constructor
    · cases hpath : t.lookup path with
      | none => rfl
      | some n =>
        rw [heq, List.append_cons] at hpath
        by_cases hback : back = []
        · rw [hback, List.append_nil, hl] at hpath
          cases hpath
        · rw [lookup_ancestor hback hpath] at hl
          cases hl
    · rw [resolveError, heq, resolveErrorFrom_append (by simpa using hfront), resolveErrorFrom]
      simp [hl, hacc]

/-! ### Trees that answer alike -/

/-- Two trees answer alike about a path: the same content, a directory in both, or nothing in
both and for the same reason. -/
structure Alike (t t' : FileTree) (p : Path) : Prop where
  files : t'.files p = t.files p
  isDir : t'.isDir p = t.isDir p
  resolveError : t'.resolveError p = t.resolveError p

theorem Alike.lookup_none {t t' : FileTree} {p : Path} (h : Alike t t' p) :
    t'.lookup p = none ↔ t.lookup p = none := by
  rw [lookup_eq_none_iff, lookup_eq_none_iff, h.files, h.isDir]

theorem Alike.readFile {t t' : FileTree} {p : Path} (h : Alike t t' p) :
    t'.readFile p = t.readFile p := by
  cases hl : t.lookup p with
  | none => rw [FileTree.readFile, FileTree.readFile, hl, h.lookup_none.mpr hl, h.resolveError]
  | some n =>
    cases n with
    | dir =>
      rw [FileTree.readFile, FileTree.readFile, hl,
        isDir_iff.mp (h.isDir.trans (isDir_iff.mpr hl))]
    | file b m =>
      have hb : t.files p = some b := files_eq_some.mpr ⟨m, hl⟩
      rw [readFile_eq_ok.mpr hb, readFile_eq_ok.mpr (h.files.trans hb)]

theorem SameDirs.lookup_none {t t' : FileTree} (hd : SameDirs t t') {p : Path}
    (hf : t'.files p = none ↔ t.files p = none) : t'.lookup p = none ↔ t.lookup p = none := by
  rw [lookup_eq_none_iff, lookup_eq_none_iff, hf, hd.1]

/-- What a path resolves to depends on the kinds of the entries on the way. -/
theorem resolveErrorFrom_congr {t t' : FileTree} (hd : SameDirs t t') {base path : Path}
    (h : ∀ q, q <+: path → (t'.files (base ++ q) = none ↔ t.files (base ++ q) = none)) :
    t'.resolveErrorFrom base path = t.resolveErrorFrom base path := by
  induction path generalizing base with
  | nil => rfl
  | cons c cs ih =>
    have hc := h [c] ⟨cs, rfl⟩
    have hdir : t'.isDir (base ++ [c]) = t.isDir (base ++ [c]) := congrFun hd.1 _
    have hrest : t'.resolveErrorFrom (base ++ [c]) cs = t.resolveErrorFrom (base ++ [c]) cs := by
      apply ih
      intro q hq
      obtain ⟨rest, rfl⟩ := hq
      simpa using h (c :: q) ⟨rest, rfl⟩
    have hnone := hd.lookup_none hc
    simp only [resolveErrorFrom]
    cases hl : t.lookup (base ++ [c]) with
    | none => rw [hnone.mpr hl, hd.2]
    | some n =>
      cases n with
      | dir => rw [isDir_iff.mp (hdir.trans (isDir_iff.mpr hl)), hrest]
      | file b m =>
        have hfile : t'.files (base ++ [c]) ≠ none := by
          intro hf
          rw [hc, files_eq_some.mpr ⟨m, hl⟩] at hf
          cases hf
        obtain ⟨b', hb'⟩ := Option.ne_none_iff_exists'.mp hfile
        obtain ⟨m', hl'⟩ := files_eq_some.mp hb'
        rw [hl']

theorem SameDirs.alike {t t' : FileTree} (hd : SameDirs t t') {p : Path}
    (hf : t'.files p = t.files p)
    (h : ∀ q, q <+: p → q ≠ p → (t'.files q = none ↔ t.files q = none)) : Alike t t' p := by
  refine ⟨hf, congrFun hd.1 p, resolveErrorFrom_congr hd fun q hq => ?_⟩
  rw [List.nil_append]
  by_cases hqp : q = p
  · rw [hqp, hf]
  · exact h q hq hqp

/-- Where the directory of the path exists, only the entry at the path itself matters. -/
theorem SameDirs.alike_of_parent {t t' : FileTree} (hd : SameDirs t t') {p : Path}
    (hf : t'.files p = t.files p) (hparent : t.isDir p.dropLast = true) : Alike t t' p := by
  refine hd.alike hf fun q hq hne => ?_
  obtain ⟨rest, rfl⟩ := hq
  have hr : rest ≠ [] := by
    intro hr
    simp [hr] at hne
  rw [List.dropLast_append_of_ne_nil hr] at hparent
  have hdir := isDir_of_isDir_append hparent
  have hdir' : t'.isDir q = true := by rw [hd.1, hdir]
  rw [files_of_lookup_dir (isDir_iff.mp hdir), files_of_lookup_dir (isDir_iff.mp hdir')]

/-- A file on the way is no directory. -/
theorem resolveError_through_file {t : FileTree} {front back : Path} {c : Str} {b : Bytes}
    (h : t.files (front ++ [c]) = some b) :
    t.resolveError (front ++ c :: back) = .notADirectory := by
  obtain ⟨m, hl⟩ := files_eq_some.mp h
  have hfront : t.isDir ([] ++ front) = true := isDir_iff.mpr (lookup_ancestor (by simp) hl)
  rw [resolveError, resolveErrorFrom_append hfront, resolveErrorFrom, List.nil_append, hl]

/-! ### Creating directories -/

/-- `create_dir_all` touches no file and loses no directory. -/
theorem createDirsFrom_frame (t : FileTree) (base cs : Path) :
    (t.createDirsFrom base cs).2.files = t.files ∧
      (t.createDirsFrom base cs).2.limits = t.limits ∧
      ∀ q, (t.createDirsFrom base cs).2.isDir q = true →
        t.isDir q = true ∨ (q <+: base ++ cs ∧ t.files q = none) := by
  induction cs generalizing t base with
  | nil => exact ⟨rfl, rfl, fun q hq => Or.inl hq⟩
  | cons c cs ih =>
    simp only [createDirsFrom]
    split
    · simpa using ih t (base ++ [c])
    · exact ⟨rfl, rfl, fun q hq => Or.inl hq⟩
    · rename_i hnone
      split_ifs with hc
      · obtain ⟨hf, hl, hd⟩ := ih (t.insertNode (base ++ [c]) .dir hc) (base ++ [c])
        have hfiles : (t.insertNode (base ++ [c]) .dir hc).files = t.files := by
          funext q
          by_cases hq : q = base ++ [c]
          · subst hq; simp [files, hnone]
          · simp [files, hq]
        refine ⟨hf.trans hfiles, hl.trans rfl, fun q hq => ?_⟩
        rcases hd q hq with h | ⟨h, hn⟩
        · by_cases hqb : q = base ++ [c]
          · subst hqb
            exact Or.inr ⟨⟨cs, by simp⟩, files_of_lookup_none hnone⟩
          · exact Or.inl (by simpa [isDir, hqb] using h)
        · exact Or.inr ⟨by simpa using h, by rwa [hfiles] at hn⟩
      · exact ⟨rfl, rfl, fun q hq => Or.inl hq⟩

theorem createDirsFrom_mono (t : FileTree) (base cs : Path) {q : Path} (h : t.isDir q = true) :
    (t.createDirsFrom base cs).2.isDir q = true := by
  induction cs generalizing t base with
  | nil => exact h
  | cons c cs ih =>
    simp only [createDirsFrom]
    split
    · exact ih t (base ++ [c]) h
    · exact h
    · split_ifs with hc
      · apply ih
        by_cases hq : q = base ++ [c]
        · simp [isDir, hq]
        · simpa [isDir, hq] using h
      · exact h

/-- On success the whole path is a directory. -/
theorem createDirsFrom_ok {t : FileTree} {base cs : Path} (hb : t.isDir base = true)
    (h : (t.createDirsFrom base cs).1 = .ok ()) :
    (t.createDirsFrom base cs).2.isDir (base ++ cs) = true := by
  induction cs generalizing t base with
  | nil => simpa [createDirsFrom] using hb
  | cons c cs ih =>
    simp only [createDirsFrom] at h ⊢
    split at h
    · rename_i hdir
      simpa using ih (isDir_iff.mpr hdir) h
    · cases h
    · split_ifs at h ⊢ with hc
      have hdir : (t.insertNode (base ++ [c]) .dir hc).isDir (base ++ [c]) = true := by
        simp [isDir]
      simpa using ih hdir h

/-- It succeeds when all names are taken by the filesystem and no file is on the way. -/
theorem createDirsFrom_succeeds {t : FileTree} {base cs : Path} (hb : t.isDir base = true)
    (hacc : ∀ c ∈ base ++ cs, t.limits.acceptsName c)
    (hno : ∀ q, q <+: base ++ cs → t.files q = none) :
    (t.createDirsFrom base cs).1 = .ok () := by
  induction cs generalizing t base with
  | nil => rfl
  | cons c cs ih =>
    simp only [createDirsFrom]
    split
    · rename_i hdir
      exact ih (isDir_iff.mpr hdir) (by simpa using hacc) (by simpa using hno)
    · rename_i b m hfile
      have := hno (base ++ [c]) ⟨cs, by simp⟩
      rw [files_eq_some.mpr ⟨m, hfile⟩] at this
      cases this
    · rename_i hnone
      have hc : t.CanPlace (base ++ [c]) := by
        refine canPlace_iff.mpr ⟨by simp, fun d hd => hacc d ?_, by simpa using hb,
          (lookup_eq_none_iff.mp hnone).2⟩
        simp only [List.mem_append, List.mem_cons] at hd ⊢
        tauto
      rw [dif_pos hc]
      apply ih (by simp [isDir]) (by simpa using hacc)
      intro q hq
      have hn := hno q (by simpa using hq)
      by_cases hqb : q = base ++ [c]
      · subst hqb; simp [files]
      · simpa [files, hqb] using hn

end FileTree

/-- The filesystem calls programs issue. -/
inductive FsCall where
  | createDirAll (p : Path)
  | createFile (p : Path)
  | append (p : Path) (b : Bytes)
  | flush (p : Path)
  | writeFile (p : Path) (b : Bytes)
  | rename (src dst : Path)
  | hardLink (src dst : Path)
  | removeFile (p : Path)
  | copyFile (src dst : Path)
  | openFile (p : Path)
  | metadata (p : Path)
  | readFile (p : Path)
  | readDir (p : Path)

def FsCall.Reply : FsCall → Type
  | createDirAll _ | createFile _ | append _ _ | flush _ | writeFile _ _ | rename _ _ | hardLink _ _
  | removeFile _ => Except ErrorKind Unit
  | copyFile _ _ => Except ErrorKind ℕ
  | openFile _ | metadata _ => Except ErrorKind Node
  | readFile _ => Except ErrorKind Bytes
  | readDir _ => Except ErrorKind (List Path)

abbrev Fs : Program.Interface := ⟨FsCall, FsCall.Reply⟩

abbrev FsM := Program.Prog Fs

/-- A filesystem without faults answers a call at time `now`. Opening resolves the path
exactly as `stat` does; flushing has nothing left to do. -/
def FileTree.handle (now : ℤ) : (c : FsCall) → FileTree → FsCall.Reply c × FileTree
  | .createDirAll p, t => t.createDirAll p
  | .createFile p, t => t.createFile p now
  | .append p b, t => t.append p b now
  | .flush _, t => (.ok (), t)
  | .writeFile p b, t => t.writeFile p b now
  | .rename src dst, t => t.rename src dst
  | .hardLink src dst, t => t.hardLink src dst
  | .removeFile p, t => t.removeFile p
  | .copyFile src dst, t => t.copyFile src dst now
  | .openFile p, t => (t.metadata p, t)
  | .metadata p, t => (t.metadata p, t)
  | .readFile p, t => (t.readFile p, t)
  | .readDir p, t => (t.readDir p, t)

/-- The sequential run of a filesystem program at time `now`. -/
def FsM.run {α : Type} (now : ℤ) (p : FsM α) (t : FileTree) : α × FileTree :=
  Program.Prog.exec (I := Fs) (FileTree.handle now) p t

namespace FsM

variable {α β : Type} (now : ℤ) (t : FileTree)

@[simp] theorem run_ret (a : α) : FsM.run now (.ret a) t = (a, t) := rfl

@[simp] theorem run_call (c : FsCall) (k : FsCall.Reply c → FsM α) :
    FsM.run now (.call (I := Fs) c k) t =
      FsM.run now (k (t.handle now c).1) (t.handle now c).2 := rfl

@[simp] theorem run_bind (p : FsM α) (f : α → FsM β) :
    FsM.run now (p.bind f) t = FsM.run now (f (p.run now t).1) (p.run now t).2 :=
  Program.Prog.exec_bind p f t

end FsM

/-! Each call as a program of its own, and its sequential run. -/
namespace Fs

def createDirAll (p : Path) : FsM (Except ErrorKind Unit) := .perform (I := Fs) (.createDirAll p)
def createFile (p : Path) : FsM (Except ErrorKind Unit) := .perform (I := Fs) (.createFile p)
def append (p : Path) (b : Bytes) : FsM (Except ErrorKind Unit) := .perform (I := Fs) (.append p b)
def flush (p : Path) : FsM (Except ErrorKind Unit) := .perform (I := Fs) (.flush p)
def writeFile (p : Path) (b : Bytes) : FsM (Except ErrorKind Unit) :=
  .perform (I := Fs) (.writeFile p b)
def rename (src dst : Path) : FsM (Except ErrorKind Unit) := .perform (I := Fs) (.rename src dst)
def hardLink (src dst : Path) : FsM (Except ErrorKind Unit) :=
  .perform (I := Fs) (.hardLink src dst)
def removeFile (p : Path) : FsM (Except ErrorKind Unit) := .perform (I := Fs) (.removeFile p)
def copyFile (src dst : Path) : FsM (Except ErrorKind ℕ) := .perform (I := Fs) (.copyFile src dst)
def openFile (p : Path) : FsM (Except ErrorKind Node) := .perform (I := Fs) (.openFile p)
def metadata (p : Path) : FsM (Except ErrorKind Node) := .perform (I := Fs) (.metadata p)
def readFile (p : Path) : FsM (Except ErrorKind Bytes) := .perform (I := Fs) (.readFile p)
def readDir (p : Path) : FsM (Except ErrorKind (List Path)) := .perform (I := Fs) (.readDir p)

variable (now : ℤ) (t : FileTree) (p src dst : Path) (b : Bytes)

@[simp] theorem run_createDirAll : (createDirAll p).run now t = t.createDirAll p := rfl
@[simp] theorem run_createFile : (createFile p).run now t = t.createFile p now := rfl
@[simp] theorem run_append : (append p b).run now t = t.append p b now := rfl
@[simp] theorem run_flush : (flush p).run now t = (.ok (), t) := rfl
@[simp] theorem run_writeFile : (writeFile p b).run now t = t.writeFile p b now := rfl
@[simp] theorem run_rename : (rename src dst).run now t = t.rename src dst := rfl
@[simp] theorem run_hardLink : (hardLink src dst).run now t = t.hardLink src dst := rfl
@[simp] theorem run_removeFile : (removeFile p).run now t = t.removeFile p := rfl
@[simp] theorem run_copyFile : (copyFile src dst).run now t = t.copyFile src dst now := rfl
@[simp] theorem run_openFile : (openFile p).run now t = (t.metadata p, t) := rfl
@[simp] theorem run_metadata : (metadata p).run now t = (t.metadata p, t) := rfl
@[simp] theorem run_readFile : (readFile p).run now t = (t.readFile p, t) := rfl
@[simp] theorem run_readDir : (readDir p).run now t = (t.readDir p, t) := rfl

end Fs

/-! ### What stays -/

namespace FileTree

/-- Every directory is still there, and the filesystem is the same. -/
structure KeepsDirs (t t' : FileTree) : Prop where
  dirs : ∀ q, t.isDir q = true → t'.isDir q = true
  limits : t'.limits = t.limits

theorem KeepsDirs.refl (t : FileTree) : KeepsDirs t t := ⟨fun _ h => h, rfl⟩

theorem KeepsDirs.trans {t₁ t₂ t₃ : FileTree} (h₁ : KeepsDirs t₁ t₂) (h₂ : KeepsDirs t₂ t₃) :
    KeepsDirs t₁ t₃ :=
  ⟨fun q hq => h₂.dirs q (h₁.dirs q hq), h₂.limits.trans h₁.limits⟩

theorem SameDirs.keepsDirs {t t' : FileTree} (h : SameDirs t t') : KeepsDirs t t' :=
  ⟨fun q hq => by rw [h.1, hq], h.2⟩

theorem createFile_keepsDirs (t : FileTree) (p : Path) (now : ℤ) :
    KeepsDirs t (t.createFile p now).2 := by
  by_cases hc : t.CanPlace p
  · exact (createFile_of_canPlace hc now).2.2.keepsDirs
  · rw [createFile_of_not_canPlace hc]
    exact KeepsDirs.refl t

theorem append_keepsDirs (t : FileTree) (p : Path) (b : Bytes) (now : ℤ) :
    KeepsDirs t (t.append p b now).2 := by
  cases hf : t.files p with
  | none =>
    simp only [append, hf]
    exact KeepsDirs.refl t
  | some old => exact (append_files hf b now).2.keepsDirs

/-- No call removes a directory. -/
theorem handle_keepsDirs (now : ℤ) (c : FsCall) (t : FileTree) :
    KeepsDirs t (t.handle now c).2 := by
  cases c with
  | createDirAll p =>
    obtain ⟨_, hl, _⟩ := t.createDirsFrom_frame [] p
    exact ⟨fun q hq => t.createDirsFrom_mono [] p hq, hl⟩
  | createFile p => exact createFile_keepsDirs t p now
  | append p b => exact append_keepsDirs t p b now
  | writeFile p b =>
    have hcreate := createFile_keepsDirs t p now
    simp only [handle, writeFile]
    generalize t.createFile p now = r at hcreate ⊢
    obtain ⟨_ | _, t'⟩ := r
    · exact hcreate
    · exact hcreate.trans (append_keepsDirs t' p b now)
  | rename src dst =>
    cases hr : (t.rename src dst).1 with
    | error e =>
      simp only [handle, rename_error hr]
      exact KeepsDirs.refl t
    | ok _ =>
      obtain ⟨b, hb, hc⟩ := rename_ok hr
      by_cases hne : src = dst
      · obtain ⟨m, hm⟩ := files_eq_some.mp hb
        subst hne
        simp only [handle, rename, hm, dif_pos hc, if_true]
        exact KeepsDirs.refl t
      · exact (rename_of_canPlace hb hc hne).2.2.keepsDirs
  | hardLink src dst =>
    cases hr : (t.hardLink src dst).1 with
    | error e =>
      simp only [handle, hardLink_error hr]
      exact KeepsDirs.refl t
    | ok _ =>
      obtain ⟨b, hb, hc, hn⟩ := hardLink_ok hr
      exact (hardLink_of_canPlace hb hc hn).2.2.keepsDirs
  | removeFile p => exact (removeFile_files t p).2.keepsDirs
  | copyFile src dst =>
    cases hr : (t.copyFile src dst now).1 with
    | error e =>
      simp only [handle, copyFile_error hr]
      exact KeepsDirs.refl t
    | ok n => exact (copyFile_files hr).2.keepsDirs
  | flush p => exact KeepsDirs.refl t
  | openFile p => exact KeepsDirs.refl t
  | metadata p => exact KeepsDirs.refl t
  | readFile p => exact KeepsDirs.refl t
  | readDir p => exact KeepsDirs.refl t

end FileTree

/-- The reply of a call that fails. -/
def FsCall.failed (e : ErrorKind) : (c : FsCall) → FsCall.Reply c
  | .createDirAll _ | .createFile _ | .append _ _ | .flush _ | .writeFile _ _ | .rename _ _
  | .hardLink _ _ | .removeFile _ => .error e
  | .copyFile _ _ => .error e
  | .openFile _ | .metadata _ => .error e
  | .readFile _ => .error e
  | .readDir _ => .error e

/-- The paths whose files a call can change. -/
def FsCall.writes : FsCall → List Path
  | .createFile p | .append p _ | .writeFile p _ | .removeFile p | .hardLink _ p | .copyFile _ p =>
    [p]
  | .rename src dst => [src, dst]
  | .createDirAll _ | .flush _ | .openFile _ | .metadata _ | .readFile _ | .readDir _ => []

namespace FileTree

theorem createFile_files_other (t : FileTree) {p q : Path} (h : q ≠ p) (now : ℤ) :
    (t.createFile p now).2.files q = t.files q := by
  by_cases hc : t.CanPlace p
  · rw [(createFile_of_canPlace hc now).2.1, Function.update_of_ne h]
  · rw [createFile_of_not_canPlace hc]

theorem append_files_other (t : FileTree) {p q : Path} (h : q ≠ p) (b : Bytes) (now : ℤ) :
    (t.append p b now).2.files q = t.files q := by
  cases hf : t.files p with
  | none => simp only [append, hf]
  | some old => rw [(append_files hf b now).1, Function.update_of_ne h]

/-- The other files stay as they are. -/
theorem handle_files_other (now : ℤ) (c : FsCall) (t : FileTree) {q : Path} (hq : q ∉ c.writes) :
    (t.handle now c).2.files q = t.files q := by
  cases c with
  | createDirAll p => exact congrFun (t.createDirsFrom_frame [] p).1 q
  | createFile p => exact t.createFile_files_other (by simpa [FsCall.writes] using hq) now
  | append p b => exact t.append_files_other (by simpa [FsCall.writes] using hq) b now
  | writeFile p b =>
    have hne : q ≠ p := by simpa [FsCall.writes] using hq
    have hcreate := t.createFile_files_other hne now
    simp only [handle, writeFile]
    generalize t.createFile p now = r at hcreate ⊢
    obtain ⟨result, t'⟩ := r
    cases result with
    | error e => exact hcreate
    | ok _ => exact (t'.append_files_other hne b now).trans hcreate
  | rename src dst =>
    obtain ⟨hsrc, hdst⟩ : q ≠ src ∧ q ≠ dst := by simpa [FsCall.writes] using hq
    simp only [handle]
    cases hr : (t.rename src dst).1 with
    | error e => rw [rename_error hr]
    | ok _ =>
      obtain ⟨b, hb, hc⟩ := rename_ok hr
      by_cases hne : src = dst
      · obtain ⟨m, hm⟩ := files_eq_some.mp hb
        subst hne
        simp only [rename, hm, dif_pos hc, if_true]
      · rw [(rename_of_canPlace hb hc hne).2.1, Function.update_of_ne hsrc,
          Function.update_of_ne hdst]
  | hardLink src dst =>
    simp only [handle]
    cases hr : (t.hardLink src dst).1 with
    | error e => rw [hardLink_error hr]
    | ok _ =>
      obtain ⟨b, hb, hc, hn⟩ := hardLink_ok hr
      rw [(hardLink_of_canPlace hb hc hn).2.1,
        Function.update_of_ne (by simpa [FsCall.writes] using hq)]
  | removeFile p =>
    simp only [handle]
    rw [(removeFile_files t p).1, Function.update_of_ne (by simpa [FsCall.writes] using hq)]
  | copyFile src dst =>
    simp only [handle]
    cases hr : (t.copyFile src dst now).1 with
    | error e => rw [copyFile_error hr]
    | ok n =>
      obtain ⟨content, hf⟩ := (copyFile_files hr).1
      rw [hf, Function.update_of_ne (by simpa [FsCall.writes] using hq)]
  | flush p => rfl
  | openFile p => rfl
  | metadata p => rfl
  | readFile p => rfl
  | readDir p => rfl

theorem createFile_sameDirs (t : FileTree) (p : Path) (now : ℤ) :
    SameDirs t (t.createFile p now).2 := by
  by_cases hc : t.CanPlace p
  · exact (createFile_of_canPlace hc now).2.2
  · rw [createFile_of_not_canPlace hc]
    exact SameDirs.refl t

theorem append_sameDirs (t : FileTree) (p : Path) (b : Bytes) (now : ℤ) :
    SameDirs t (t.append p b now).2 := by
  cases hf : t.files p with
  | none =>
    simp only [append, hf]
    exact SameDirs.refl t
  | some old => exact (append_files hf b now).2

/-- Directories are made by `create_dir_all` only. -/
theorem handle_sameDirs (now : ℤ) {c : FsCall} (t : FileTree) (h : ∀ p, c ≠ .createDirAll p) :
    SameDirs t (t.handle now c).2 := by
  cases c with
  | createDirAll p => exact absurd rfl (h p)
  | createFile p => exact t.createFile_sameDirs p now
  | append p b => exact t.append_sameDirs p b now
  | writeFile p b =>
    have hcreate := t.createFile_sameDirs p now
    simp only [handle, writeFile]
    generalize t.createFile p now = r at hcreate ⊢
    obtain ⟨result, t'⟩ := r
    cases result with
    | error e => exact hcreate
    | ok _ => exact hcreate.trans (t'.append_sameDirs p b now)
  | rename src dst =>
    simp only [handle]
    cases hr : (t.rename src dst).1 with
    | error e =>
      rw [rename_error hr]
      exact SameDirs.refl t
    | ok _ =>
      obtain ⟨b, hb, hc⟩ := rename_ok hr
      by_cases hne : src = dst
      · obtain ⟨m, hm⟩ := files_eq_some.mp hb
        subst hne
        simp only [rename, hm, dif_pos hc, if_true]
        exact SameDirs.refl t
      · exact (rename_of_canPlace hb hc hne).2.2
  | hardLink src dst =>
    simp only [handle]
    cases hr : (t.hardLink src dst).1 with
    | error e =>
      rw [hardLink_error hr]
      exact SameDirs.refl t
    | ok _ =>
      obtain ⟨b, hb, hc, hn⟩ := hardLink_ok hr
      exact (hardLink_of_canPlace hb hc hn).2.2
  | removeFile p => exact (removeFile_files t p).2
  | copyFile src dst =>
    simp only [handle]
    cases hr : (t.copyFile src dst now).1 with
    | error e =>
      rw [copyFile_error hr]
      exact SameDirs.refl t
    | ok n => exact (copyFile_files hr).2
  | flush p => exact SameDirs.refl t
  | openFile p => exact SameDirs.refl t
  | metadata p => exact SameDirs.refl t
  | readFile p => exact SameDirs.refl t
  | readDir p => exact SameDirs.refl t

/-- A directory that a call makes is on the way to the one that it was asked for. -/
theorem handle_made (now : ℤ) (c : FsCall) (t : FileTree) {q : Path}
    (hq : (t.handle now c).2.isDir q = true) :
    t.isDir q = true ∨ ∃ p, c = .createDirAll p ∧ q <+: p := by
  by_cases h : ∃ p, c = .createDirAll p
  · obtain ⟨p, rfl⟩ := h
    rcases (t.createDirsFrom_frame [] p).2.2 q hq with hdir | ⟨hpre, _⟩
    · exact Or.inl hdir
    · exact Or.inr ⟨p, rfl, hpre⟩
  · refine Or.inl ?_
    rwa [← (handle_sameDirs now t fun p hp => h ⟨p, hp⟩).1]

end FileTree

/-- No program removes a directory. -/
theorem FsM.run_keepsDirs {α : Type} (now : ℤ) (p : FsM α) (t : FileTree) :
    t.KeepsDirs (FsM.run now p t).2 := by
  induction p generalizing t with
  | ret a => exact FileTree.KeepsDirs.refl t
  | call c k ih => exact (FileTree.handle_keepsDirs now c t).trans (ih _ _)

end GraphqlOrmStorage
