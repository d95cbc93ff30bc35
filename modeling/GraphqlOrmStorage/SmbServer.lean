import GraphqlOrmStorage.Smb

/-!
# A file server behind the SMB backend

The server answers single requests atomically. A file is known by the handle that
created it, so it keeps its identity when its name changes. A name that exists is
never created again; a file marked for deletion loses its name when its last handle
is closed; a file is replaced by a rename only while no handle to it is open.

What the protocol leaves open is a `Choice`: how much of a block is taken, whether a
write or a flush fails, and the texts of errors. All other requests succeed where
these rules allow it.
-/
namespace GraphqlOrmStorage.Smb

open Text Program

structure Choice where
  count : ℕ
  fault : Option (Failure IoError)
  reconnected : Except StorageError Unit
  text : Str

/-- Whole blocks and no faults. -/
def Choice.smooth : Choice := ⟨2 ^ 62, none, .ok (), []⟩

structure Server where
  /-- The file each path names. -/
  names : Str → Option Handle
  content : Handle → Bytes
  /-- The file is marked for deletion. -/
  pending : Handle → Bool
  /-- The file each handle is open on, if it still is. -/
  handles : List (Option Handle)
  /-- Every naming of a file, the latest first. -/
  history : List (Str × Handle)

namespace Server

def empty : Server := ⟨fun _ => none, fun _ => [], fun _ => false, [], []⟩

/-- The file behind an open handle. -/
def file (s : Server) (h : Handle) : Option Handle := s.handles[h]?.join

/-- A new file, named and open. -/
def create (s : Server) (path : Str) : Server where
  names := Function.update s.names path (some s.handles.length)
  content := Function.update s.content s.handles.length []
  pending := Function.update s.pending s.handles.length false
  handles := s.handles ++ [some s.handles.length]
  history := (path, s.handles.length) :: s.history

/-- One more handle on a file. -/
def openOn (s : Server) (f : Handle) : Server := { s with handles := s.handles ++ [some f] }

/-- Take the names of a file away. -/
def unname (names : Str → Option Handle) (f : Handle) : Str → Option Handle :=
  fun path => if names path = some f then none else names path

def close (s : Server) (h : Handle) : Server :=
  match s.file h with
  | none => s
  | some f =>
    let handles := s.handles.set h none
    if s.pending f ∧ some f ∉ handles then
      { s with handles := handles, names := unname s.names f }
    else { s with handles := handles }

def mark (s : Server) (f : Handle) : Server :=
  { s with pending := Function.update s.pending f true }

def setContent (s : Server) (f : Handle) (bytes : Bytes) : Server :=
  { s with content := Function.update s.content f bytes }

def rename (s : Server) (f : Handle) (path : Str) : Server :=
  { s with
    names := Function.update (unname s.names f) path (some f)
    history := (path, f) :: s.history }

/-- The file that was last given this name. -/
def latest (s : Server) (path : Str) : Option Handle :=
  (s.history.find? (·.1 = path)).map (·.2)

/-! What the operations do to handles and names. -/

theorem names_create (s : Server) (path p : Str) :
    (s.create path).names p = if p = path then some s.handles.length else s.names p :=
  Function.update_apply ..

theorem names_rename (s : Server) (f : Handle) (path p : Str) : (s.rename f path).names p =
    if p = path then some f else if s.names p = some f then none else s.names p :=
  Function.update_apply ..

@[simp] theorem length_create (s : Server) (path : Str) :
    (s.create path).handles.length = s.handles.length + 1 := List.length_append

@[simp] theorem length_openOn (s : Server) (f : Handle) :
    (s.openOn f).handles.length = s.handles.length + 1 := List.length_append

theorem file_lt {s : Server} {h f : Handle} (hf : s.file h = some f) : h < s.handles.length := by
  by_contra hle
  have hnone : s.handles[h]? = none := List.getElem?_eq_none (not_lt.mp hle)
  simp [file, hnone] at hf

theorem mem_handles {s : Server} {f : Handle} : some f ∈ s.handles ↔ ∃ h, s.file h = some f := by
  simp only [List.mem_iff_getElem?, file, Option.join_eq_some_iff]

theorem file_append {s : Server} (x : Option Handle) (h : Handle) :
    (s.handles ++ [x])[h]?.join = if h = s.handles.length then x else s.file h := by
  rcases lt_trichotomy h s.handles.length with hlt | heq | hgt
  · rw [List.getElem?_append_left hlt, if_neg hlt.ne]
    rfl
  · rw [if_pos heq, heq, List.getElem?_concat_length]
    rfl
  · have hnone : s.handles[h]? = none := List.getElem?_eq_none hgt.le
    have hout : (s.handles ++ [x])[h]? = none :=
      List.getElem?_eq_none (by rw [List.length_append]; exact hgt)
    rw [if_neg hgt.ne', hout, file, hnone]

theorem file_create (s : Server) (path : Str) (h : Handle) :
    (s.create path).file h = if h = s.handles.length then some s.handles.length else s.file h :=
  file_append _ h

theorem file_openOn (s : Server) (f h : Handle) :
    (s.openOn f).file h = if h = s.handles.length then some f else s.file h :=
  file_append _ h

theorem file_set_none (s : Server) (h h' : Handle) :
    (s.handles.set h none)[h']?.join = if h' = h then none else s.file h' := by
  by_cases he : h' = h
  · subst he
    rw [if_pos rfl, List.getElem?_set_self']
    cases s.handles[h']? <;> rfl
  · rw [if_neg he, List.getElem?_set_ne (Ne.symm he)]
    rfl

/-- Closing drops the handle, and takes names away only from a file that is marked, when its last
handle goes. -/
theorem close_cases (s : Server) {h f : Handle} (hf : s.file h = some f) :
    (s.pending f = true ∧ (∀ h', s.file h' = some f → h' = h) ∧
      s.close h = { s with handles := s.handles.set h none, names := unname s.names f }) ∨
    (¬ (s.pending f = true ∧ ∀ h', s.file h' = some f → h' = h) ∧
      s.close h = { s with handles := s.handles.set h none }) := by
  have hlast : some f ∉ s.handles.set h none ↔ ∀ h', s.file h' = some f → h' = h := by
    constructor
    · intro hout h' hf'
      by_contra hne
      have hget := file_set_none s h h'
      rw [if_neg hne, hf', Option.join_eq_some_iff] at hget
      exact hout (List.mem_of_getElem? hget)
    · intro hall hin
      obtain ⟨h', hget⟩ := List.mem_iff_getElem?.mp hin
      have hset := file_set_none s h h'
      rw [hget, Option.join_some] at hset
      split_ifs at hset with he
      exact he (hall h' hset.symm)
  rw [← hlast]
  simp only [close, hf]
  by_cases hc : s.pending f = true ∧ some f ∉ s.handles.set h none
  · exact Or.inl ⟨hc.1, hc.2, if_pos hc⟩
  · exact Or.inr ⟨hc, if_neg hc⟩

/-- With its last handle a marked file loses its names. -/
theorem names_close_last {s : Server} {h f : Handle} {p : Str} (hf : s.file h = some f)
    (hp : s.pending f = true) (hlast : ∀ h', s.file h' = some f → h' = h)
    (hn : s.names p = some f) : (s.close h).names p = none := by
  rcases s.close_cases hf with ⟨_, _, hc⟩ | ⟨hnot, _⟩
  · rw [hc]
    exact if_pos hn
  · exact absurd ⟨hp, hlast⟩ hnot

theorem file_close (s : Server) {h f : Handle} (hf : s.file h = some f) (h' : Handle) :
    (s.close h).file h' = if h' = h then none else s.file h' := by
  rcases s.close_cases hf with ⟨_, _, hc⟩ | ⟨_, hc⟩ <;>
  · rw [hc]
    exact file_set_none s h h'

theorem file_close_of_ne (s : Server) {h h' : Handle} (hne : h' ≠ h) :
    (s.close h).file h' = s.file h' := by
  cases hf : s.file h with
  | none => simp [close, hf]
  | some f => rw [s.file_close hf, if_neg hne]

theorem names_close (s : Server) {h f g : Handle} {p : Str} (hf : s.file h = some f)
    (hn : s.names p = some g) (hp : s.pending g = false) : (s.close h).names p = some g := by
  rcases s.close_cases hf with ⟨hpending, _, hc⟩ | ⟨_, hc⟩
  · have hne : g ≠ f := by
      rintro rfl
      rw [hp] at hpending
      cases hpending
    rw [hc]
    simp [unname, hn, hne]
  · rw [hc]
    exact hn

@[simp] theorem length_close (s : Server) (h : Handle) :
    (s.close h).handles.length = s.handles.length := by
  cases hf : s.file h with
  | none => simp [close, hf]
  | some f =>
    rcases s.close_cases hf with ⟨_, _, hc⟩ | ⟨_, hc⟩ <;>
    · rw [hc]
      exact List.length_set

theorem contents_close (s : Server) {h f : Handle} (hf : s.file h = some f) :
    (s.close h).content = s.content ∧ (s.close h).pending = s.pending ∧
      (s.close h).history = s.history := by
  rcases s.close_cases hf with ⟨_, _, hc⟩ | ⟨_, hc⟩ <;>
  · rw [hc]
    exact ⟨rfl, rfl, rfl⟩

end Server

/-- A file's bytes after a write at an offset. -/
def writeAt (old : Bytes) (offset : ℕ) (bytes : Bytes) : Bytes :=
  (old ++ List.replicate (offset - old.length) 0).take offset ++ bytes ++
    old.drop (offset + bytes.length)

theorem writeAt_end (old bytes : Bytes) : writeAt old old.length bytes = old ++ bytes := by
  simp [writeAt]

/-- File offsets are signed 64-bit numbers. -/
def maxOffset : ℕ := 2 ^ 63 - 1

def statusError (o : Choice) (status : Status) : Failure SmbError := .failed ⟨.status status, o.text⟩

/-- The answer to one request. -/
def Server.answer (s : Server) (o : Choice) : (c : SmbCall) → SmbCall.Reply c × Server
  | .acquirePermit => (true, s)
  | .releasePermit => ((), s)
  | .createDirectory _ => (.ok (.directory 0), s)
  | .closeResource _ => (.ok (), s)
  | .createFile path exclusive =>
    match s.names path with
    | none => (.ok (.file s.handles.length), s.create path)
    | some f =>
      if exclusive then (.error (statusError o .objectNameCollision), s)
      else if s.pending f then (.error (statusError o .other), s)
      else (.ok (.file s.handles.length), (s.setContent f []).openOn f)
  | .openExisting path _ =>
    match s.names path with
    | none => (.error (statusError o .objectNameNotFound), s)
    | some f =>
      if s.pending f then (.error (statusError o .other), s)
      else (.ok (.file s.handles.length), s.openOn f)
  | .close h => (.ok (), s.close h)
  | .dropFile h => ((), s.close h)
  | .queryInfo h =>
    match s.file h with
    | none => (.error (statusError o .other), s)
    | some f => (.ok (s.content f).length, s)
  | .setRename h path replace =>
    match s.file h with
    | none => (.error (statusError o .other), s)
    | some f =>
      match s.names path with
      | none => (.ok (), s.rename f path)
      | some g =>
        if replace = false then (.error (statusError o .objectNameCollision), s)
        else if some g ∈ s.handles then (.error (statusError o .accessDenied), s)
        else (.ok (), s.rename f path)
  | .setDelete h =>
    match s.file h with
    | none => (.error (statusError o .other), s)
    | some f => (.ok (), s.mark f)
  | .writeBlock h bytes offset =>
    let taken := bytes.take o.count
    match s.file h with
    | none => (.error (.failed ⟨.other, o.text⟩), s)
    | some f =>
      if maxOffset < offset + taken.length then (.error (.failed ⟨.fileTooLarge, o.text⟩), s)
      else match o.fault with
        | some e => (.error e, s.setContent f (writeAt (s.content f) offset taken))
        | none => (.ok taken.length, s.setContent f (writeAt (s.content f) offset taken))
  | .flush h =>
    match s.file h, o.fault with
    | none, _ => (.error (.failed ⟨.other, o.text⟩), s)
    | some _, some e => (.error e, s)
    | some _, none => (.ok (), s)
  | .readBlock h length offset =>
    match s.file h with
    | none => (.error (.failed ⟨.other, o.text⟩), s)
    | some f => (.ok (((s.content f).drop offset).take (min o.count length)), s)
  | .reconnect => (o.reconnected, s)

/-! What the answers are, where the name or the handle is known. -/

namespace Server

variable {s : Server} {o : Choice} {path : Str} {h f : Handle}

theorem answer_create_absent (hn : s.names path = none) (exclusive : Bool) :
    s.answer o (.createFile path exclusive) =
      (.ok (.file s.handles.length), s.create path) := by
  simp only [answer, hn]

theorem answer_create_taken (hn : s.names path = some f) :
    s.answer o (.createFile path true) = (.error (statusError o .objectNameCollision), s) := by
  simp only [answer, hn, if_true]

theorem answer_open_absent (hn : s.names path = none) (access : Access) :
    s.answer o (.openExisting path access) =
      (.error (statusError o .objectNameNotFound), s) := by
  simp only [answer, hn]

theorem answer_open_marked (hn : s.names path = some f) (hp : s.pending f = true)
    (access : Access) :
    s.answer o (.openExisting path access) = (.error (statusError o .other), s) := by
  simp only [answer, hn, hp, if_true]

theorem answer_open_file (hn : s.names path = some f) (hp : s.pending f = false)
    (access : Access) :
    s.answer o (.openExisting path access) = (.ok (.file s.handles.length), s.openOn f) := by
  simp only [answer, hn, hp, Bool.false_eq_true, if_false]

theorem answer_queryInfo (hf : s.file h = some f) :
    s.answer o (.queryInfo h) = (.ok (s.content f).length, s) := by
  simp only [answer, hf]

theorem answer_readBlock (hf : s.file h = some f) (length offset : ℕ) :
    s.answer o (.readBlock h length offset) =
      (.ok (((s.content f).drop offset).take (min o.count length)), s) := by
  simp only [answer, hf]

theorem answer_setDelete (hf : s.file h = some f) :
    s.answer o (.setDelete h) = (.ok (), s.mark f) := by
  simp only [answer, hf]

theorem answer_flush (hf : s.file h = some f) (hfault : o.fault = none) :
    s.answer o (.flush h) = (.ok (), s) := by
  simp only [answer, hf, hfault]

theorem answer_flush_fault {e : Failure IoError} (hf : s.file h = some f)
    (hfault : o.fault = some e) : s.answer o (.flush h) = (.error e, s) := by
  simp only [answer, hf, hfault]

/-! Looking at a file and flushing it change nothing. -/

@[simp] theorem answer_queryInfo_snd : (s.answer o (.queryInfo h)).2 = s := by
  simp only [answer]
  split <;> rfl

@[simp] theorem answer_flush_snd : (s.answer o (.flush h)).2 = s := by
  simp only [answer]
  split <;> rfl

@[simp] theorem answer_readBlock_snd (length offset : ℕ) :
    (s.answer o (.readBlock h length offset)).2 = s := by
  simp only [answer]
  split <;> rfl

end Server

/-! How the requests that name a path can be answered. -/

theorem answer_createFile (s : Server) (o : Choice) (p : Str) (exclusive : Bool) :
    (∃ e, s.answer o (.createFile p exclusive) = (.error e, s)) ∨
    (s.names p = none ∧
      s.answer o (.createFile p exclusive) = (.ok (.file s.handles.length), s.create p)) ∨
    ∃ f, s.names p = some f ∧ s.pending f = false ∧ s.answer o (.createFile p exclusive) =
      (.ok (.file s.handles.length), (s.setContent f []).openOn f) := by
  simp only [Server.answer]
  cases s.names p with
  | none => exact Or.inr (Or.inl ⟨rfl, rfl⟩)
  | some f =>
    simp only
    split_ifs with hexclusive hpending
    · exact Or.inl ⟨_, rfl⟩
    · exact Or.inl ⟨_, rfl⟩
    · exact Or.inr (Or.inr ⟨f, rfl, Bool.eq_false_iff.mpr hpending, rfl⟩)

theorem answer_openExisting (s : Server) (o : Choice) (p : Str) (access : Access) :
    (∃ e, s.answer o (.openExisting p access) = (.error e, s)) ∨
    ∃ f, s.names p = some f ∧ s.pending f = false ∧
      s.answer o (.openExisting p access) = (.ok (.file s.handles.length), s.openOn f) := by
  simp only [Server.answer]
  cases s.names p with
  | none => exact Or.inl ⟨_, rfl⟩
  | some f =>
    simp only
    split_ifs with hpending
    · exact Or.inl ⟨_, rfl⟩
    · exact Or.inr ⟨f, rfl, Bool.eq_false_iff.mpr hpending, rfl⟩

theorem answer_setRename (s : Server) (o : Choice) (h : Handle) (p : Str) (replace : Bool) :
    (∃ e, s.answer o (.setRename h p replace) = (.error e, s)) ∨
    ∃ f, s.file h = some f ∧ s.answer o (.setRename h p replace) = (.ok (), s.rename f p) := by
  simp only [Server.answer]
  cases s.file h with
  | none => exact Or.inl ⟨_, rfl⟩
  | some f =>
    simp only
    cases s.names p with
    | none => exact Or.inr ⟨f, rfl, rfl⟩
    | some g =>
      simp only
      split_ifs
      · exact Or.inl ⟨_, rfl⟩
      · exact Or.inl ⟨_, rfl⟩
      · exact Or.inr ⟨f, rfl, rfl⟩

/-- The server may answer a request so. -/
def Serves (s : Server) (c : SmbCall) (r : SmbCall.Reply c) (s' : Server) : Prop :=
  ∃ o, r = (s.answer o c).1 ∧ s' = (s.answer o c).2

end GraphqlOrmStorage.Smb
