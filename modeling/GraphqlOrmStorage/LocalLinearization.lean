import GraphqlOrmStorage.LocalInterleaving
import GraphqlOrmStorage.LocalExistence

/-!
# Overlapping calls of the local backend have an order

A filesystem call is served, or it fails without a word on what is at a path. A temporary
file belongs to one call, which alone writes to it, and a directory that a writer makes is
never at the path of a key. So each step of a pool is no event or one event that the phase
of its call admits. In every state that overlapping calls reach there is an order of their
events that leads to the files under the keys; and what a call returned is explained by
its events in that order.
-/
namespace GraphqlOrmStorage.Local

open Text Program Program.Prog FileTree

/-! ### Replies -/

/-- One filesystem call: it is served, or it fails for a reason that says nothing of what is at a
path. Then it has changed nothing, or written the first of the bytes to append. -/
inductive Replies (t : FileTree) : (c : FsCall) → FsCall.Reply c → FileTree → Prop
  | served (now : ℤ) (c : FsCall) : Replies t c (t.handle now c).1 (t.handle now c).2
  | failed (c : FsCall) (e : ErrorKind) : e ≠ .notFound → e ≠ .alreadyExists →
      Replies t c (c.failed e) t
  | torn (now : ℤ) (p : Path) (b : Bytes) (n : ℕ) (e : ErrorKind) :
      Replies t (.append p b) (.error e) (t.append p (b.take n) now).2

section Frames

variable {t t' : FileTree} {c : FsCall} {r : FsCall.Reply c}

theorem Replies.files_other (h : Replies t c r t') {p : Path} (hp : p ∉ c.writes) :
    t'.files p = t.files p := by
  cases h with
  | served now => exact handle_files_other now c t hp
  | failed => rfl
  | torn now q b n e => exact append_files_other t (by simpa [FsCall.writes] using hp) _ now

theorem Replies.keepsDirs (h : Replies t c r t') : KeepsDirs t t' := by
  cases h with
  | served now => exact handle_keepsDirs now c t
  | failed => exact KeepsDirs.refl t
  | torn now q b n e => exact append_keepsDirs t q _ now

theorem Replies.made (h : Replies t c r t') {p : Path} (hp : t'.isDir p = true) :
    t.isDir p = true ∨ ∃ q, c = .createDirAll q ∧ p <+: q := by
  cases h with
  | served now => exact handle_made now c t hp
  | failed => exact Or.inl hp
  | torn now q b n e => exact Or.inl (by rwa [← (append_sameDirs t q _ now).1])

end Frames

/-! ### Calls that keep out of each other's way -/

/-- The call does not take a path of this key for its own temporary file or for a leftover. -/
def LocalOp.Spares (key : Str) : LocalOp → Prop
  | .write writer => Unnamed writer.uuid key
  | .sweep _ _ _ => isUploadingTempFile (keyPath key) = false
  | .getBlob _ | .getBlobRange _ _ _ | .headBlob _ | .blobExists _ => True

instance (key : Str) : (call : LocalOp) → Decidable (call.Spares key)
  | .write writer => inferInstanceAs (Decidable (Unnamed writer.uuid key))
  | .sweep _ _ _ => inferInstanceAs (Decidable (isUploadingTempFile (keyPath key) = false))
  | .getBlob _ | .getBlobRange _ _ _ | .headBlob _ | .blobExists _ => isTrue trivial

/-- The identifier that a call draws. -/
def LocalOp.identifier : LocalOp → Option Uuid
  | .write writer => some writer.uuid
  | .getBlob _ | .getBlobRange _ _ _ | .headBlob _ | .blobExists _ | .sweep _ _ _ => none

/-- The calls draw different identifiers and spare the keys that any of them names; no such key is
on the way to another, and no directory is at the path of one. -/
structure Compatible (calls : List LocalOp) (t : FileTree) : Prop where
  distinct : calls.Pairwise fun a b => ∀ u, a.identifier = some u → b.identifier ≠ some u
  spared : ∀ a ∈ calls, ∀ b ∈ calls, ∀ key ∈ b.keys, a.Spares key
  flat : ∀ a ∈ calls, ∀ b ∈ calls, ∀ key ∈ a.keys, ∀ key' ∈ b.keys,
    ¬ keyPath key <+: (keyPath key').dropLast
  vacant : ∀ a ∈ calls, ∀ key ∈ a.keys, t.isDir (keyPath key) = false

/-- The path of a key that all of the calls spare. -/
def SparedPath (calls : List LocalOp) (p : Path) : Prop :=
  ∃ key, ValidKey key ∧ (∀ call ∈ calls, call.Spares key) ∧ p = keyPath key

/-- What a phase knows of the tree: the parent is a directory, or the temporary file holds what was
written to it. -/
def LocalPhase.Holds (t : FileTree) (q : LocalPhase) : Prop :=
  match q.stage with
  | .prepared => ∀ writer, q.call = .write writer → t.isDir writer.path.dropLast = true
  | .filling b | .full b => ∀ writer, q.call = .write writer → TempHolds t writer b
  | .astray => False
  | .past _ | .copied | .moved | .taken | .sweeping => True

structure LocalInv (calls : List LocalOp) (t : FileTree) (qs : List LocalPhase) : Prop where
  same : qs.map LocalPhase.call = calls
  vacant : ∀ a ∈ calls, ∀ key ∈ a.keys, t.isDir (keyPath key) = false
  holds : ∀ q ∈ qs, q.Holds t

section Steps

variable {calls : List LocalOp} {t t' : FileTree} {q : LocalPhase} {qs : List LocalPhase}
  {c : FsCall} {r : FsCall.Reply c}

theorem target_mem_keys (op : BlobOp) : op.target ∈ op.keys := by
  cases op <;> simp [BlobOp.target, BlobOp.keys]

theorem opens_mem {op : LocalOp} {key : Str} (h : op.opens = some key) : key ∈ op.keys := by
  cases op <;> simp_all [LocalOp.opens, LocalOp.keys]

theorem opensKey_of_opens {op : LocalOp} {key : Str} (h : op.opens = some key) :
    op.OpensKey key := by
  cases op with
  | getBlob key' =>
    obtain rfl := Option.some.inj h
    exact Or.inl rfl
  | getBlobRange key' start stop =>
    obtain rfl := Option.some.inj h
    exact Or.inr ⟨start, stop, rfl⟩
  | write | headBlob | blobExists | sweep => cases h

theorem asks_mem {op : LocalOp} {key : Str} (h : op.asks = some key) : key ∈ op.keys := by
  cases op <;> simp_all [LocalOp.asks, LocalOp.keys]

/-- What a call writes: its temporary file, the path of its key, or a leftover. -/
theorem LocalPhase.Issues.writes (h : q.Issues c) {p : Path} (hp : p ∈ c.writes) :
    (∃ writer, q.call = .write writer ∧ (p = writer.temp ∨ p = writer.path)) ∨
      (∃ fuel now olderThan, q.call = .sweep fuel now olderThan ∧ c = .removeFile p ∧
        isUploadingTempFile p = true) := by
  cases h with
  | createDirs | flush | opens | looks | asks | astray | finds | lists =>
    simp [FsCall.writes] at hp
  | createFile | append | copy | discard =>
    obtain rfl := List.mem_singleton.mp hp
    exact Or.inl ⟨_, rfl, Or.inl rfl⟩
  | link | delete =>
    obtain rfl := List.mem_singleton.mp hp
    exact Or.inl ⟨_, rfl, Or.inr rfl⟩
  | rename | publish =>
    simp only [FsCall.writes, List.mem_cons, List.not_mem_nil, or_false] at hp
    exact Or.inl ⟨_, rfl, hp⟩
  | sweeps hu =>
    obtain rfl := List.mem_singleton.mp hp
    exact Or.inr ⟨_, _, _, rfl, rfl, hu⟩

/-- A key that all calls spare is at no temporary path. -/
theorem SparedPath.ne_temp {p : Path} (h : SparedPath calls p) {writer : BlobCall}
    (hm : .write writer ∈ calls) : p ≠ writer.temp := by
  obtain ⟨key, _, hspared, rfl⟩ := h
  exact Unnamed.path_ne_temp (hspared _ hm) _

/-- The key of a writer is one that all calls spare. -/
theorem Compatible.sparedPath (h : Compatible calls t) {call : LocalOp} (hm : call ∈ calls)
    {key : Str} (hkey : key ∈ call.keys) (hv : ValidKey key) : SparedPath calls (keyPath key) :=
  ⟨key, hv, fun a ha => h.spared a ha call hm key hkey, rfl⟩

/-- Other writers' temporary files stay, or are swept. -/
theorem LocalPhase.Issues.temp_kept (h : q.Issues c) (ha : Replies t c r t')
    {t₀ : FileTree} (hcompatible : Compatible calls t₀) (hq : q.call ∈ calls) {writer : BlobCall}
    (hw : .write writer ∈ calls) (hother : ∀ w, q.call = .write w → w.uuid ≠ writer.uuid) :
    t'.files writer.temp = t.files writer.temp ∨ t'.files writer.temp = none := by
  by_cases hp : writer.temp ∈ c.writes
  swap
  · exact Or.inl (ha.files_other hp)
  rcases h.writes hp with ⟨w, hcall, htemp | hpath⟩ | ⟨_, _, _, _, rfl, _⟩
  · exact absurd (tempPath_inj htemp).symm (hother w hcall)
  · have hspared : Unnamed writer.uuid w.op.target := by
      refine hcompatible.spared _ hw _ hq _ ?_
      rw [hcall]
      exact target_mem_keys w.op
    exact absurd hpath.symm (hspared.path_ne_temp _)
  · cases ha with
    | served now =>
      refine Or.inr ?_
      show (t.removeFile writer.temp).2.files writer.temp = none
      rw [(removeFile_files t writer.temp).1, Function.update_self]
    | failed => exact Or.inl rfl

/-- A copy into an existing directory that reports a missing file has no source. -/
theorem copyFile_notFound {src dst : Path} {now : ℤ} (hparent : t.isDir dst.dropLast = true)
    (h : (t.copyFile src dst now).1 = .error .notFound) : t.files src = none := by
  cases hb : t.files src with
  | none => rfl
  | some b =>
    obtain ⟨m, hm⟩ := files_eq_some.mp hb
    exfalso
    by_cases hc : t.CanPlace dst
    · simp [copyFile, hm, hc] at h
    simp only [copyFile, hm, dif_neg hc, Except.error.injEq, placeError] at h
    split_ifs at h with hdir
    have hnone : t.lookup dst = none := by
      cases hl : t.lookup dst with
      | none => rfl
      | some n =>
        cases n with
        | dir => exact absurd hl hdir
        | file b' m' => exact absurd (canPlace_of_files (files_eq_some.mpr ⟨m', hl⟩)) hc
    obtain ⟨front, name, back, rfl, hfront, hmissing, haccepts⟩ :=
      resolveError_eq_notFound_iff.mp ⟨hnone, h⟩
    -- The parent is there, so the name that is missing is the last one.
    have hback : back = [] := by
      by_contra hne
      obtain ⟨rest, last, rfl⟩ : ∃ rest last, back = rest ++ [last] :=
        ⟨back.dropLast, back.getLast hne, (List.dropLast_append_getLast hne).symm⟩
      have hfold : (front ++ name :: (rest ++ [last])).dropLast = (front ++ [name]) ++ rest := by
        rw [← List.cons_append, ← List.append_assoc, List.dropLast_concat]
        simp
      rw [hfold] at hparent
      by_cases hrest : rest = []
      · rw [hrest, List.append_nil] at hparent
        rw [isDir_iff.mp hparent] at hmissing
        cases hmissing
      · rw [lookup_ancestor hrest (isDir_iff.mp hparent)] at hmissing
        cases hmissing
    subst hback
    refine hc (canPlace_iff.mpr ⟨by simp, fun x hx => ?_, hparent, by simp [isDir, hnone]⟩)
    rcases List.mem_append.mp hx with hx | hx
    · exact accepted_of_lookup (isDir_iff.mp hfront) x hx
    · rw [List.mem_singleton.mp hx]
      exact haccepts

/-- What was written to a temporary file is there, unless a sweep removed it. -/
theorem append_holds {writer : BlobCall} {written : Bytes} (h : TempHolds t writer written)
    (b : Bytes) (now : ℤ) (hok : (t.append writer.temp b now).1 = .ok ()) :
    TempHolds (t.append writer.temp b now).2 writer (written ++ b) := by
  rcases h with hnone | hsome
  · refine Or.inl ?_
    simp only [FileTree.append, hnone]
  · refine Or.inr ?_
    have hfit : written.length + b.length ≤ t.limits.maxFileSize := by
      rw [append_result hsome] at hok
      by_contra hlarge
      rw [if_neg hlarge] at hok
      cases hok
    rw [(append_fits hsome hfit now).2.1, Function.update_self]

/-- What the phase of a call says after its step. -/
theorem Replies.own_holds (ha : Replies t c r t') (hq : q.Issues c) (hh : q.Holds t)
    (hvacant : ∀ key ∈ q.call.keys, t.isDir (keyPath key) = false) :
    (q.advance c r).Holds t' := by
  have hseen : ∀ {op : LocalOp} {before : List FileChange} {key : Str}, key ∈ op.keys →
      (∀ key ∈ op.keys, t.isDir (keyPath key) = false) →
      LocalPhase.Holds t ⟨op, seenStage before (keyPath key) (t.metadata (keyPath key))⟩ := by
    intro op before key hkey hvacant
    cases hr : t.metadata (keyPath key) with
    | error e => cases e <;> trivial
    | ok node =>
      cases node with
      | file b m => trivial
      | dir =>
        have hdir := hvacant key hkey
        rw [isDir_iff.mpr (metadata_eq_ok.mp hr)] at hdir
        cases hdir
  cases hq with
  | @createDirs writer hprep =>
    cases ha with
    | failed => trivial
    | served now =>
      show LocalPhase.Holds (t.createDirAll writer.path.dropLast).2
        (LocalPhase.advance _ (.createDirAll _) (t.createDirAll writer.path.dropLast).1)
      cases hr : (t.createDirAll writer.path.dropLast).1 with
      | error e => trivial
      | ok _ =>
        intro w hw
        obtain rfl := LocalOp.write.inj hw
        exact createDirsFrom_ok (by simp [isDir]) hr
  | @createFile writer body hbody =>
    cases ha with
    | failed => trivial
    | served now =>
      show LocalPhase.Holds (t.createFile writer.temp now).2
        (LocalPhase.advance _ (.createFile _) (t.createFile writer.temp now).1)
      by_cases hc : t.CanPlace writer.temp
      · obtain ⟨hr, hf, _⟩ := createFile_of_canPlace hc now
        rw [hr]
        intro w hw
        obtain rfl := LocalOp.write.inj hw
        exact Or.inr (by rw [hf, Function.update_self])
      · rw [createFile_of_not_canPlace hc]
        trivial
  | @append writer written b hprep =>
    cases ha with
    | failed => trivial
    | torn => trivial
    | served now =>
      show LocalPhase.Holds (t.append writer.temp b now).2
        (LocalPhase.advance _ (.append _ _) (t.append writer.temp b now).1)
      cases hr : (t.append writer.temp b now).1 with
      | error e => trivial
      | ok _ =>
        intro w hw
        obtain rfl := LocalOp.write.inj hw
        exact append_holds (hh _ rfl) b now hr
  | flush =>
    cases ha with
    | failed => trivial
    | served now => exact hh
  | rename =>
    cases ha with
    | failed => trivial
    | served now =>
      show LocalPhase.Holds _ (LocalPhase.advance _ (.rename _ _) (t.rename _ _).1)
      cases (t.rename _ _).1 <;> trivial
  | link =>
    cases ha with
    | failed c e => cases e <;> trivial
    | served now =>
      show LocalPhase.Holds _ (LocalPhase.advance _ (.hardLink _ _) (t.hardLink _ _).1)
      rcases (t.hardLink _ _).1 with e | _
      · cases e <;> trivial
      · trivial
  | copy =>
    cases ha with
    | failed c e => cases e <;> trivial
    | served now =>
      show LocalPhase.Holds _ (LocalPhase.advance _ (.copyFile _ _) (t.copyFile _ _ now).1)
      rcases (t.copyFile _ _ now).1 with e | n
      · cases e <;> trivial
      · trivial
  | publish =>
    cases ha with
    | failed => trivial
    | served now =>
      show LocalPhase.Holds _ (LocalPhase.advance _ (.rename _ _) (t.rename _ _).1)
      cases (t.rename _ _).1 <;> trivial
  | @discard writer stage hprep =>
    rw [advance_discard hprep]
    cases stage with
    | past | filling | copied | moved | taken | sweeping => trivial
    | astray => exact hh
    | prepared => exact fun w hw => ha.keepsDirs.dirs _ (hh w hw)
    | full b =>
      intro w hw
      obtain rfl := LocalOp.write.inj hw
      cases ha with
      | failed => exact hh _ rfl
      | served now =>
        refine Or.inl ?_
        show (t.removeFile writer.temp).2.files writer.temp = none
        rw [(removeFile_files t writer.temp).1, Function.update_self]
  | delete =>
    cases ha with
    | failed c e => cases e <;> trivial
    | served now =>
      show LocalPhase.Holds _ (LocalPhase.advance _ (.removeFile _) (t.removeFile _).1)
      rcases (t.removeFile _).1 with e | _
      · cases e <;> trivial
      · trivial
  | opens hop | looks hop =>
    cases ha with
    | failed c e => cases e <;> trivial
    | served now => exact hseen (opens_mem hop) hvacant
  | asks hop =>
    cases ha with
    | failed c e => cases e <;> trivial
    | served now => exact hseen (asks_mem hop) hvacant
  | astray => exact hh.elim
  | finds | lists | sweeps => trivial

/-- The other calls of a pool draw other identifiers. -/
theorem LocalInv.apart {t₀ : FileTree} (hc : Compatible calls t₀) {before after : List LocalPhase}
    (h : LocalInv calls t (before ++ q :: after)) {o : LocalPhase} (ho : o ∈ before ++ after)
    {w writer : BlobCall} (hw : q.call = .write w) (hwriter : o.call = .write writer) :
    w.uuid ≠ writer.uuid := by
  have hp := hc.distinct
  rw [← h.same, List.pairwise_map, List.pairwise_middle fun hab u hb ha => hab u ha hb,
    List.pairwise_cons] at hp
  intro heq
  refine hp.1 o ho w.uuid (by rw [hw]; rfl) ?_
  rw [hwriter, heq]
  rfl

theorem LocalInv.mem (h : LocalInv calls t qs) {o : LocalPhase} (ho : o ∈ qs) : o.call ∈ calls :=
  h.same ▸ List.mem_map_of_mem ho

/-- What another call's temporary file holds. -/
theorem LocalInv.temp_holds {t₀ : FileTree} (hc : Compatible calls t₀)
    {before after : List LocalPhase} (h : LocalInv calls t (before ++ q :: after))
    (hq : q.Issues c) (ha : Replies t c r t') {o : LocalPhase} (ho : o ∈ before ++ after)
    {writer : BlobCall} (hwriter : o.call = .write writer) {b : Bytes}
    (hholds : TempHolds t writer b) : TempHolds t' writer b := by
  have hmem : o ∈ before ++ q :: after := by
    simp only [List.mem_append, List.mem_cons] at ho ⊢
    tauto
  rcases hq.temp_kept ha hc (h.mem (by simp)) (hwriter ▸ h.mem hmem)
    fun w hw => h.apart hc ho hw hwriter with hsame | hnone
  · unfold TempHolds
    rwa [hsame]
  · exact Or.inl hnone

theorem LocalInv.step {t₀ : FileTree} (hc : Compatible calls t₀) {before after : List LocalPhase}
    (h : LocalInv calls t (before ++ q :: after)) (hq : q.Issues c) (ha : Replies t c r t') :
    LocalInv calls t' (before ++ q.advance c r :: after) := by
  have hcall : q.call ∈ calls := h.mem (by simp)
  refine ⟨?_, fun a hm key hkey => ?_, fun o ho => ?_⟩
  · rw [← h.same]
    simp [LocalPhase.advance]
  · by_contra hdir
    rw [Bool.not_eq_false] at hdir
    rcases ha.made hdir with hdir | ⟨p, rfl, hpre⟩
    · rw [h.vacant a hm key hkey] at hdir
      cases hdir
    · cases hq with
      | @createDirs writer hprep =>
        exact hc.flat a hm _ hcall key hkey _ (target_mem_keys writer.op) hpre
  · have hcases : o = q.advance c r ∨ o ∈ before ++ after := by
      simp only [List.mem_append, List.mem_cons] at ho ⊢
      tauto
    rcases hcases with rfl | hother
    · exact ha.own_holds hq (h.holds q (by simp)) (h.vacant _ hcall)
    · have hholds : o.Holds t := h.holds o (by
        simp only [List.mem_append, List.mem_cons] at hother ⊢
        tauto)
      unfold LocalPhase.Holds at hholds ⊢
      cases hs : o.stage with
      | past | copied | moved | taken | sweeping => trivial
      | astray => simp only [hs] at hholds
      | prepared =>
        simp only [hs] at hholds ⊢
        exact fun w hw => ha.keepsDirs.dirs _ (hholds w hw)
      | filling b | full b =>
        simp only [hs] at hholds ⊢
        exact fun w hw => h.temp_holds hc hq ha hother hw (hholds w hw)

end Steps

/-! ### Events -/

open Classical in
/-- The contents under the keys that all of the calls spare. -/
noncomputable def contents (calls : List LocalOp) (t : FileTree) : Path → Option Bytes :=
  MapEvent.only (SparedPath calls) t.files

section Events

variable {calls : List LocalOp} {t t' : FileTree} {q q' : LocalPhase} {c : FsCall}
  {r : FsCall.Reply c} {events : List FileChange} {p : Path}

theorem contents_at (hp : SparedPath calls p) : contents calls t p = t.files p := if_pos hp

open Classical in
theorem contents_same (h : ∀ p, SparedPath calls p → t'.files p = t.files p) :
    contents calls t' = contents calls t :=
  MapEvent.only_congr h

open Classical in
theorem contents_update (hp : SparedPath calls p) {content : Option Bytes}
    (h : ∀ p', SparedPath calls p' → t'.files p' = Function.update t.files p content p') :
    contents calls t' = Function.update (contents calls t) p content := by
  rw [contents, MapEvent.only_congr h, MapEvent.only_update hp]
  rfl

/-- A step from one tree to another is no event, or one that the phase after it admits. -/
def Accounts (calls : List LocalOp) (t t' : FileTree) (q' : LocalPhase)
    (events : List FileChange) : Prop :=
  (contents calls t' = contents calls t ∧ q'.Admits t' events) ∨
    ∃ e, MapEvent.Effect e (contents calls t) (contents calls t') ∧ q'.Admits t' (events ++ [e]) ∧
      Possible q'.call (events ++ [e])

theorem Accounts.quiet (hfiles : ∀ p, SparedPath calls p → t'.files p = t.files p)
    (hadm : q'.Admits t' events) : Accounts calls t t' q' events :=
  Or.inl ⟨contents_same hfiles, hadm⟩

/-- A temporary file was moved over the path of a key. -/
theorem rename_contents (writer : BlobCall) (hm : .write writer ∈ calls)
    (hpath : SparedPath calls writer.path) {b : Bytes} (hb : TempHolds t writer b)
    (hr : (t.rename writer.temp writer.path).1 = .ok ()) :
    contents calls (t.rename writer.temp writer.path).2 =
      Function.update (contents calls t) writer.path (some b) := by
  obtain ⟨b', hb', hplace⟩ := rename_ok hr
  obtain rfl : b' = b := by
    rcases hb with hnone | hsome
    · rw [hnone] at hb'
      cases hb'
    · rw [hsome] at hb'
      exact (Option.some.inj hb').symm
  obtain ⟨_, hf, _⟩ := rename_of_canPlace hb' hplace (hpath.ne_temp hm).symm
  refine contents_update hpath fun p hp => ?_
  rw [hf, Function.update_of_ne (hp.ne_temp hm)]

/-- A temporary file was linked to the path of a key, where nothing was. -/
theorem link_contents (writer : BlobCall) (hpath : SparedPath calls writer.path) {b : Bytes}
    (hb : TempHolds t writer b) (hr : (t.hardLink writer.temp writer.path).1 = .ok ()) :
    (MapEvent.created writer.path b : FileChange).Effect (contents calls t)
      (contents calls (t.hardLink writer.temp writer.path).2) := by
  obtain ⟨b', hb', hplace, hnone⟩ := hardLink_ok hr
  obtain rfl : b' = b := by
    rcases hb with hgone | hsome
    · rw [hgone] at hb'
      cases hb'
    · rw [hsome] at hb'
      exact (Option.some.inj hb').symm
  obtain ⟨_, hf, _⟩ := hardLink_of_canPlace hb' hplace hnone
  exact ⟨(contents_at hpath).trans hnone, contents_update hpath fun p hp => by rw [hf]⟩

/-- A link that is refused because its target exists has met a file there. -/
theorem taken_of_hardLink {writer : BlobCall} {b : Bytes} (hb : TempHolds t writer b)
    (hvacant : t.isDir writer.path = false)
    (hr : (t.hardLink writer.temp writer.path).1 = .error .alreadyExists) :
    ∃ content, t.files writer.path = some content := by
  rcases hb with hnone | hsome
  · exfalso
    unfold FileTree.hardLink at hr
    cases hl : t.lookup writer.temp with
    | none =>
      rw [hl] at hr
      exact resolveErrorFrom_ne_alreadyExists t [] writer.temp (Except.error.inj hr)
    | some n =>
      cases n with
      | dir => simp [hl] at hr
      | file b' m =>
        rw [files_eq_some.mpr ⟨m, hl⟩] at hnone
        cases hnone
  · have hl := (hardLink_alreadyExists_iff hsome).mp hr
    cases hf : t.files writer.path with
    | some content => exact ⟨content, rfl⟩
    | none => exact absurd (lookup_eq_none_iff.mpr ⟨hf, hvacant⟩) hl

/-- A look at the path of a key. -/
theorem accounts_seen {op : LocalOp} {before : List FileChange} {key : Str}
    (hpath : SparedPath calls (keyPath key)) (hvacant : t.isDir (keyPath key) = false)
    (hpossible : ∀ content, Possible op (before ++ [.saw (keyPath key) content])) :
    Accounts calls t t ⟨op, seenStage before (keyPath key) (t.metadata (keyPath key))⟩ before := by
  cases hr : t.metadata (keyPath key) with
  | ok node =>
    have hl := metadata_eq_ok.mp hr
    cases node with
    | dir =>
      rw [isDir_iff.mpr hl] at hvacant
      cases hvacant
    | file b m =>
      exact Or.inr ⟨.saw (keyPath key) (some b),
        ⟨(contents_at hpath).trans (files_eq_some.mpr ⟨m, hl⟩), rfl⟩, rfl, hpossible _⟩
  | error e =>
    by_cases hnone : e = .notFound
    · subst hnone
      have hfile : t.files (keyPath key) = none := by
        cases hf : t.files (keyPath key) with
        | none => rfl
        | some b =>
          obtain ⟨m, hm⟩ := files_eq_some.mp hf
          rw [metadata_eq_ok.mpr hm] at hr
          cases hr
      exact Or.inr ⟨.saw (keyPath key) none, ⟨(contents_at hpath).trans hfile, rfl⟩, rfl,
        hpossible _⟩
    · cases e <;> first | exact absurd rfl hnone | exact .quiet (fun _ _ => rfl) rfl

theorem accounts_of_step {t₀ : FileTree} (hc : Compatible calls t₀) (hm : q.call ∈ calls)
    (hvacant : ∀ key ∈ q.call.keys, t.isDir (keyPath key) = false) (hh : q.Holds t)
    (hq : q.Issues c) (ha : Replies t c r t') (he : q.Admits t events) :
    Accounts calls t t' (q.advance c r) events := by
  -- A call that writes to no path, or to its temporary file only.
  have hkept : ∀ writer : BlobCall, q.call = .write writer → (∀ p ∈ c.writes, p = writer.temp) →
      ∀ p, SparedPath calls p → t'.files p = t.files p := by
    intro writer hw hwrites p hp
    exact ha.files_other fun hmem => hp.ne_temp (hw ▸ hm) (hwrites p hmem)
  cases hq with
  | @createDirs writer hprep =>
    refine .quiet (hkept writer rfl fun p hp => absurd hp List.not_mem_nil) ?_
    cases r <;> exact he
  | @createFile writer body hbody =>
    refine .quiet (hkept writer rfl fun p hp => List.mem_singleton.mp hp) ?_
    cases r <;> exact he
  | @append writer written b hprep =>
    refine .quiet (hkept writer rfl fun p hp => List.mem_singleton.mp hp) ?_
    cases r <;> exact he
  | @flush writer written hprep =>
    refine .quiet (hkept writer rfl fun p hp => absurd hp List.not_mem_nil) ?_
    cases r <;> exact he
  | @rename key body options u b hv hbody =>
    have hpath : SparedPath calls (keyPath key) := hc.sparedPath hm List.mem_cons_self hv
    obtain rfl : events = [] := he
    cases ha with
    | failed => exact .quiet (fun _ _ => rfl) rfl
    | served now =>
      show Accounts calls t (t.rename _ _).2 (LocalPhase.advance _ (.rename _ _) (t.rename _ _).1) []
      cases hr : (t.rename (BlobCall.temp ⟨.put key body options, u⟩) (keyPath key)).1 with
      | error e =>
        rw [rename_error hr]
        exact .quiet (fun _ _ => rfl) rfl
      | ok _ => exact Or.inr ⟨.wrote (keyPath key) b,
          rename_contents ⟨.put key body options, u⟩ hm hpath (hh _ rfl) hr, rfl,
          Or.inr ⟨b, hbody, rfl⟩⟩
  | @link key body options u b hv hbody =>
    have hpath : SparedPath calls (keyPath key) := hc.sparedPath hm List.mem_cons_self hv
    obtain rfl : events = [] := he
    cases ha with
    | failed c e _ hexists =>
      cases e <;> first | exact absurd rfl hexists | exact .quiet (fun _ _ => rfl) rfl
    | served now =>
      show Accounts calls t (t.hardLink _ _).2
        (LocalPhase.advance _ (.hardLink _ _) (t.hardLink _ _).1) []
      cases hr : (t.hardLink (BlobCall.temp ⟨.putIfNotExists key body options, u⟩)
          (keyPath key)).1 with
      | ok _ => exact Or.inr ⟨.created (keyPath key) b,
          link_contents ⟨.putIfNotExists key body options, u⟩ hpath (hh _ rfl) hr, rfl,
          Or.inr (Or.inl ⟨b, hbody, rfl⟩)⟩
      | error e =>
        rw [hardLink_error hr]
        by_cases hexists : e = .alreadyExists
        · subst hexists
          obtain ⟨content, hf⟩ := taken_of_hardLink (hh _ rfl) (hvacant key List.mem_cons_self) hr
          exact Or.inr ⟨.saw (keyPath key) (some content), ⟨(contents_at hpath).trans hf, rfl⟩,
            ⟨⟨.putIfNotExists key body options, u⟩, content, rfl, rfl⟩,
            Or.inr (Or.inr ⟨content, rfl⟩)⟩
        · cases e <;> first | exact absurd rfl hexists | exact .quiet (fun _ _ => rfl) rfl
  | @copy src dst u hv =>
    have hsrc : SparedPath calls (keyPath src) := hc.sparedPath hm List.mem_cons_self hv
    obtain rfl : events = [] := he
    have hsame := contents_same
      (hkept ⟨.copy src dst, u⟩ rfl fun p hp => List.mem_singleton.mp hp)
    cases ha with
    | failed c e hmissing _ =>
      cases e <;> first | exact absurd rfl hmissing | exact .quiet (fun _ _ => rfl) rfl
    | served now =>
      show Accounts calls t (t.copyFile _ _ now).2
        (LocalPhase.advance _ (.copyFile _ _) (t.copyFile _ _ now).1) []
      cases hr : (t.copyFile (keyPath src) (BlobCall.temp ⟨.copy src dst, u⟩) now).1 with
      | ok n =>
        obtain ⟨b, hb, hplace⟩ := copyFile_ok hr
        obtain ⟨_, hf, _⟩ := copyFile_of_canPlace hb hplace (hsrc.ne_temp hm) now
        exact Or.inr ⟨.saw (keyPath src) (some b), ⟨(contents_at hsrc).trans hb, hsame⟩,
          ⟨src, dst, u, b, rfl, Or.inr (by rw [hf, Function.update_self]), rfl⟩,
          Or.inr (Or.inl ⟨_, rfl⟩)⟩
      | error e =>
        rw [copyFile_error hr]
        by_cases hmissing : e = .notFound
        · subst hmissing
          have hparent : t.isDir (BlobCall.temp ⟨.copy src dst, u⟩).dropLast = true := by
            rw [BlobCall.temp, tempPath, List.dropLast_concat]
            exact hh _ rfl
          exact Or.inr ⟨.saw (keyPath src) none,
            ⟨(contents_at hsrc).trans (copyFile_notFound hparent hr), rfl⟩, rfl,
            Or.inr (Or.inl ⟨_, rfl⟩)⟩
        · cases e <;> first | exact absurd rfl hmissing | exact .quiet (fun _ _ => rfl) rfl
  | @publish src dst u hv =>
    have hpath : SparedPath calls (keyPath dst) :=
      hc.sparedPath hm (List.mem_cons_of_mem _ List.mem_cons_self) hv
    obtain ⟨src', dst', u', b, hcall, hb, rfl⟩ := he
    obtain ⟨rfl, rfl⟩ := BlobOp.copy.inj (congrArg BlobCall.op (LocalOp.write.inj hcall))
    obtain rfl := congrArg BlobCall.uuid (LocalOp.write.inj hcall)
    cases ha with
    | failed => exact .quiet (fun _ _ => rfl) ⟨src, dst, u, b, rfl, hb, rfl⟩
    | served now =>
      show Accounts calls t (t.rename _ _).2 (LocalPhase.advance _ (.rename _ _) (t.rename _ _).1) _
      cases hr : (t.rename (BlobCall.temp ⟨.copy src dst, u⟩) (keyPath dst)).1 with
      | error e =>
        rw [rename_error hr]
        exact .quiet (fun _ _ => rfl) ⟨src, dst, u, b, rfl, hb, rfl⟩
      | ok _ => exact Or.inr ⟨.wrote (keyPath dst) b,
          rename_contents ⟨.copy src dst, u⟩ hm hpath hb hr, ⟨src, dst, u, b, rfl, rfl⟩,
          Or.inr (Or.inr ⟨b, rfl⟩)⟩
  | @discard writer stage hprep =>
    refine .quiet (hkept writer rfl fun p hp => List.mem_singleton.mp hp) ?_
    rw [advance_discard hprep]
    cases stage with
    | past | prepared | filling | full | moved | taken | sweeping | astray => exact he
    | copied =>
      obtain ⟨src, dst, u, b, hcall, hb, rfl⟩ := he
      obtain rfl := LocalOp.write.inj hcall
      refine ⟨src, dst, u, b, rfl, ?_, rfl⟩
      cases ha with
      | failed => exact hb
      | served now =>
        refine Or.inl ?_
        show (t.removeFile _).2.files _ = none
        rw [(removeFile_files t _).1, Function.update_self]
  | @delete key u hv =>
    have hpath : SparedPath calls (keyPath key) := hc.sparedPath hm List.mem_cons_self hv
    obtain rfl : events = [] := he
    have herased : (MapEvent.erased (keyPath key) : FileChange).Effect (contents calls t)
        (contents calls (t.removeFile (keyPath key)).2) :=
      contents_update hpath fun p hp => by rw [(removeFile_files t _).1]
    cases ha with
    | failed c e hmissing _ =>
      cases e <;> first | exact absurd rfl hmissing | exact .quiet (fun _ _ => rfl) rfl
    | served now =>
      show Accounts calls t (t.removeFile _).2
        (LocalPhase.advance _ (.removeFile _) (t.removeFile _).1) []
      cases hr : (t.removeFile (keyPath key)).1 with
      | ok _ => exact Or.inr ⟨_, herased, rfl, Or.inr rfl⟩
      | error e =>
        by_cases hmissing : e = .notFound
        · subst hmissing
          exact Or.inr ⟨_, herased, rfl, Or.inr rfl⟩
        · rw [removeFile_error hr]
          cases e <;> first | exact absurd rfl hmissing | exact .quiet (fun _ _ => rfl) rfl
  | @opens op key hop hv =>
    obtain rfl : events = [] := he
    cases ha with
    | failed c e hmissing _ =>
      cases e <;> first | exact absurd rfl hmissing | exact .quiet (fun _ _ => rfl) rfl
    | served now =>
      refine accounts_seen (hc.sparedPath hm (opens_mem hop) hv) (hvacant key (opens_mem hop))
        fun content => ?_
      rcases opensKey_of_opens hop with rfl | ⟨start, stop, rfl⟩
      · exact Or.inr (Or.inl ⟨content, rfl⟩)
      · exact Or.inr (Or.inl ⟨content, rfl⟩)
  | @looks op key first hop hv =>
    obtain rfl : events = _ := he
    cases ha with
    | failed c e hmissing _ =>
      cases e <;> first | exact absurd rfl hmissing | exact .quiet (fun _ _ => rfl) rfl
    | served now =>
      refine accounts_seen (hc.sparedPath hm (opens_mem hop) hv) (hvacant key (opens_mem hop))
        fun content => ?_
      rcases opensKey_of_opens hop with rfl | ⟨start, stop, rfl⟩
      · exact Or.inr (Or.inr ⟨first, content, rfl⟩)
      · exact Or.inr (Or.inr ⟨first, content, rfl⟩)
  | @asks op key hop hv =>
    obtain rfl : events = [] := he
    cases ha with
    | failed c e hmissing _ =>
      cases e <;> first | exact absurd rfl hmissing | exact .quiet (fun _ _ => rfl) rfl
    | served now =>
      refine accounts_seen (hc.sparedPath hm (asks_mem hop) hv) (hvacant key (asks_mem hop))
        fun content => ?_
      cases op with
      | headBlob key' | blobExists key' =>
        obtain rfl := Option.some.inj hop
        exact Or.inr ⟨content, rfl⟩
      | write | getBlob | getBlobRange | sweep => cases hop
  | astray => exact he.elim
  | finds | lists =>
    exact .quiet (fun p _ => ha.files_other List.not_mem_nil) he
  | @sweeps fuel now olderThan p hu =>
    refine .quiet (fun p' hp' => ha.files_other fun hmem => ?_) he
    obtain ⟨key, _, hspared, rfl⟩ := hp'
    obtain rfl := List.mem_singleton.mp hmem
    have hnot : isUploadingTempFile (keyPath key) = false := hspared _ hm
    rw [hnot] at hu
    cases hu

end Events

/-! ### Pools of calls -/

/-- One filesystem call of one call of the backend. -/
abbrev LocalRuns : FileTree × List LocalThread → FileTree × List LocalThread → Prop :=
  Reach localDiscipline.next Replies fun _ _ _ => True

/-- A call is a few events, which lead from the contents of the keys to others. -/
noncomputable def explanation (D : Digest) (calls : List LocalOp) :
    Explanation LocalPhase FileTree LocalResult (Path → Option Bytes) FileChange LocalOp where
  callOf := LocalPhase.call
  abs := contents calls
  effect := MapEvent.Effect
  fits := Possible
  explains := Explains D

/-- The events of a call so far are some that it can have. -/
def LocalPhase.AdmitsPossible (t : FileTree) (q : LocalPhase) (events : List FileChange) : Prop :=
  q.Admits t events ∧ Possible q.call events

theorem possible_nothing (call : LocalOp) : Possible call [] := by
  cases call with
  | write writer =>
    obtain ⟨op, u⟩ := writer
    cases op <;> exact Or.inl rfl
  | getBlob | getBlobRange | headBlob | blobExists => exact Or.inl rfl
  | sweep => rfl

theorem explanation_sound (D : Digest) {calls : List LocalOp} {t₀ : FileTree}
    (hc : Compatible calls t₀) : (explanation D calls).Sound localDiscipline Replies
      (LocalInv calls) LocalPhase.AdmitsPossible (Settles D) where
  label _ _ _ := rfl
  keeps _ _ _ _ _ _ _ h hq ha := h.step hc hq ha
  event t t' before after q c r h hq ha events he := by
    have hm : q.call ∈ calls := h.mem (by simp)
    rcases accounts_of_step hc hm (h.vacant _ hm) (h.holds q (by simp)) hq ha he.1 with
      ⟨habs, hadm⟩ | ⟨e, heffect, hadm, hpossible⟩
    · exact Or.inl ⟨habs, hadm, he.2⟩
    · exact Or.inr ⟨e, heffect, hadm, hpossible⟩
  others t t' before after q c r h hq ha o ho events he := by
    refine ⟨?_, he.2⟩
    have hadm := he.1
    unfold LocalPhase.Admits at hadm ⊢
    cases hs : o.stage with
    | past | prepared | filling | full | sweeping | moved | taken =>
      simpa only [hs] using hadm
    | astray => simp only [hs] at hadm
    | copied =>
      simp only [hs] at hadm ⊢
      obtain ⟨src, dst, u, b, hcall, hholds, hevents⟩ := hadm
      exact ⟨src, dst, u, b, hcall, h.temp_holds hc hq ha ho hcall hholds, hevents⟩
  fits _ _ _ he := he.2
  explains _ _ _ _ hsettles he := hsettles _ _ he.1

theorem calls_start (D : Digest) (calls : List LocalOp) : (explanation D calls).Starts
    localDiscipline LocalPhase.AdmitsPossible (Settles D) (LocalOp.start D) calls where
  callOf _ := rfl
  admits_iff t call events := by
    have hfirst : LocalPhase.Admits t ⟨call, call.firstStage⟩ events ↔ events = [] := by
      cases call <;> rfl
    constructor
    · intro h
      exact hfirst.mp h.1
    · rintro rfl
      exact ⟨hfirst.mpr rfl, possible_nothing call⟩
  follows call _ := localOp_follows D call

theorem localInv_start (D : Digest) {calls : List LocalOp} {t : FileTree}
    (hc : Compatible calls t) : LocalInv calls t (calls.map fun call => (call.start D).phase) := by
  refine ⟨by simp [LocalOp.start, Function.comp_def], hc.vacant, fun q hq => ?_⟩
  obtain ⟨call, _, rfl⟩ := List.mem_map.mp hq
  cases call <;> trivial

/-- In every state that overlapping calls reach under one root, with sweeps among them and
whichever filesystem calls fail, an order of events explains what they have done; and the order
for any later state continues it. -/
theorem overlapping_local_calls_ordered (D : Digest) (calls : List LocalOp) (t : FileTree)
    (hc : Compatible calls t) (y z : FileTree × List LocalThread)
    (hy : LocalRuns (t, calls.map (LocalOp.start D)) y) (hz : LocalRuns y z) :
    ∃ order later,
      OrderedAs (explanation D calls) (LocalOp.start D) calls (contents calls t) order y ∧
      OrderedAs (explanation D calls) (LocalOp.start D) calls (contents calls t)
        (order ++ later) z :=
  (explanation_sound D hc).ordered (calls_start D calls) (localInv_start D hc) hy hz

/-- A schedule is executed call by call, at time 0. -/
theorem handle_runs (x : FileTree × List LocalThread) (schedule : List ℕ) :
    LocalRuns x (runSchedule localDiscipline.next (FileTree.handle 0) x schedule) := by
  refine runSchedule_reach (fun t c => .served 0 c) ?_
  induction schedule generalizing x with
  | nil => trivial
  | cons i rest ih => exact ⟨fun _ _ => trivial, ih _⟩

/-- A put, a copy of its key, a read and a sweep. -/
def sampleLocalCalls : List LocalOp :=
  [.write ⟨.put "k".toList (.fromBytes [1]) ⟨none⟩, sampleUuid 1⟩,
    .write ⟨.copy "k".toList "l".toList, sampleUuid 2⟩, .getBlob "k".toList, .sweep 9 0 0]

/-- The calls on an empty tree, after the steps of a schedule. -/
def sampleLocalRun (schedule : List ℕ) : FileTree × List LocalThread :=
  runSchedule localDiscipline.next (FileTree.handle 0)
    (FileTree.empty Limits.widest, sampleLocalCalls.map (LocalOp.start Digest.sha256)) schedule

theorem sampleLocalCalls_compatible :
    Compatible sampleLocalCalls (FileTree.empty Limits.widest) := by
  have hids : sampleUuid 2 ≠ sampleUuid 1 := by decide +kernel
  refine ⟨?_, by decide +kernel, by decide +kernel, by decide +kernel⟩
  simp [sampleLocalCalls, LocalOp.identifier, hids]

/-- The key is read between the two events of its copy, while a sweep is on its way. -/
theorem overlapping_local_calls_ordered_sample : ∃ order later,
    OrderedAs (explanation Digest.sha256 sampleLocalCalls) (LocalOp.start Digest.sha256)
      sampleLocalCalls (contents sampleLocalCalls (FileTree.empty Limits.widest)) order
      (sampleLocalRun [0, 0, 0, 0, 0, 1, 1]) ∧
    OrderedAs (explanation Digest.sha256 sampleLocalCalls) (LocalOp.start Digest.sha256)
      sampleLocalCalls (contents sampleLocalCalls (FileTree.empty Limits.widest)) (order ++ later)
      (runSchedule localDiscipline.next (FileTree.handle 0) (sampleLocalRun [0, 0, 0, 0, 0, 1, 1])
        [2, 3, 3, 3, 1, 2]) :=
  overlapping_local_calls_ordered Digest.sha256 sampleLocalCalls (FileTree.empty Limits.widest)
    sampleLocalCalls_compatible _ _ (handle_runs _ _) (handle_runs _ _)

end GraphqlOrmStorage.Local
