import GraphqlOrmStorage.LocalExistence
import GraphqlOrmStorage.MissingKeys
import GraphqlOrmStorage.StoreContract

/-!
# The local backend as a blob store

On a filesystem that takes the names and holds the bytes, and for keys of which none is a
directory on the way to another, each call of the backend does what the trait is for.
Leftovers of other uploads and other files may lie around the blobs.
-/
namespace GraphqlOrmStorage.Local

open Text Program FileTree Contract

/-- Keys that can all be stored at once, with their temporary files. -/
structure Coexisting (limits : Limits) (K : Str → Prop) : Prop where
  valid : ∀ key, K key → ValidKey key
  apart : ∀ key key', K key → K key' → key.splitOn '/' <+: key'.splitOn '/' → key = key'
  accepted : ∀ key, K key → ∀ c ∈ key.splitOn '/', limits.acceptsName c
  temp : ∀ key, K key → ∀ u, limits.acceptsName (tempName ((key.splitOn '/').getLast?.getD []) u)

/-- The files at the keys hold what the map says, and no other entry is in their way. -/
structure Represents (limits : Limits) (K : Str → Prop) (t : FileTree) (M : BlobMap) : Prop where
  limits_eq : t.limits = limits
  contents : ∀ key, K key → t.files (key.splitOn '/') = M key
  noDir : ∀ key, K key → t.isDir (key.splitOn '/') = false
  clear : ∀ key, K key → ∀ q, q <+: (key.splitOn '/').dropLast → t.files q = none

section Views

variable {limits : Limits} {K : Str → Prop} {t t' : FileTree} {M : BlobMap} {key : Str}

/-- A path is longer than what is above it. -/
theorem not_prefix_dropLast {path : Path} (hp : path ≠ []) : ¬ path <+: path.dropLast := by
  intro hpre
  have hlen := hpre.length_le
  have hpos := List.length_pos_iff.mpr hp
  rw [List.length_dropLast] at hlen
  omega

theorem Represents.dirs (hK : Coexisting limits K) (h : Represents limits K t M) (hkey : K key)
    (hgrows : GrowsDirs (key.splitOn '/').dropLast t t') (key' : Str) (hkey' : K key') :
    t'.isDir (key'.splitOn '/') = false := by
  rw [← Bool.not_eq_true]
  intro hdir
  rcases hgrows.added _ hdir with hdir | hpre
  · rw [h.noDir key' hkey'] at hdir
    cases hdir
  · obtain rfl := hK.apart key' key hkey' hkey (hpre.trans (List.dropLast_prefix _))
    exact not_prefix_dropLast (splitOn_ne_nil key') hpre

theorem Represents.untouched (hK : Coexisting limits K) (h : Represents limits K t M)
    (hkey : K key) (hsame : Untouched (key.splitOn '/') t t') : Represents limits K t' M where
  limits_eq := hsame.2.limits.trans h.limits_eq
  contents key' hkey' := by rw [hsame.1, h.contents key' hkey']
  noDir := h.dirs hK hkey hsame.2
  clear key' hkey' q hq := by rw [hsame.1, h.clear key' hkey' q hq]

theorem Represents.update (hK : Coexisting limits K) (h : Represents limits K t M) (hkey : K key)
    {content : Option Bytes}
    (hfiles : t'.files = Function.update t.files (key.splitOn '/') content)
    (hgrows : GrowsDirs (key.splitOn '/').dropLast t t') :
    Represents limits K t' (Function.update M key content) where
  limits_eq := hgrows.limits.trans h.limits_eq
  contents key' hkey' := by
    simp only [hfiles, Function.update_apply, (splitOn_injective '/').eq_iff,
      h.contents key' hkey']
  noDir := h.dirs hK hkey hgrows
  clear key' hkey' q hq := by
    rw [hfiles, Function.update_of_ne, h.clear key' hkey' q hq]
    rintro rfl
    obtain rfl := hK.apart key key' hkey hkey' (hq.trans (List.dropLast_prefix _))
    exact not_prefix_dropLast (splitOn_ne_nil key) hq

/-- A path with nothing in its way is reported as missing where nothing is there. -/
theorem resolveError_of_clear {path : Path} (hnone : t.lookup path = none)
    (hclear : ∀ q, q <+: path.dropLast → t.files q = none)
    (hacc : ∀ c ∈ path, t.limits.acceptsName c) : t.resolveError path = .notFound := by
  have hroot : t.isDir [] = true := isDir_iff.mpr t.lookup_nil
  obtain ⟨front, c, back, heq, hfront, hc⟩ := exists_first_missing hroot hnone
  rw [List.nil_append] at hfront hc
  refine (resolveError_eq_notFound_iff.mpr
    ⟨front, c, back, heq, hfront, ?_, hacc c (by simp [heq])⟩).2
  cases back using List.reverseRecOn with
  | nil => rwa [← heq]
  | append_singleton back d =>
    refine lookup_eq_none_iff.mpr ⟨hclear _ ⟨back, ?_⟩, hc⟩
    rw [heq, ← List.cons_append, ← List.append_assoc, List.dropLast_concat, List.append_assoc,
      List.singleton_append]

theorem Represents.lookup_none (h : Represents limits K t M) (hkey : K key) (hM : M key = none) :
    t.lookup (key.splitOn '/') = none :=
  lookup_eq_none_iff.mpr ⟨(h.contents key hkey).trans hM, h.noDir key hkey⟩

theorem Represents.resolveError (hK : Coexisting limits K) (h : Represents limits K t M)
    (hkey : K key) (hM : M key = none) : t.resolveError (key.splitOn '/') = .notFound :=
  resolveError_of_clear (h.lookup_none hkey hM) (h.clear key hkey)
    (by rw [h.limits_eq]; exact hK.accepted key hkey)

end Views

/-! ### Uploads and copies that succeed or fail as they should -/

section Uploads

variable {D : Digest} {u : Uuid} {now : ℤ} {t t₁ : FileTree} {key src dst : Str}
  {body : StorageByteStream} {path : Path}

/-- Once the parent is made, the path itself can be written. -/
theorem canPlace_target (hp : path ≠ []) (hgrows : GrowsDirs path.dropLast t t₁)
    (hparent : t₁.isDir path.dropLast = true) (hacc : ∀ c ∈ path, t.limits.acceptsName c)
    (hdir : t.isDir path = false) : t₁.CanPlace path := by
  refine canPlace_iff.mpr ⟨hp, ?_, hparent, (hgrows.isDir_eq hp).trans hdir⟩
  rw [hgrows.limits]
  exact hacc

/-- So can the temporary file next to it. -/
theorem canPlace_tempPath (hgrows : GrowsDirs path.dropLast t t₁)
    (hparent : t₁.isDir path.dropLast = true) (hacc : ∀ c ∈ path, t.limits.acceptsName c)
    (htemp : t.limits.acceptsName (tempName (path.getLast?.getD []) u))
    (h₀ : t.lookup (tempPath path u) = none) : t₁.CanPlace (tempPath path u) := by
  have hsame : (tempPath path u).dropLast = path.dropLast := by simp [tempPath]
  refine canPlace_target (by simp [tempPath]) (by rwa [hsame]) (by rwa [hsame]) (fun c hc => ?_)
    (lookup_eq_none_iff.mp h₀).2
  rcases List.mem_append.mp hc with hc | hc
  · exact hacc c (List.mem_of_mem_dropLast hc)
  · rw [List.mem_singleton.mp hc]
    exact htemp

variable (D now) in
/-- A stream that fails stops the loop with its error, if what comes before fits. -/
theorem writeChunks_fails {temp : Path} {l : List (Except StorageError Bytes)} {e : StorageError}
    (hl : firstError l = some e) (hasher : D.Hasher) (n : ℕ) (old : Bytes)
    (ht : t.files temp = some old)
    (hfit : (old ++ (okChunks l).flatten).length ≤ t.limits.maxFileSize) :
    (FsM.run now (writeChunks D temp l hasher n) t).1 = .error e := by
  induction l generalizing hasher n t old with
  | nil => cases hl
  | cons item l ih =>
    cases item with
    | error e' =>
      obtain rfl : e' = e := Option.some.inj hl
      rfl
    | ok chunk =>
      have hlen : old.length + chunk.length ≤ t.limits.maxFileSize := by
        simp only [okChunks, List.flatten_cons, List.length_append] at hfit
        omega
      obtain ⟨hr, hf, hd⟩ := append_fits ht hlen now
      simp only [writeChunks, Prog.bind_eq_bind, FsM.run_bind, Fs.run_append, hr]
      refine ih hl _ _ (old ++ chunk) (by rw [hf, Function.update_self]) ?_
      rw [hd.2]
      simpa [okChunks] using hfit

variable (D now) in
theorem writeStreamToTemp_fails {temp : Path} {e : StorageError} (hb : body.body = .error e)
    (hc : t.CanPlace temp) (hfit : (concatBody body).length ≤ t.limits.maxFileSize) :
    (FsM.run now (writeStreamToTemp D temp body) t).1 = .error e := by
  obtain ⟨hr, hf, hd⟩ := createFile_of_canPlace hc now
  have hempty : (t.createFile temp now).2.files temp = some [] := by rw [hf, Function.update_self]
  have hchunks := writeChunks_fails D now (body_eq_error.mp hb) D.new 0 [] hempty
    (by rw [hd.2]; simpa [concatBody] using hfit)
  simp only [writeStreamToTemp, Prog.bind_eq_bind, FsM.run_bind, Fs.run_createFile, hr, hchunks]
  rfl

/-- An upload whose body fails passes the failure on. -/
theorem uploadThen_fails {α : Type} {e : StorageError}
    (publish : Path → Path → BlobWriteOutcome → FsM (Except StorageError α)) (hk : ValidKey key)
    (hb : body.body = .error e) (hacc : ∀ c ∈ key.splitOn '/', t.limits.acceptsName c)
    (htemp : t.limits.acceptsName (tempName ((key.splitOn '/').getLast?.getD []) u))
    (hno : ∀ q, q <+: (key.splitOn '/').dropLast → t.files q = none)
    (h₀ : t.lookup (tempPath (key.splitOn '/') u) = none)
    (hfit : (concatBody body).length ≤ t.limits.maxFileSize) :
    (FsM.run now (uploadThen D u key body publish) t).1 = .error e := by
  have hp := splitOn_ne_nil key
  have hr := createParentDir_succeeds now hp hacc hno
  obtain ⟨_, hgrows⟩ := createParentDir_spec now t (key.splitOn '/')
  have hparent := (createParentDir_ok hr).2
  simp only [uploadThen, pathFor_of_valid hk, Prog.bind_eq_bind, FsM.run_bind, hr]
  generalize (FsM.run now (createParentDir (key.splitOn '/')) t).2 = t₁ at hgrows hparent
  have hfails := writeStreamToTemp_fails D now hb
    (canPlace_tempPath hgrows hparent hacc htemp h₀) (by rwa [hgrows.limits])
  simp only [tempPathFor_eq hp, FsM.run_bind, hfails]
  rfl

variable (now) in
/-- A copy succeeds when its source is there and nothing is in the way of its target. -/
theorem copyBlob_succeeds {b : Bytes} (hs : ValidKey src) (hd : ValidKey dst)
    (hsrc : t.files (src.splitOn '/') = some b)
    (hacc : ∀ c ∈ dst.splitOn '/', t.limits.acceptsName c)
    (htemp : t.limits.acceptsName (tempName ((dst.splitOn '/').getLast?.getD []) u))
    (hno : ∀ q, q <+: (dst.splitOn '/').dropLast → t.files q = none)
    (h₀ : t.lookup (tempPath (dst.splitOn '/') u) = none)
    (hdir : t.isDir (dst.splitOn '/') = false) :
    (FsM.run now (copyBlob u src dst) t).1 = .ok () := by
  have hp := splitOn_ne_nil dst
  have hr := createParentDir_succeeds now hp hacc hno
  obtain ⟨hfiles, hgrows⟩ := createParentDir_spec now t (dst.splitOn '/')
  have hparent := (createParentDir_ok hr).2
  have hne : src.splitOn '/' ≠ tempPath (dst.splitOn '/') u := by
    intro heq
    rw [heq, files_of_lookup_none h₀] at hsrc
    cases hsrc
  simp only [copyBlob, pathFor_of_valid hs, pathFor_of_valid hd, Prog.bind_eq_bind,
    FsM.run_bind, hr]
  generalize (FsM.run now (createParentDir (dst.splitOn '/')) t).2 = t₁ at hfiles hgrows hparent
  obtain ⟨hcopied, hf₂, hd₂⟩ := copyFile_of_canPlace (by rw [hfiles]; exact hsrc)
    (canPlace_tempPath hgrows hparent hacc htemp h₀) hne now
  have hmoved := (rename_of_canPlace (t := (t₁.copyFile _ _ now).2)
    (by rw [hf₂, Function.update_self])
    (hd₂.canPlace.mpr (canPlace_target hp hgrows hparent hacc hdir)) (tempPath_ne hp u)).1
  simp only [tempPathFor_eq hp, FsM.run_bind, Fs.run_copyFile, hcopied, Fs.run_rename, hmoved]
  rfl

end Uploads

/-! ### Calls -/

/-- A call of the trait on this backend. -/
def storeCall (D : Digest) (u : Uuid) : StoreCall → FsM StoreAnswer
  | .putBlob key body options => do return .wrote (← putBlob D u key body options)
  | .putBlobIfNotExists key body options => do
    return .created (← putBlobIfNotExists D u key body options)
  | .getBlob key => do
    match ← getBlob key with
    | .error e => return .read (.error (.error e))
    | .ok blob => return .read (collectStorageStream blob.body)
  | .headBlob key => do return .described ((← headBlob key).map (Option.map keyAndSize))
  | .blobExists key => do return .found (← blobExists key)
  | .copyBlob src dst => do return .done (← copyBlob u src dst)
  | .deleteBlob key => do return .done (← deleteBlob key)

/-- The call is made at some time, with an identifier that occurs in no name, and returns. -/
def Does (D : Digest) (t : FileTree) (q : StoreCall) (a : StoreAnswer) (t' : FileTree) : Prop :=
  ∃ u now, FreshUuid t u ∧ FsM.run now (storeCall D u q) t = (a, t')

/-- What the backend can do: keys among those that can be stored, and bodies that fit. -/
def StoreLimits (limits : Limits) (K : Str → Prop) (_M : BlobMap) (q : StoreCall) : Prop :=
  q.size ≤ limits.maxFileSize ∧ ∀ key ∈ q.keys, ValidKey key → K key

section Calls

variable {D : Digest} {limits : Limits} {K : Str → Prop} {t t' : FileTree} {M : BlobMap}
  {u : Uuid} {now : ℤ} {key src dst : Str} {body : StorageByteStream} {options : BlobPutOptions}

/-- What a call answers and leaves behind is what the service does. -/
def Conforms (D : Digest) (limits : Limits) (K : Str → Prop) (M : BlobMap) (q : StoreCall)
    (r : StoreAnswer × FileTree) : Prop :=
  r.1 = (serve D M q).1 ∧ Represents limits K r.2 (serve D M q).2

theorem conforms_of_valid {q : StoreCall} (hk : ∀ key ∈ q.keys, ValidKey key)
    {r : StoreAnswer × FileTree} : Conforms D limits K M q r ↔
      r.1 = (answerValid D M q).1 ∧ Represents limits K r.2 (answerValid D M q).2 := by
  rw [Conforms, serve_of_valid hk]

/-- A call on a key that is not valid makes no filesystem call. -/
theorem storeCall_invalid (h : Represents limits K t M) {q : StoreCall} (hq : q.keys = [key])
    (hk : ¬ ValidKey key) : Conforms D limits K M q (FsM.run now (storeCall D u q) t) := by
  have hpath := pathFor_of_not_valid hk
  unfold Conforms
  rw [serve_of_invalid hq hk]
  cases q with
  | putBlob | putBlobIfNotExists | getBlob | headBlob | blobExists | deleteBlob =>
    obtain rfl : _ = key := by simpa [StoreCall.keys] using hq
    simp only [storeCall, putBlob, putBlobIfNotExists, uploadThen, getBlob, blobExists, headBlob,
      deleteBlob, hpath]
    exact ⟨rfl, h⟩
  | copyBlob src dst => simp [StoreCall.keys] at hq

theorem copyBlob_invalid (h : Represents limits K t M)
    (hnot : ¬ ValidKey src ∨ ValidKey src ∧ ¬ ValidKey dst) :
    Conforms D limits K M (.copyBlob src dst)
      (FsM.run now (storeCall D u (.copyBlob src dst)) t) := by
  obtain ⟨key, rfl, hserve⟩ := serve_copyBlob_of_invalid (D := D) (M := M) hnot
  unfold Conforms
  rw [hserve]
  rcases hnot with hsrc | ⟨hsrc, hdst⟩
  · simp only [storeCall, copyBlob, pathFor_of_not_valid hsrc, if_neg hsrc]
    exact ⟨rfl, h⟩
  · simp only [storeCall, copyBlob, pathFor_of_valid hsrc, pathFor_of_not_valid hdst, if_pos hsrc]
    exact ⟨rfl, h⟩

theorem outcomeOf_of_fits {b : Bytes} (hfit : b.length ≤ limits.maxFileSize) :
    outcomeOf D b = ⟨b.length, sha256Hex D b⟩ := by
  have hbound := limits.offset_bound
  have hle : b.length ≤ u64Max := by
    unfold u64Max
    omega
  rw [outcomeOf, min_eq_left hle]

theorem putBlob_conforms (hK : Coexisting limits K) (h : Represents limits K t M) (hkey : K key)
    (hfresh : FreshUuid t u) (hfit : (concatBody body).length ≤ limits.maxFileSize) :
    Conforms D limits K M (.putBlob key body options)
      (FsM.run now (storeCall D u (.putBlob key body options)) t) := by
  have hk := hK.valid key hkey
  have hkeys : ∀ key' ∈ (StoreCall.putBlob key body options).keys, ValidKey key' := by
    simpa [StoreCall.keys] using hk
  have hlookup : t.lookup (tempPath (key.splitOn '/') u) = none :=
    hfresh.files_none (List.mem_append_right _ (List.mem_singleton.mpr rfl)) (infix_tempName _ u)
  have hacc := hK.accepted key hkey
  have htemp := hK.temp key hkey u
  rw [← h.limits_eq] at hacc htemp hfit
  rw [conforms_of_valid hkeys]
  simp only [storeCall, Prog.bind_eq_bind, FsM.run_bind]
  have hspec := putBlob_spec D u key body options now t (hfresh.tempPath _)
  cases hbody : body.body with
  | error e =>
    have hfails : (FsM.run now (putBlob D u key body options) t).1 = .error e :=
      uploadThen_fails _ hk hbody hacc htemp (h.clear key hkey) hlookup hfit
    rcases hspec with ⟨_, _, hsame⟩ | ⟨b, _, hb, _⟩
    · simp only [answerValid, hbody, hfails]
      exact ⟨rfl, h.untouched hK hkey hsame⟩
    · rw [hbody] at hb
      cases hb
  | ok b =>
    rw [concatBody_eq hbody] at hfit
    have hok := putBlob_succeeds D u options now hk hbody hacc htemp (h.clear key hkey) hlookup hfit
      (h.noDir key hkey)
    rcases hspec with ⟨e, he, _⟩ | ⟨b', _, hb', _, hwrote⟩
    · rw [hok] at he
      cases he
    · obtain rfl : b = b' := by simpa [hbody] using hb'
      simp only [answerValid, hbody, hok]
      rw [h.limits_eq] at hfit
      exact ⟨by rw [outcomeOf_of_fits hfit]; rfl, h.update hK hkey hwrote.1 hwrote.2⟩

theorem putBlobIfNotExists_conforms (hK : Coexisting limits K) (h : Represents limits K t M)
    (hkey : K key) (hfresh : FreshUuid t u) (hfit : (concatBody body).length ≤ limits.maxFileSize) :
    Conforms D limits K M (.putBlobIfNotExists key body options)
      (FsM.run now (storeCall D u (.putBlobIfNotExists key body options)) t) := by
  have hk := hK.valid key hkey
  have hp := splitOn_ne_nil key
  have hkeys : ∀ key' ∈ (StoreCall.putBlobIfNotExists key body options).keys, ValidKey key' := by
    simpa [StoreCall.keys] using hk
  have hlookup : t.lookup (tempPath (key.splitOn '/') u) = none :=
    hfresh.files_none (List.mem_append_right _ (List.mem_singleton.mpr rfl)) (infix_tempName _ u)
  have hacc := hK.accepted key hkey
  have htemp := hK.temp key hkey u
  rw [← h.limits_eq] at hacc htemp hfit
  rw [conforms_of_valid hkeys]
  simp only [storeCall, Prog.bind_eq_bind, FsM.run_bind]
  have hspec := putBlobIfNotExists_spec D u key body options now t (hfresh.tempPath _)
  cases hbody : body.body with
  | error e =>
    have hfails : (FsM.run now (putBlobIfNotExists D u key body options) t).1 = .error e :=
      uploadThen_fails _ hk hbody hacc htemp (h.clear key hkey) hlookup hfit
    rcases hspec with ⟨_, hsame⟩ | ⟨b, _, hb, _⟩
    · simp only [answerValid, hbody, hfails]
      exact ⟨rfl, h.untouched hK hkey hsame⟩
    · rw [hbody] at hb
      cases hb
  | ok b =>
    rw [concatBody_eq hbody] at hfit
    obtain ⟨t₂, hf, hgrows, hparent, hrun⟩ := uploadThen_succeeds D u linkNew now hk hbody hacc
      htemp (h.clear key hkey) hlookup hfit
    rw [← putBlobIfNotExists_eq D u key body options] at hrun
    cases hM : M key with
    | some old =>
      have hthere : t.lookup (key.splitOn '/') ≠ none := by
        intro hnone
        rw [← h.contents key hkey, files_of_lookup_none hnone] at hM
        cases hM
      have hnone : (FsM.run now (putBlobIfNotExists D u key body options) t).1 = .ok none := by
        rw [hrun]
        exact (linkNew_none_iff hf hgrows ⟨b.length, sha256Hex D b⟩).mpr hthere
      rcases hspec with ⟨_, hsame⟩ | ⟨_, _, _, habsent, _⟩
      · simp only [answerValid, hbody, hM, hnone]
        exact ⟨rfl, h.untouched hK hkey hsame⟩
      · rw [h.contents key hkey, hM] at habsent
        cases habsent
    | none =>
      have habsent : t₂.files (key.splitOn '/') = none := by
        rw [hf, Function.update_of_ne (tempPath_ne hp u).symm, h.contents key hkey, hM]
      have hwritten : t₂.files (tempPath (key.splitOn '/') u) = some b := by
        rw [hf, Function.update_self]
      have hlinked := (hardLink_of_canPlace hwritten
        (canPlace_target hp hgrows hparent hacc (h.noDir key hkey)) habsent).1
      have hok : (FsM.run now (putBlobIfNotExists D u key body options) t).1 =
          .ok (some ⟨b.length, sha256Hex D b⟩) := by
        rw [hrun]
        simp only [linkNew, Prog.bind_eq_bind, FsM.run_bind, Fs.run_hardLink, hlinked]
        rfl
      rcases hspec with ⟨⟨e, he⟩ | hnone, _⟩ | ⟨b', _, hb', _, _, hwrote⟩
      · rw [hok] at he
        cases he
      · rw [hok] at hnone
        cases hnone
      · obtain rfl : b = b' := by simpa [hbody] using hb'
        simp only [answerValid, hbody, hM, hok]
        rw [h.limits_eq] at hfit
        exact ⟨by rw [outcomeOf_of_fits hfit]; rfl, h.update hK hkey hwrote.1 hwrote.2⟩

/-- Reading, describing and looking for a blob. -/
theorem reads_conform (hK : Coexisting limits K) (h : Represents limits K t M) (hkey : K key)
    {q : StoreCall} (hq : q = .getBlob key ∨ q = .headBlob key ∨ q = .blobExists key) :
    Conforms D limits K M q (FsM.run now (storeCall D u q) t) := by
  have hk := hK.valid key hkey
  have hkeys : ∀ key' ∈ q.keys, ValidKey key' := by
    rcases hq with rfl | rfl | rfl <;> simpa [StoreCall.keys] using hk
  rw [conforms_of_valid hkeys]
  cases hM : M key with
  | some b =>
    obtain ⟨modified, hnode⟩ := files_eq_some.mp ((h.contents key hkey).trans hM)
    have hmeta : t.metadata (key.splitOn '/') = .ok (.file b modified) := metadata_eq_ok.mpr hnode
    have hget := getBlob_of_some now hk hnode
    rcases hq with rfl | rfl | rfl
    · simp only [storeCall, Prog.bind_eq_bind, FsM.run_bind, hget, answerValid, hM]
      refine ⟨?_, h⟩
      simp [collectStorageStream, readerStream, collectChunks_map_ok, flatten_readChunks]
    · simp [storeCall, headBlob, pathFor_of_valid hk, hmeta, answerValid, hM, Except.map,
        keyAndSize, nodeLen, h]
    · simp [storeCall, blobExists, pathFor_of_valid hk, hmeta, answerValid, hM, h]
  | none =>
    have hnone := h.lookup_none hkey hM
    have hmeta : t.metadata (key.splitOn '/') = .error .notFound := by
      simp only [FileTree.metadata, hnone, h.resolveError hK hkey hM]
    rcases hq with rfl | rfl | rfl
    · simp [storeCall, getBlob, pathFor_of_valid hk, hmeta, answerValid, hM, h]
    · simp [storeCall, headBlob, pathFor_of_valid hk, hmeta, answerValid, hM, Except.map, h]
    · simp [storeCall, blobExists, pathFor_of_valid hk, hmeta, answerValid, hM, h]

theorem copyBlob_conforms (hK : Coexisting limits K) (h : Represents limits K t M) (hsrc : K src)
    (hdst : K dst) (hfresh : FreshUuid t u) :
    Conforms D limits K M (.copyBlob src dst)
      (FsM.run now (storeCall D u (.copyBlob src dst)) t) := by
  have hs := hK.valid src hsrc
  have hd := hK.valid dst hdst
  have hkeys : ∀ key' ∈ (StoreCall.copyBlob src dst).keys, ValidKey key' := by
    simp [StoreCall.keys, hs, hd]
  have hlookup : t.lookup (tempPath (dst.splitOn '/') u) = none :=
    hfresh.files_none (List.mem_append_right _ (List.mem_singleton.mpr rfl)) (infix_tempName _ u)
  have hacc := hK.accepted dst hdst
  have htemp := hK.temp dst hdst u
  rw [← h.limits_eq] at hacc htemp
  rw [conforms_of_valid hkeys]
  simp only [storeCall, Prog.bind_eq_bind, FsM.run_bind]
  have hspec := copyBlob_spec u src dst now t (hfresh.tempPath _)
  cases hM : M src with
  | none =>
    have hwritable : MissingKeys.LocalWritable t dst :=
      ⟨D, u, .fromBytes [], ⟨none⟩, now, _, putBlob_succeeds D u ⟨none⟩ now hd
        (StorageByteStream.body_fromBytes []) hacc htemp (h.clear dst hdst) hlookup (Nat.zero_le _)
        (h.noDir dst hdst)⟩
    have hmissing : (FsM.run now (copyBlob u src dst) t).1 = .error (.missingBlob src) := by
      have hprepared := (hwritable.prepares now).2
      obtain ⟨hfiles, hgrows⟩ := createParentDir_spec now t (dst.splitOn '/')
      have hview := h.untouched hK hdst ⟨hfiles, hgrows⟩
      exact (MissingKeys.copyBlob_missing_iff hs (h.lookup_none hsrc hM) hwritable).mpr
        ((MissingKeys.missingName_prepared hprepared).mpr
          ⟨hview.lookup_none hsrc hM, hview.resolveError hK hsrc hM⟩)
    rcases hspec with ⟨_, _, hsame⟩ | ⟨b, _, _, hb, _⟩
    · simp only [answerValid, hM, hmissing]
      exact ⟨rfl, h.untouched hK hdst hsame⟩
    · rw [h.contents src hsrc, hM] at hb
      cases hb
  | some b =>
    have hok := copyBlob_succeeds now hs hd ((h.contents src hsrc).trans hM) hacc htemp
      (h.clear dst hdst) hlookup (h.noDir dst hdst)
    rcases hspec with ⟨e, he, _⟩ | ⟨b', _, _, hb', _, hwrote⟩
    · rw [hok] at he
      cases he
    · obtain rfl : b' = b := by simpa [h.contents src hsrc, hM] using hb'.symm
      simp only [answerValid, hM, hok]
      exact ⟨rfl, h.update hK hdst hwrote.1 hwrote.2⟩

theorem deleteBlob_conforms (hK : Coexisting limits K) (h : Represents limits K t M)
    (hkey : K key) :
    Conforms D limits K M (.deleteBlob key) (FsM.run now (storeCall D u (.deleteBlob key)) t) := by
  have hk := hK.valid key hkey
  have hkeys : ∀ key' ∈ (StoreCall.deleteBlob key).keys, ValidKey key' := by
    simpa [StoreCall.keys] using hk
  have hok : (FsM.run now (deleteBlob key) t).1 = .ok () := by
    cases hl : t.lookup (key.splitOn '/') with
    | none =>
      have hM : M key = none := by rw [← h.contents key hkey, files_of_lookup_none hl]
      exact ((checks_of_none_iff hk hl).mpr (h.resolveError hK hkey hM)).2.2.2
    | some node =>
      cases node with
      | file b modified => exact (checks_of_file hk hl).2.2.2
      | dir =>
        have hdir := h.noDir key hkey
        rw [isDir_iff.mpr hl] at hdir
        cases hdir
  rw [conforms_of_valid hkeys]
  simp only [storeCall, Prog.bind_eq_bind, FsM.run_bind, hok]
  rcases deleteBlob_spec key now t with ⟨hnot, _⟩ | ⟨_, hfiles, hsame, _⟩
  · exact absurd hk hnot
  · exact ⟨rfl, h.update hK hkey hfiles ((GrowsDirs.refl _ t).trans_same hsame)⟩

variable (D now) in
/-- Every call does what the service does. -/
theorem storeCall_conforms (hK : Coexisting limits K) (h : Represents limits K t M)
    {q : StoreCall} (hlimits : StoreLimits limits K M q) (hfresh : FreshUuid t u) :
    Conforms D limits K M q (FsM.run now (storeCall D u q) t) := by
  obtain ⟨hfit, hkeys⟩ := hlimits
  cases q with
  | putBlob key body options =>
    by_cases hk : ValidKey key
    · exact putBlob_conforms hK h (hkeys key (by simp [StoreCall.keys]) hk) hfresh hfit
    · exact storeCall_invalid h rfl hk
  | putBlobIfNotExists key body options =>
    by_cases hk : ValidKey key
    · exact putBlobIfNotExists_conforms hK h (hkeys key (by simp [StoreCall.keys]) hk) hfresh hfit
    · exact storeCall_invalid h rfl hk
  | getBlob key | headBlob key | blobExists key =>
    by_cases hk : ValidKey key
    · exact reads_conform hK h (hkeys key (by simp [StoreCall.keys]) hk) (by simp)
    · exact storeCall_invalid h rfl hk
  | copyBlob src dst =>
    by_cases hs : ValidKey src
    · by_cases hd : ValidKey dst
      · exact copyBlob_conforms hK h (hkeys src (by simp [StoreCall.keys]) hs)
          (hkeys dst (by simp [StoreCall.keys]) hd) hfresh
      · exact copyBlob_invalid h (Or.inr ⟨hs, hd⟩)
    · exact copyBlob_invalid h (Or.inl hs)
  | deleteBlob key =>
    by_cases hk : ValidKey key
    · exact deleteBlob_conforms hK h (hkeys key (by simp [StoreCall.keys]) hk)
    · exact storeCall_invalid h rfl hk

/-- The backend refines the service. -/
theorem does_refines (D : Digest) (hK : Coexisting limits K) :
    Program.Refines (Does D) (Represents limits K) (StoreLimits limits K) (serve D) Eq := by
  intro t M q a t' h hlimits hdoes
  obtain ⟨u, now, hfresh, hrun⟩ := hdoes
  have hconforms := storeCall_conforms D now hK h hlimits hfresh
  rw [hrun] at hconforms
  exact hconforms

end Calls

end GraphqlOrmStorage.Local
