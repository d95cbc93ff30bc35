import GraphqlOrmStorage.SmbPrompt
import GraphqlOrmStorage.StoreContract

/-!
# The SMB backend as a blob store

On a prompt share, and for keys of which none is a directory on the way to another, each
call of the backend does what the trait is for, but for which error it ends with: what is
missing is reported in the words of the provider.
-/
namespace GraphqlOrmStorage.Smb

open Text Program Program.Prog Contract
open Local (BlobMap concatBody)

/-! ### Reading -/

section Reads

variable {v : ShareState} {source : BodySource} {b : Bytes} {err : Option StorageError}
  {config : SmbStorageConfig} {key : Str} {f : Handle}

/-- A body is collected to its end. -/
theorem collectBody_ensures {fuel : ℕ} {bytes : Bytes} (hd : Delivers v.files source b err)
    (hfuel : source.bound ≤ fuel) :
    Ensures Prompt v (collectBody fuel source bytes) fun v' r =>
      v' = v.finish source ∧ r = err.elim (.ok (bytes ++ b)) .error := by
  induction fuel generalizing v source b bytes with
  | zero => cases source <;> simp [BodySource.bound] at hfuel
  | succ fuel ih =>
    refine (next_ensures hd).bind fun v₁ r hnext => ?_
    cases hnext with
    | @chunk chunk b' source' hb hd' hhandle hbound =>
      subst hb
      refine Ensures.mono (ih hd' (by omega)) fun v' r hr => ?_
      obtain ⟨rfl, rfl⟩ := hr
      rw [ShareState.finish, ShareState.finish, hhandle, List.append_assoc]
      exact ⟨rfl, rfl⟩
    | fails he hb hnone =>
      subst he hb
      simp only [drop_closed hnone]
      exact ensures_ret.mpr ⟨rfl, rfl⟩
    | ends he hb hnone =>
      subst he hb
      simp only [drop_closed hnone]
      refine ensures_ret.mpr ⟨rfl, ?_⟩
      rw [List.append_nil]
      rfl

/-- A handle that was opened for reading has been closed again. -/
theorem Leaves.of_read (ht : Tidy v.files []) (hn : v.files.names (keyPath config key) = some f) :
    Leaves [] v.files.fileAt v
      (v.withFiles ((v.files.openOn f).close v.files.handles.length)) := by
  have hheld := (ht.idle.openOn f).held
  have hlive := ht.live _ f hn
  refine .of_dirs ((ht.openOn hn).close hheld hlive) ?_ rfl
  rw [ShareState.files_withFiles, fileAt_close hheld hlive]
  rfl

theorem getBlob_present (hk : ValidKey key) (hdir : v.isDir (keyPath config key) = false)
    (hn : v.files.names (keyPath config key) = some f) (ht : Tidy v.files []) :
    Ensures Prompt v (getBlob config key) fun v' r =>
      v' = v.withFiles (v.files.openOn f) ∧ r = .ok ⟨key, (v.files.content f).length,
        .blob v.files.handles.length 0 (v.files.content f).length⟩ := by
  simp only [getBlob, validateBlobKey_eq_ok.mpr hk]
  refine transferPermit_ensures.bind fun v₁ r hr => ?_
  obtain ⟨rfl, rfl⟩ := hr
  refine (openFile_present hk hdir hn (ht.live _ f hn) .read).bind fun v₂ r hr => ?_
  obtain ⟨rfl, rfl⟩ := hr
  have hquery : ∀ o : Choice, o.Steady → (v₁.withFiles (v₁.files.openOn f)).answer o
      (.queryInfo v₁.files.handles.length) =
        (.ok (v₁.files.content f).length, v₁.withFiles (v₁.files.openOn f)) := by
    intro o _
    simp only [ShareState.answer, ShareState.answerFiles, ShareState.files_withFiles,
      Server.answer_queryInfo (ht.idle.openOn f).held]
    rfl
  exact ensures_step hquery (ensures_ret.mpr ⟨rfl, rfl⟩)

theorem getBlob_missing (hk : ValidKey key) (hdir : v.isDir (keyPath config key) = false)
    (hn : v.files.names (keyPath config key) = none) :
    Ensures Prompt v (getBlob config key) fun v' r => v' = v ∧ ∃ e, r = .error e := by
  simp only [getBlob, validateBlobKey_eq_ok.mpr hk]
  refine transferPermit_ensures.bind fun v₁ r hr => ?_
  obtain ⟨rfl, rfl⟩ := hr
  refine (openFile_missing hk hdir hn .read).bind fun v₂ r hr => ?_
  obtain ⟨rfl, e, rfl, _⟩ := hr
  have hrelease : ∀ o : Choice, o.Steady → v₂.answer o .releasePermit = ((), v₂) := fun _ _ => rfl
  exact ensures_step hrelease (ensures_ret.mpr ⟨rfl, e, rfl⟩)

/-- What is read is what the file holds. -/
theorem opened_delivers (ht : Tidy v.files []) (hn : v.files.names (keyPath config key) = some f) :
    Delivers (v.files.openOn f) (.blob v.files.handles.length 0 (v.files.content f).length)
      (v.files.content f) none :=
  .blob 0 (ht.idle.openOn f).held (ht.live _ f hn) (ht.short f)

theorem readBlob_present (hk : ValidKey key) (hdir : v.isDir (keyPath config key) = false)
    (hn : v.files.names (keyPath config key) = some f) (ht : Tidy v.files []) :
    Ensures Prompt v (readBlob config key) fun v' r =>
      r = .ok (v.files.content f) ∧ Leaves [] v.files.fileAt v v' := by
  refine (getBlob_present hk hdir hn ht).bind fun v₁ r hr => ?_
  obtain ⟨rfl, rfl⟩ := hr
  have hsmall : ¬ isizeMax < (v.files.content f).length := by
    have hshort := ht.short f
    unfold isizeMax
    unfold maxOffset at hshort
    omega
  simp only [if_neg hsmall]
  refine (collectBody_ensures (v := v.withFiles (v.files.openOn f)) (opened_delivers ht hn)
    le_rfl).bind fun v₂ r hr => ?_
  obtain ⟨rfl, rfl⟩ := hr
  exact ensures_ret.mpr ⟨rfl, .of_read ht hn⟩

theorem readBlob_missing (hk : ValidKey key) (hdir : v.isDir (keyPath config key) = false)
    (hn : v.files.names (keyPath config key) = none) :
    Ensures Prompt v (readBlob config key) fun v' r => v' = v ∧ ∃ e, r = .error (.error e) := by
  refine (getBlob_missing hk hdir hn).bind fun v₁ r hr => ?_
  obtain ⟨rfl, e, rfl⟩ := hr
  exact ensures_ret.mpr ⟨rfl, e, rfl⟩

/-- The metadata of a key, as far as all providers tell them. -/
theorem headBlob_ensures (hk : ValidKey key) (hdir : v.isDir (keyPath config key) = false)
    (ht : Tidy v.files []) : Ensures Prompt v (headBlob config key) fun v' r =>
      r.map (Option.map keyAndSize) =
          .ok ((v.files.fileAt (keyPath config key)).map fun b => (key, some b.length)) ∧
        Leaves [] v.files.fileAt v v' := by
  simp only [headBlob, validateBlobKey_eq_ok.mpr hk]
  cases hn : v.files.names (keyPath config key) with
  | none =>
    refine (openFile_missing hk hdir hn .read).bind fun v₁ r hr => ?_
    obtain ⟨rfl, e, rfl, he⟩ := hr
    simp only [he, if_true]
    refine ensures_ret.mpr ⟨?_, .of_dirs ht rfl rfl⟩
    simp [Except.map, fileAt_eq_none.mpr hn]
  | some f =>
    refine (openFile_present hk hdir hn (ht.live _ f hn) .read).bind fun v₁ r hr => ?_
    obtain ⟨rfl, rfl⟩ := hr
    have hquery : ∀ o : Choice, o.Steady → (v.withFiles (v.files.openOn f)).answer o
        (.queryInfo v.files.handles.length) =
          (.ok (v.files.content f).length, v.withFiles (v.files.openOn f)) := by
      intro o _
      simp only [ShareState.answer, ShareState.answerFiles, ShareState.files_withFiles,
        Server.answer_queryInfo (ht.idle.openOn f).held]
      rfl
    have hclose : ∀ o : Choice, o.Steady → (v.withFiles (v.files.openOn f)).answer o
        (.close v.files.handles.length) = (.ok (), v.withFiles
          ((v.files.openOn f).close v.files.handles.length)) := fun _ _ => rfl
    refine ensures_step hquery (ensures_step hclose (ensures_ret.mpr ⟨?_, .of_read ht hn⟩))
    simp [Except.map, fileAt_of_name hn, keyAndSize]

theorem blobExists_ensures (hk : ValidKey key) (hdir : v.isDir (keyPath config key) = false)
    (ht : Tidy v.files []) : Ensures Prompt v (blobExists config key) fun v' r =>
      r = .ok (v.files.fileAt (keyPath config key)).isSome ∧ Leaves [] v.files.fileAt v v' := by
  simp only [blobExists, validateBlobKey_eq_ok.mpr hk]
  cases hn : v.files.names (keyPath config key) with
  | none =>
    refine (openFile_missing hk hdir hn .read).bind fun v₁ r hr => ?_
    obtain ⟨rfl, e, rfl, he⟩ := hr
    simp only [he, if_true]
    exact ensures_ret.mpr ⟨by rw [fileAt_eq_none.mpr hn]; rfl, .of_dirs ht rfl rfl⟩
  | some f =>
    refine (openFile_present hk hdir hn (ht.live _ f hn) .read).bind fun v₁ r hr => ?_
    obtain ⟨rfl, rfl⟩ := hr
    have hclose : ∀ o : Choice, o.Steady → (v.withFiles (v.files.openOn f)).answer o
        (.close v.files.handles.length) = (.ok (), v.withFiles
          ((v.files.openOn f).close v.files.handles.length)) := fun _ _ => rfl
    refine ensures_step hclose (ensures_ret.mpr ⟨?_, .of_read ht hn⟩)
    rw [fileAt_of_name hn]
    rfl

end Reads

/-! ### Calls -/

/-- A call of the trait on this backend. -/
def storeCall (D : Digest) (config : SmbStorageConfig) (u : Uuid) : StoreCall → SmbM StoreAnswer
  | .putBlob key body _ => do return .wrote (← putBlob D config u key (.external body.inner))
  | .putBlobIfNotExists key body _ => do
    return .created (← putBlobIfNotExists D config key (.external body.inner))
  | .getBlob key => do return .read (← readBlob config key)
  | .headBlob key => do return .described ((← headBlob config key).map (Option.map keyAndSize))
  | .blobExists key => do return .found (← blobExists config key)
  | .copyBlob src dst => do return .done (← copyBlob D config u src dst)
  | .deleteBlob key => do return .done (← deleteBlob config key)

/-- Nothing has the temporary name that the identifier gives to a key. -/
def FreeTemp (v : ShareState) (config : SmbStorageConfig) (u : Uuid) (key : Str) : Prop :=
  v.files.names (keyPath config (tempBeside u key)) = none ∧
    v.isDir (keyPath config (tempBeside u key)) = false

/-- The call is made with such an identifier, and returns. -/
def Does (D : Digest) (config : SmbStorageConfig) (v : ShareState) (q : StoreCall)
    (a : StoreAnswer) (v' : ShareState) : Prop :=
  ∃ u log, (∀ key ∈ q.keys, FreeTemp v config u key) ∧
    RunsIn Prompt v (storeCall D config u q) log v' a

/-- Keys that can all be stored at once. -/
structure Coexisting (config : SmbStorageConfig) (K : Str → Prop) : Prop where
  root : ValidRoot config
  valid : ∀ key, K key → ValidKey key
  apart : ∀ key key', K key → K key' → key.splitOn '/' <+: key'.splitOn '/' → key = key'

/-- The files at the keys hold what the map says, and nothing is in their way. -/
structure Represents (config : SmbStorageConfig) (K : Str → Prop) (v : ShareState) (M : BlobMap) :
    Prop where
  tidy : Tidy v.files []
  contents : ∀ key, K key → v.files.fileAt (keyPath config key) = M key
  noDir : ∀ key, K key → v.isDir (keyPath config key) = false
  clear : ∀ key, K key → Clear v (parentPath config key)

/-- What the backend can do: keys among those that can be stored, and bodies that offsets reach
into. A conditional write creates the key before it reads the body, so a body that fails is only
noticed where the key is missing, and not if it fails as the creation would. -/
structure StoreLimits (K : Str → Prop) (M : BlobMap) (q : StoreCall) : Prop where
  size : q.size ≤ maxOffset
  keys : ∀ key ∈ q.keys, ValidKey key → K key
  body : ∀ key body options e, q = .putBlobIfNotExists key body options →
    body.body = .error e → M key = none ∧ isCollision e = false

section Calls

variable {D : Digest} {config : SmbStorageConfig} {K : Str → Prop} {v v' : ShareState}
  {M : BlobMap} {u : Uuid} {key key' src dst : Str} {body : StorageByteStream}
  {options : BlobPutOptions} {files : Str → Option Bytes}

theorem keyPath_injective (hroot : ValidRoot config) (hk : ValidKey key) (hk' : ValidKey key')
    (h : keyPath config key = keyPath config key') : key = key' := by
  rw [keyPath_eq, keyPath_eq] at h
  have hpath := intercalate_injective (plain_append (plain_rootPath hroot) (plain_of_valid hk))
    (plain_append (plain_rootPath hroot) (plain_of_valid hk')) h
  exact splitOn_injective '/' (List.append_cancel_left hpath)

/-- No key is a directory that another is in. -/
theorem Coexisting.directory_ne (hK : Coexisting config K) (hkey : K key) (hkey' : K key')
    {q : Path} (hpre : q <+: parentPath config key) :
    ['\\'].intercalate q ≠ keyPath config key' := by
  intro heq
  have hplain := plain_append (plain_rootPath hK.root) (plain_of_valid (hK.valid key hkey))
  have hplain' := plain_append (plain_rootPath hK.root) (plain_of_valid (hK.valid key' hkey'))
  have habove : q <+: rootPath config ++ key.splitOn '/' :=
    hpre.trans (List.prefix_append_right_inj _ |>.mpr (List.dropLast_prefix _))
  rw [keyPath_eq] at heq
  obtain rfl := intercalate_injective (fun c hc => hplain c (habove.subset hc)) hplain' heq
  obtain rfl := hK.apart key' key hkey' hkey ((List.prefix_append_right_inj _).mp habove)
  exact directory_ne_keyPath hK.root (hK.valid key' hkey') hpre (keyPath_eq config key').symm

/-- What is left after a call that wrote a key, or nothing. -/
theorem Represents.leaves (hK : Coexisting config K) (h : Represents config K v M) (hkey : K key)
    {path : Path} (hpath : path <+: parentPath config key) (content : Option Bytes)
    (hl : Leaves path (Function.update v.files.fileAt (keyPath config key) content) v v') :
    Represents config K v' (Function.update M key content) where
  tidy := hl.tidy
  contents key' hkey' := by
    rw [hl.files]
    by_cases heq : key' = key
    · rw [heq, Function.update_self, Function.update_self]
    · rw [Function.update_of_ne heq, Function.update_of_ne, h.contents key' hkey']
      exact fun he => heq (keyPath_injective hK.root (hK.valid key' hkey') (hK.valid key hkey) he)
  noDir key' hkey' := by
    rw [hl.isDir_eq fun q hq => hK.directory_ne hkey hkey' (hq.trans hpath), h.noDir key' hkey']
  clear key' hkey' := by
    intro q hne hpre
    rw [← fileAt_eq_none, hl.files, Function.update_of_ne (hK.directory_ne hkey' hkey hpre),
      fileAt_eq_none]
    exact h.clear key' hkey' q hne hpre

/-- What is left after a call that wrote nothing. -/
theorem Represents.same (hK : Coexisting config K) (h : Represents config K v M) (hkey : K key)
    {path : Path} (hpath : path <+: parentPath config key)
    (hl : Leaves path v.files.fileAt v v') : Represents config K v' M := by
  have hleaves := h.leaves hK hkey hpath (v.files.fileAt (keyPath config key))
    (by rwa [Function.update_eq_self])
  rwa [h.contents key hkey, Function.update_eq_self] at hleaves

/-- What a call answers and leaves behind is what the service does. -/
def Conforms (D : Digest) (config : SmbStorageConfig) (K : Str → Prop) (M : BlobMap) (q : StoreCall)
    (v' : ShareState) (a : StoreAnswer) : Prop :=
  SameButErrors a (serve D M q).1 ∧ Represents config K v' (serve D M q).2

theorem conforms_of_valid {q : StoreCall} (hk : ∀ key ∈ q.keys, ValidKey key) {a : StoreAnswer} :
    Conforms D config K M q v' a ↔ SameButErrors a (answerValid D M q).1 ∧
      Represents config K v' (answerValid D M q).2 := by
  rw [Conforms, serve_of_valid hk]

/-- A call on a key that is not valid makes no request. -/
theorem storeCall_invalid (h : Represents config K v M) {q : StoreCall} (hq : q.keys = [key])
    (hk : ¬ ValidKey key) :
    Ensures Prompt v (storeCall D config u q) (Conforms D config K M q) := by
  have herror := validateBlobKey_error hk
  unfold Conforms
  rw [serve_of_invalid hq hk]
  cases q with
  | putBlob | putBlobIfNotExists | getBlob | headBlob | blobExists | deleteBlob =>
    obtain rfl : _ = key := by simpa [StoreCall.keys] using hq
    simp only [storeCall, putBlob, putBlobIfNotExists, readBlob, getBlob, blobExists, headBlob,
      deleteBlob, herror]
    exact ensures_ret.mpr ⟨Or.inl rfl, h⟩
  | copyBlob src dst => simp [StoreCall.keys] at hq

/-- The bytes of a body, and how it ends. -/
theorem external_delivers (s : Server) (body : StorageByteStream) :
    Delivers s (.external body.inner) (concatBody body) (firstError body.inner) := .external _

theorem writeResult_none {b : Bytes} (hfit : b.length ≤ maxOffset) :
    writeResult D b none = .ok (outcomeOf D b) := by
  have hle : b.length ≤ u64Max := by
    unfold u64Max
    unfold maxOffset at hfit
    omega
  rw [writeResult, outcomeOf, min_eq_left hle]

theorem putBlob_conforms (hK : Coexisting config K) (h : Represents config K v M) (hkey : K key)
    (hfree : FreeTemp v config u key) (hfit : (concatBody body).length ≤ maxOffset) :
    Ensures Prompt v (storeCall D config u (.putBlob key body options))
      (Conforms D config K M (.putBlob key body options)) := by
  have hk := hK.valid key hkey
  have hkeys : ∀ key' ∈ (StoreCall.putBlob key body options).keys, ValidKey key' := by
    simpa [StoreCall.keys] using hk
  refine (putBlob_ensures hK.root hk (h.clear key hkey) (h.noDir key hkey) hfree.1 hfree.2
    (external_delivers _ body) h.tidy hfit).bind fun v' r hr => ?_
  obtain ⟨rfl, hleaves⟩ := hr
  refine ensures_ret.mpr ((conforms_of_valid hkeys).mpr ?_)
  cases hbody : body.body with
  | error e =>
    simp only [body_eq_error.mp hbody] at hleaves ⊢
    simp only [answerValid, hbody]
    exact ⟨Or.inl rfl, h.same hK hkey (List.prefix_refl _) hleaves⟩
  | ok b =>
    obtain ⟨hnone, hb⟩ := StorageByteStream.body_eq_ok.mp hbody
    simp only [hnone] at hleaves ⊢
    rw [writeResult_none hfit]
    obtain rfl : concatBody body = b := hb
    simp only [answerValid, hbody]
    exact ⟨Or.inl rfl, h.leaves hK hkey (List.prefix_refl _) _ hleaves⟩

theorem Represents.name (h : Represents config K v M) (hkey : K key) {b : Bytes}
    (hM : M key = some b) : ∃ f, v.files.names (keyPath config key) = some f ∧
      v.files.content f = b :=
  Option.map_eq_some_iff.mp ((h.contents key hkey).trans hM)

theorem Represents.name_none (h : Represents config K v M) (hkey : K key) (hM : M key = none) :
    v.files.names (keyPath config key) = none :=
  fileAt_eq_none.mp ((h.contents key hkey).trans hM)

theorem putBlobIfNotExists_conforms (hK : Coexisting config K) (h : Represents config K v M)
    (hkey : K key) (hfit : (concatBody body).length ≤ maxOffset)
    (hfails : ∀ e, body.body = .error e → M key = none ∧ isCollision e = false) :
    Ensures Prompt v (storeCall D config u (.putBlobIfNotExists key body options))
      (Conforms D config K M (.putBlobIfNotExists key body options)) := by
  have hk := hK.valid key hkey
  have hkeys : ∀ key' ∈ (StoreCall.putBlobIfNotExists key body options).keys, ValidKey key' := by
    simpa [StoreCall.keys] using hk
  simp only [storeCall, putBlobIfNotExists, validateBlobKey_eq_ok.mpr hk]
  cases hM : M key with
  | some old =>
    obtain ⟨f, hn, _⟩ := h.name hkey hM
    obtain ⟨b, hbody⟩ : ∃ b, body.body = .ok b := by
      cases hbody : body.body with
      | ok b => exact ⟨b, rfl⟩
      | error e => exact absurd (hfails e hbody).1 (by simp [hM])
    refine ensures_bind.mpr ((writeFile_collides hK.root hk (h.clear key hkey) (h.noDir key hkey) hn
      rfl h.tidy).bind fun v' r hr => ?_)
    obtain ⟨⟨e, rfl, he⟩, hleaves⟩ := hr
    simp only [he, if_true]
    refine ensures_ret.mpr (ensures_ret.mpr ((conforms_of_valid hkeys).mpr ?_))
    simp only [answerValid, hbody, hM]
    exact ⟨Or.inl rfl, h.same hK hkey (List.prefix_refl _) hleaves⟩
  | none =>
    refine ensures_bind.mpr ((writeFile_ensures hK.root hk (h.clear key hkey) (h.noDir key hkey)
      (h.name_none hkey hM) (external_delivers _ body) h.tidy hfit true).bind fun v' r hr => ?_)
    obtain ⟨rfl, hleaves⟩ := hr
    have hleft := h.leaves hK hkey (List.prefix_refl _) _ hleaves
    cases hbody : body.body with
    | ok b =>
      obtain ⟨hnone, hb⟩ := StorageByteStream.body_eq_ok.mp hbody
      obtain rfl : concatBody body = b := hb
      simp only [hnone, writeResult_none hfit] at hleft ⊢
      refine ensures_ret.mpr (ensures_ret.mpr ((conforms_of_valid hkeys).mpr ?_))
      simp only [answerValid, hbody, hM]
      exact ⟨Or.inl rfl, hleft⟩
    | error e =>
      have hsame : Function.update M key none = M := by rw [← hM, Function.update_eq_self]
      simp only [body_eq_error.mp hbody, writeResult, storedBytes, (hfails e hbody).2,
        Bool.false_eq_true, if_false] at hleft ⊢
      rw [hsame] at hleft
      have hend : Conforms D config K M (.putBlobIfNotExists key body options) v'
          (.created (.error e)) := by
        refine (conforms_of_valid hkeys).mpr ?_
        simp only [answerValid, hbody]
        exact ⟨Or.inl rfl, hleft⟩
      split_ifs
      · have hreconnect : ∀ o : Choice, o.Steady → v'.answer o .reconnect = (.ok (), v') :=
          fun _ _ => rfl
        exact ensures_step hreconnect (ensures_ret.mpr (ensures_ret.mpr hend))
      · exact ensures_ret.mpr (ensures_ret.mpr hend)

theorem getBlob_conforms (hK : Coexisting config K) (h : Represents config K v M) (hkey : K key) :
    Ensures Prompt v (storeCall D config u (.getBlob key))
      (Conforms D config K M (.getBlob key)) := by
  have hk := hK.valid key hkey
  have hkeys : ∀ key' ∈ (StoreCall.getBlob key).keys, ValidKey key' := by
    simpa [StoreCall.keys] using hk
  cases hM : M key with
  | none =>
    refine (readBlob_missing hk (h.noDir key hkey) (h.name_none hkey hM)).bind fun v' r hr => ?_
    obtain ⟨rfl, e, rfl⟩ := hr
    refine ensures_ret.mpr ((conforms_of_valid hkeys).mpr ?_)
    simp only [answerValid, hM]
    exact ⟨Or.inr ⟨rfl, rfl⟩, h⟩
  | some b =>
    obtain ⟨f, hn, rfl⟩ := h.name hkey hM
    refine (readBlob_present hk (h.noDir key hkey) hn h.tidy).bind fun v' r hr => ?_
    obtain ⟨rfl, hleaves⟩ := hr
    refine ensures_ret.mpr ((conforms_of_valid hkeys).mpr ?_)
    simp only [answerValid, hM]
    exact ⟨Or.inl rfl, h.same hK hkey List.nil_prefix hleaves⟩

theorem headBlob_conforms (hK : Coexisting config K) (h : Represents config K v M) (hkey : K key) :
    Ensures Prompt v (storeCall D config u (.headBlob key))
      (Conforms D config K M (.headBlob key)) := by
  have hk := hK.valid key hkey
  have hkeys : ∀ key' ∈ (StoreCall.headBlob key).keys, ValidKey key' := by
    simpa [StoreCall.keys] using hk
  refine (headBlob_ensures hk (h.noDir key hkey) h.tidy).bind fun v' r hr => ?_
  obtain ⟨hr, hleaves⟩ := hr
  rw [h.contents key hkey] at hr
  exact ensures_ret.mpr ((conforms_of_valid hkeys).mpr
    ⟨Or.inl (congrArg _ hr), h.same hK hkey List.nil_prefix hleaves⟩)

theorem blobExists_conforms (hK : Coexisting config K) (h : Represents config K v M)
    (hkey : K key) : Ensures Prompt v (storeCall D config u (.blobExists key))
      (Conforms D config K M (.blobExists key)) := by
  have hk := hK.valid key hkey
  have hkeys : ∀ key' ∈ (StoreCall.blobExists key).keys, ValidKey key' := by
    simpa [StoreCall.keys] using hk
  refine (blobExists_ensures hk (h.noDir key hkey) h.tidy).bind fun v' r hr => ?_
  obtain ⟨rfl, hleaves⟩ := hr
  refine ensures_ret.mpr ((conforms_of_valid hkeys).mpr ⟨Or.inl ?_, ?_⟩)
  · rw [h.contents key hkey]
    rfl
  · exact h.same hK hkey List.nil_prefix hleaves

/-- The copy of the trait reads the source and writes the target at the same time. -/
theorem copyBlob_conforms (hK : Coexisting config K) (h : Represents config K v M) (hsrc : K src)
    (hdst : K dst) (hfree : FreeTemp v config u dst) :
    Ensures Prompt v (storeCall D config u (.copyBlob src dst))
      (Conforms D config K M (.copyBlob src dst)) := by
  have hs := hK.valid src hsrc
  have hd := hK.valid dst hdst
  have hkeys : ∀ key' ∈ (StoreCall.copyBlob src dst).keys, ValidKey key' := by
    simp [StoreCall.keys, hs, hd]
  cases hM : M src with
  | none =>
    refine ensures_bind.mpr ((getBlob_missing hs (h.noDir src hsrc) (h.name_none hsrc hM)).bind
      fun v' r hr => ?_)
    obtain ⟨rfl, e, rfl⟩ := hr
    refine ensures_ret.mpr (ensures_ret.mpr ((conforms_of_valid hkeys).mpr ?_))
    simp only [answerValid, hM]
    exact ⟨Or.inr ⟨rfl, rfl⟩, h⟩
  | some b =>
    obtain ⟨f, hn, rfl⟩ := h.name hsrc hM
    refine ensures_bind.mpr ((getBlob_present hs (h.noDir src hsrc) hn h.tidy).bind
      fun v₁ r hr => ?_)
    obtain ⟨rfl, rfl⟩ := hr
    have hput := putBlob_ensures (D := D) (v := v.withFiles (v.files.openOn f)) hK.root hd
      (h.clear dst hdst) (h.noDir dst hdst) hfree.1 hfree.2 (opened_delivers h.tidy hn)
      (h.tidy.openOn hn) (h.tidy.short f)
    refine hput.bind fun v' r hr => ?_
    obtain ⟨rfl, hleaves⟩ := hr
    refine ensures_ret.mpr (ensures_ret.mpr ((conforms_of_valid hkeys).mpr ?_))
    simp only [answerValid, hM]
    exact ⟨Or.inl rfl, h.leaves hK hdst (List.prefix_refl _) _ ⟨hleaves.tidy, hleaves.files,
      hleaves.dirs⟩⟩

theorem deleteBlob_conforms (hK : Coexisting config K) (h : Represents config K v M)
    (hkey : K key) : Ensures Prompt v (storeCall D config u (.deleteBlob key))
      (Conforms D config K M (.deleteBlob key)) := by
  have hk := hK.valid key hkey
  have hkeys : ∀ key' ∈ (StoreCall.deleteBlob key).keys, ValidKey key' := by
    simpa [StoreCall.keys] using hk
  simp only [storeCall, deleteBlob, validateBlobKey_eq_ok.mpr hk]
  refine (removeFile_ensures hk (h.noDir key hkey) h.tidy).bind fun v' r hr => ?_
  obtain ⟨rfl, ht, hdirs, hfiles⟩ := hr
  refine ensures_ret.mpr ((conforms_of_valid hkeys).mpr ⟨Or.inl rfl, ?_⟩)
  exact h.leaves hK hkey List.nil_prefix none (.of_dirs ht hfiles hdirs)

/-- A copy that names a key that is not valid writes nothing. -/
theorem copyBlob_invalid (hK : Coexisting config K) (h : Represents config K v M)
    (hsrc : ValidKey src → K src) (hnot : ¬ ValidKey src ∨ ValidKey src ∧ ¬ ValidKey dst) :
    Ensures Prompt v (storeCall D config u (.copyBlob src dst))
      (Conforms D config K M (.copyBlob src dst)) := by
  obtain ⟨key, hkey, hserve⟩ := serve_copyBlob_of_invalid (D := D) (M := M) hnot
  unfold Conforms
  rw [hserve]
  rcases hnot with hinvalid | ⟨hs, hinvalid⟩
  · rw [if_neg hinvalid] at hkey
    subst hkey
    simp only [storeCall, copyBlob, getBlob, validateBlobKey_error hinvalid]
    exact ensures_ret.mpr ⟨Or.inl rfl, h⟩
  · cases hM : M src with
    | none =>
      refine ensures_bind.mpr ((getBlob_missing hs (h.noDir src (hsrc hs))
        (h.name_none (hsrc hs) hM)).bind fun v' r hr => ?_)
      obtain ⟨rfl, e, rfl⟩ := hr
      exact ensures_ret.mpr (ensures_ret.mpr ⟨Or.inr ⟨rfl, rfl⟩, h⟩)
    | some b =>
      obtain ⟨f, hn, rfl⟩ := h.name (hsrc hs) hM
      refine ensures_bind.mpr ((getBlob_present hs (h.noDir src (hsrc hs)) hn h.tidy).bind
        fun v₁ r hr => ?_)
      obtain ⟨rfl, rfl⟩ := hr
      have hdrop : ∀ o : Choice, o.Steady → (v.withFiles (v.files.openOn f)).answer o
          (.dropFile v.files.handles.length) = ((), v.withFiles
            ((v.files.openOn f).close v.files.handles.length)) := fun _ _ => rfl
      have hrelease : ∀ o : Choice, o.Steady →
          (v.withFiles ((v.files.openOn f).close v.files.handles.length)).answer o .releasePermit =
            ((), v.withFiles ((v.files.openOn f).close v.files.handles.length)) := fun _ _ => rfl
      simp only [putBlob, validateBlobKey_error hinvalid]
      refine ensures_step hdrop (ensures_step hrelease (ensures_ret.mpr (ensures_ret.mpr ?_)))
      exact ⟨Or.inr ⟨rfl, rfl⟩, h.same hK (hsrc hs) List.nil_prefix (.of_read h.tidy hn)⟩

/-- Every call does what the service does. -/
theorem storeCall_conforms (hK : Coexisting config K) (h : Represents config K v M) {q : StoreCall}
    (hlimits : StoreLimits K M q) (hfree : ∀ key ∈ q.keys, FreeTemp v config u key) :
    Ensures Prompt v (storeCall D config u q) (Conforms D config K M q) := by
  obtain ⟨hfit, hkeys, hbody⟩ := hlimits
  cases q with
  | putBlob key body options =>
    by_cases hk : ValidKey key
    · exact putBlob_conforms hK h (hkeys key (by simp [StoreCall.keys]) hk)
        (hfree key (by simp [StoreCall.keys])) hfit
    · exact storeCall_invalid h rfl hk
  | putBlobIfNotExists key body options =>
    by_cases hk : ValidKey key
    · exact putBlobIfNotExists_conforms hK h (hkeys key (by simp [StoreCall.keys]) hk) hfit
        fun e he => hbody key body options e rfl he
    · exact storeCall_invalid h rfl hk
  | getBlob key =>
    by_cases hk : ValidKey key
    · exact getBlob_conforms hK h (hkeys key (by simp [StoreCall.keys]) hk)
    · exact storeCall_invalid h rfl hk
  | headBlob key =>
    by_cases hk : ValidKey key
    · exact headBlob_conforms hK h (hkeys key (by simp [StoreCall.keys]) hk)
    · exact storeCall_invalid h rfl hk
  | blobExists key =>
    by_cases hk : ValidKey key
    · exact blobExists_conforms hK h (hkeys key (by simp [StoreCall.keys]) hk)
    · exact storeCall_invalid h rfl hk
  | copyBlob src dst =>
    have hsrc := hkeys src (by simp [StoreCall.keys])
    by_cases hs : ValidKey src
    · by_cases hd : ValidKey dst
      · exact copyBlob_conforms hK h (hsrc hs) (hkeys dst (by simp [StoreCall.keys]) hd)
          (hfree dst (by simp [StoreCall.keys]))
      · exact copyBlob_invalid hK h hsrc (Or.inr ⟨hs, hd⟩)
    · exact copyBlob_invalid hK h hsrc (Or.inl hs)
  | deleteBlob key =>
    by_cases hk : ValidKey key
    · exact deleteBlob_conforms hK h (hkeys key (by simp [StoreCall.keys]) hk)
    · exact storeCall_invalid h rfl hk

/-- The backend refines the service, but for which error it is. -/
theorem does_refines (D : Digest) (hK : Coexisting config K) :
    Program.Refines (Does D config) (Represents config K) (StoreLimits K) (serve D)
      SameButErrors := by
  intro v M q a v' h hlimits hdoes
  obtain ⟨u, log, hfree, hrun⟩ := hdoes
  exact storeCall_conforms hK h hlimits hfree log v' a hrun

end Calls

end GraphqlOrmStorage.Smb
