import GraphqlOrmStorage.SmbUpload

/-!
# All or nothing through the SMB backend

`write_file` and `put_blob` keep to the stages of an upload whatever the replies are,
so a key that is written over requests that fail, time out or lose their replies holds
its old content or the whole new one.
-/
namespace GraphqlOrmStorage.Smb

open Text Program Program.Prog

section Programs

variable {α β : Type} {config : SmbStorageConfig} {path key k : Str}
  {content : Except StorageError Bytes} {stage : UploadStage} {h : Handle} {w : Bytes}

/-- The program keeps to the stages from this one on; nothing is said once it is lost. -/
def Uploads (path key : Str) (content : Except StorageError Bytes)
    (post : UploadStage → α → Prop) (stage : UploadStage) (p : SmbM α) : Prop :=
  Follows (uploadDiscipline path key content) (fun q a => q = .lost ∨ post q a) stage p

theorem uploads_lost (post : UploadStage → α → Prop) (p : SmbM α) :
    Uploads path key content post .lost p := by
  induction p with
  | ret a => exact Or.inl rfl
  | call c k ih => exact ⟨Or.inl rfl, fun r => ih r⟩

theorem uploads_ret {post : UploadStage → α → Prop} {a : α} (ha : post stage a) :
    Uploads path key content post stage (.ret a) := Or.inr ha

theorem Uploads.bind {mid : UploadStage → α → Prop} {post : UploadStage → β → Prop} {p : SmbM α}
    {f : α → SmbM β} (hp : Uploads path key content mid stage p)
    (hf : ∀ q a, mid q a → Uploads path key content post q (f a)) :
    Uploads path key content post stage (p.bind f) := by
  refine Follows.bind hp fun q a ha => ?_
  rcases ha with hl | ha
  · subst hl
    exact uploads_lost post (f a)
  · exact hf q a ha

theorem Uploads.mono {post post' : UploadStage → α → Prop} {p : SmbM α}
    (hp : Uploads path key content post stage p) (hpost : ∀ q a, post q a → post' q a) :
    Uploads path key content post' stage p :=
  Follows.mono hp fun q a ha => ha.imp id (hpost q a)

/-- One request that is due in this stage. -/
theorem uploads_request {post : UploadStage → β → Prop} {c : SmbCall} {f : SmbCall.Reply c → SmbM β}
    (hi : stage.Issues path key content c)
    (hf : ∀ r, Uploads path key content post (stage.after c r) (f r)) :
    Uploads path key content post stage ((request c).bind f) := by
  by_cases hl : stage = .lost
  · subst hl
    exact uploads_lost post _
  · refine ⟨Or.inr hi, fun r => ?_⟩
    have hr := hf r
    rwa [← UploadStage.advance_of_ne_lost hl] at hr

/-! ### Directories, permits and handles -/

theorem ensureSegments_uploads (current : Str) (segments : List Str) :
    Uploads path key content (fun q _ => q = stage) stage (ensureSegments current segments) := by
  induction segments generalizing current with
  | nil => exact uploads_ret rfl
  | cons segment rest ih =>
    refine uploads_request trivial fun r => ?_
    cases r with
    | error failure => cases failure <;> exact uploads_ret rfl
    | ok resource =>
      refine uploads_request trivial fun r => ?_
      cases r with
      | error e => exact uploads_ret rfl
      | ok _ => exact ih _

theorem ensureParentDirectories_uploads :
    Uploads path key content (fun q _ => q = stage) stage (ensureParentDirectories config k) := by
  unfold ensureParentDirectories
  split
  · exact uploads_ret rfl
  · split
    · exact uploads_ret rfl
    · exact ensureSegments_uploads _ _

theorem transferPermit_uploads :
    Uploads path key content (fun q _ => q = stage) stage transferPermit := by
  refine uploads_request trivial fun r => ?_
  cases r <;> exact uploads_ret rfl

/-- How opening the target ends: with a handle, or where it began. -/
def Opens (stage : UploadStage) (access : Access) (q : UploadStage) :
    Except StorageError Handle → Prop
  | .ok h => q = stage.after (.openExisting [] access) (.ok (.file h))
  | .error _ => q = stage

theorem expectFile_uploads (operation message : Str) (access : Access) (resource : Resource) :
    Uploads path key content (Opens stage access)
      (stage.after (.openExisting path access) (.ok resource))
      (expectFile operation message resource) := by
  cases resource with
  | file h => exact uploads_ret rfl
  | directory h => exact uploads_request trivial fun r => uploads_ret rfl
  | pipe h => exact uploads_request trivial fun r => uploads_ret rfl

theorem openFile_uploads (hk : ValidKey k) (access : Access) (ho : stage.opens) :
    Uploads (keyPath config k) key content (Opens stage access) stage
      (openFile config k access) := by
  simp only [openFile, remotePath_of_valid config hk]
  refine uploads_request ⟨rfl, ho⟩ fun r => ?_
  cases r with
  | ok resource => exact expectFile_uploads _ _ access resource
  | error failure =>
    split
    · rename_i hresult
      cases failure <;> cases hresult
    · split_ifs
      · refine uploads_request trivial fun r => ?_
        cases r with
        | error e => exact uploads_ret rfl
        | ok _ =>
          refine uploads_request ⟨rfl, ho⟩ fun r => ?_
          cases r with
          | ok resource => exact expectFile_uploads _ _ access resource
          | error failure => cases failure <;> exact uploads_ret rfl
      · exact uploads_ret rfl

/-- Removing the target: an upload that was complete is gone or still there. -/
theorem removeFile_uploads (hk : ValidKey k) (ho : stage.opens) :
    Uploads (keyPath config k) key content
      (fun q _ => q = stage ∨ ((∃ w, stage = .filled w) ∧ q = .idle)) stage
      (removeFile config k) := by
  refine Uploads.bind (openFile_uploads hk .delete ho) fun q r hq => ?_
  cases r with
  | error e =>
    simp only
    split_ifs <;> exact uploads_ret (Or.inl hq)
  | ok h =>
    have hdelete : ∀ q', (q = .deleting h ∧ q' = .idle ∨
        ∃ w, q = .withdrawing h w ∧ q' = .unsure w) →
        (q' = stage ∨ ((∃ w, stage = .filled w) ∧ q' = .idle)) →
        Uploads (keyPath config k) key content
          (fun q _ => q = stage ∨ ((∃ w, stage = .filled w) ∧ q = .idle)) q
          ((request (.setDelete h)).bind fun r => (request (.close h)).bind fun r' =>
            .ret (andThen (withTimeout "delete".toList r) (withTimeout "close".toList r'))) := by
      intro q' hq' hpost
      rcases hq' with ⟨hq, hq'⟩ | ⟨w, hq, hq'⟩
      · subst hq hq'
        exact uploads_request (Or.inl rfl) fun r => uploads_request trivial fun r' =>
          uploads_ret hpost
      · subst hq hq'
        exact uploads_request (Or.inr ⟨w, rfl⟩) fun r => uploads_request trivial fun r' =>
          uploads_ret hpost
    have hq : q = stage.after (.openExisting [] .delete) (.ok (.file h)) := hq
    cases stage with
    | idle => exact hdelete .idle (Or.inl ⟨hq, rfl⟩) (Or.inl rfl)
    | filled w => exact hdelete .idle (Or.inl ⟨hq, rfl⟩) (Or.inr ⟨⟨w, rfl⟩, rfl⟩)
    | unsure w => exact hdelete (.unsure w) (Or.inr ⟨w, hq, rfl⟩) (Or.inl rfl)
    | moved w =>
      subst hq
      exact uploads_lost _ _
    | _ => exact ho.elim

/-- Giving up: after an error of the connection there is a new one, and the target is removed. -/
theorem giveUp_uploads (hk : ValidKey k) (ho : stage.opens) (e : StorageError) (a : α) :
    Uploads (keyPath config k) key content
      (fun q r => (q = stage ∨ ((∃ w, stage = .filled w) ∧ q = .idle)) ∧ r = a) stage
      (do
        if e.isRetryable then
          let _ ← request .reconnect
        let _ ← removeFile config k
        return a) := by
  have hremove : Uploads (keyPath config k) key content
      (fun q r => (q = stage ∨ ((∃ w, stage = .filled w) ∧ q = .idle)) ∧ r = a) stage
      ((removeFile config k).bind fun _ => .ret a) :=
    Uploads.bind (removeFile_uploads hk ho) fun q r hq => uploads_ret ⟨hq, rfl⟩
  simp only
  split_ifs
  · exact uploads_request trivial fun r => hremove
  · exact hremove

/-! ### Filling the target -/

theorem cleanupFailedWrite_uploads (hk : ValidKey k) (hs : stage = .idle ∨ ∃ w, stage = .writing h w) :
    Uploads (keyPath config k) key content (fun q _ => q = .idle) stage
      (cleanupFailedWrite config k h) := by
  have hremove : Uploads (keyPath config k) key content (fun q (_ : Unit) => q = .idle) .idle
      ((removeFile config k).bind fun _ => .ret ()) := by
    refine Uploads.bind (removeFile_uploads hk trivial) fun q r hq => ?_
    rcases hq with hq | ⟨_, hq⟩ <;> exact uploads_ret hq
  rcases hs with hs | ⟨w, hs⟩
  · subst hs
    exact uploads_request trivial fun r => hremove
  · subst hs
    exact uploads_request trivial fun r => hremove

theorem writeBlocks_uploads (fuel : ℕ) (bytes : Bytes) (hfuel : bytes.length ≤ fuel)
    (hw : w.length ≤ maxOffset) :
    Uploads path key content (fun q r => match r with
      | .ok n => q = .writing h (w ++ bytes) ∧ n = (w ++ bytes).length ∧ n ≤ maxOffset
      | .error _ => q = .idle) (.writing h w) (writeBlocks h fuel bytes w.length) := by
  induction fuel generalizing w bytes with
  | zero =>
    obtain rfl := List.eq_nil_of_length_eq_zero (Nat.le_zero.mp hfuel)
    exact uploads_ret (by simpa using hw)
  | succ fuel ih =>
    cases bytes with
    | nil => exact uploads_ret (by simpa using hw)
    | cons b bytes =>
      refine uploads_request ⟨w, rfl, rfl⟩ fun r => ?_
      cases r with
      | error failure => cases failure <;> exact uploads_ret rfl
      | ok count =>
        cases count with
        | zero => exact uploads_ret rfl
        | succ count =>
          simp only [UploadStage.after, Nat.succ_ne_zero, if_false, withIoTimeout]
          split_ifs with hfits
          · obtain ⟨hcount, hbound⟩ := hfits
            have hlen : ((b :: bytes).drop (count + 1)).length ≤ fuel := by
              simp only [List.length_drop, List.length_cons] at hfuel ⊢
              omega
            have hoffset : saturatingAdd w.length (count + 1) =
                (w ++ (b :: bytes).take (count + 1)).length := by
              rw [saturatingAdd_eq hbound (by decide), List.length_append,
                List.length_take_of_le hcount]
            have hshort : (w ++ (b :: bytes).take (count + 1)).length ≤ maxOffset := by
              rw [List.length_append, List.length_take_of_le hcount]
              exact hbound
            have hrest := ih ((b :: bytes).drop (count + 1)) hlen hshort
            rwa [List.append_assoc, List.take_append_drop, ← hoffset] at hrest
          · exact uploads_lost _ _

/-- The hasher has seen these bytes, in some chunks. -/
def Hashed (D : Digest) (hasher : D.Hasher) (w : Bytes) : Prop :=
  ∃ chunks : List Bytes, hasher = chunks.foldl D.update D.new ∧ w = chunks.flatten

theorem Hashed.update {D : Digest} {hasher : D.Hasher} (hh : Hashed D hasher w) (chunk : Bytes) :
    Hashed D (D.update hasher chunk) (w ++ chunk) := by
  obtain ⟨chunks, hfold, hw⟩ := hh
  exact ⟨chunks ++ [chunk], by simp [hfold], by simp [hw]⟩

theorem Hashed.hex {D : Digest} {hasher : D.Hasher} (hh : Hashed D hasher w) :
    lowerHex (D.finalize hasher) = sha256Hex D w := by
  obtain ⟨chunks, hfold, hw⟩ := hh
  rw [hfold, D.finalize_foldl, hw, sha256Hex]

theorem writeChunks_uploads (D : Digest) (fuel : ℕ) (chunks : List (Except StorageError Bytes))
    (hfuel : chunks.length < fuel) {hasher : D.Hasher} (hh : Hashed D hasher w)
    (hw : w.length ≤ maxOffset) (hc : collectChunks w chunks = content) :
    Uploads path key content (fun q r => (∃ rest, r.2 = .external rest) ∧ match r.1 with
      | .ok (hasher, n) => ∃ w, q = .writing h w ∧ content = .ok w ∧ n = w.length ∧
          n ≤ maxOffset ∧ Hashed D hasher w
      | .error _ => q = .idle ∨ ∃ w, q = .writing h w) (.writing h w)
      (writeChunks D h fuel (.external chunks) hasher w.length) := by
  induction fuel generalizing w chunks hasher with
  | zero => omega
  | succ fuel ih =>
    cases chunks with
    | nil => exact uploads_ret ⟨⟨[], rfl⟩, w, rfl, hc.symm, rfl, hw, hh⟩
    | cons chunk rest =>
      cases chunk with
      | error e => exact uploads_ret ⟨⟨rest, rfl⟩, Or.inr ⟨w, rfl⟩⟩
      | ok chunk =>
        show Uploads path key content _ _ ((writeBlocks h chunk.length chunk w.length).bind _)
        refine Uploads.bind (writeBlocks_uploads chunk.length chunk le_rfl hw) fun q r hq => ?_
        cases r with
        | error e => exact uploads_ret ⟨⟨rest, rfl⟩, Or.inl hq⟩
        | ok n =>
          obtain ⟨hq, hn, hshort⟩ := hq
          subst hq hn
          exact ih rest (by simpa using hfuel) (hh.update chunk) hshort hc

/-- Writing the file that was just created: the target is complete, or the upload is over. -/
theorem fillFile_uploads (D : Digest) (hk : ValidKey k) (body : StorageByteStream) :
    Uploads (keyPath config k) key body.body (fun q r => (∃ rest, r.2 = .external rest) ∧
      match r.1 with
      | .ok outcome => ∃ w, q = .filled w ∧ outcome = ⟨w.length, sha256Hex D w⟩ ∧
          w.length ≤ maxOffset
      | .error _ => q = .idle) (.writing h []) (fillFile D config k h (.external body.inner)) := by
  have hidle : UploadStage.idle.opens := trivial
  have hstart : Hashed D D.new [] := ⟨[], rfl, rfl⟩
  refine Uploads.bind (writeChunks_uploads D _ body.inner (Nat.lt_succ_self _) hstart
    (Nat.zero_le _) rfl) ?_
  intro q r hq
  obtain ⟨result, source⟩ := r
  obtain ⟨hrest, hq⟩ := hq
  cases result with
  | error e =>
    refine Uploads.bind (cleanupFailedWrite_uploads hk hq) fun q _ hq => ?_
    exact uploads_ret ⟨hrest, hq⟩
  | ok written =>
    obtain ⟨hasher, offset⟩ := written
    obtain ⟨w, hw, hcontent, hoffset, hshort, hh⟩ := hq
    subst hw
    refine uploads_request ⟨w, rfl, hcontent⟩ fun r => ?_
    cases r with
    | error failure =>
      cases failure with
      | timedOut =>
        refine Uploads.bind (cleanupFailedWrite_uploads hk (Or.inl rfl)) fun q _ hq => ?_
        exact uploads_ret ⟨hrest, hq⟩
      | failed error =>
        refine Uploads.bind (cleanupFailedWrite_uploads hk (Or.inl rfl)) fun q _ hq => ?_
        exact uploads_ret ⟨hrest, hq⟩
    | ok _ =>
      refine uploads_request trivial fun r => ?_
      cases r with
      | ok _ => exact uploads_ret ⟨hrest, w, rfl, by rw [hoffset, hh.hex], hoffset ▸ hshort⟩
      | error failure =>
        cases failure with
        | timedOut =>
          refine (giveUp_uploads hk hidle (timeoutError "close".toList) _).mono fun q r hq => ?_
          obtain ⟨hq, hr⟩ := hq
          subst hr
          exact ⟨hrest, hq.resolve_right fun h => by simp at h⟩
        | failed error =>
          refine (giveUp_uploads hk hidle (mapSmbError "close".toList error) _).mono
            fun q r hq => ?_
          obtain ⟨hq, hr⟩ := hq
          subst hr
          exact ⟨hrest, hq.resolve_right fun h => by simp at h⟩

theorem createAndFill_uploads (D : Digest) (hk : ValidKey k) (body : StorageByteStream)
    (exclusive : Bool) :
    Uploads (keyPath config k) key body.body (fun q r => (∃ rest, r.2 = .external rest) ∧
      match r.1 with
      | .ok outcome => ∃ w, q = .filled w ∧ outcome = ⟨w.length, sha256Hex D w⟩ ∧
          w.length ≤ maxOffset
      | .error _ => q = .idle) .idle
      (createAndFill D config k (.external body.inner) exclusive) := by
  refine Uploads.bind ensureParentDirectories_uploads fun q r hq => ?_
  subst hq
  cases r with
  | error e => exact uploads_ret ⟨⟨_, rfl⟩, rfl⟩
  | ok _ =>
    simp only [remotePath_of_valid config hk]
    refine uploads_request ⟨rfl, rfl⟩ fun r => ?_
    cases r with
    | error failure => cases failure <;> exact uploads_ret ⟨⟨_, rfl⟩, rfl⟩
    | ok resource =>
      cases resource with
      | file h => exact fillFile_uploads D hk body
      | directory h => exact uploads_request trivial fun r => uploads_ret ⟨⟨_, rfl⟩, rfl⟩
      | pipe h => exact uploads_request trivial fun r => uploads_ret ⟨⟨_, rfl⟩, rfl⟩

/-- `write_file`: the target is complete and described by the outcome, or the upload is over. -/
theorem writeFile_uploads (D : Digest) (hk : ValidKey k) (body : StorageByteStream)
    (exclusive : Bool) :
    Uploads (keyPath config k) key body.body (fun q r => match r with
      | .ok outcome => ∃ w, q = .filled w ∧ outcome = ⟨w.length, sha256Hex D w⟩ ∧
          w.length ≤ maxOffset
      | .error _ => q = .idle) .idle (writeFile D config k (.external body.inner) exclusive) := by
  refine Uploads.bind transferPermit_uploads fun q r hq => ?_
  subst hq
  cases r with
  | error e => exact uploads_ret rfl
  | ok _ =>
    refine Uploads.bind (createAndFill_uploads D hk body exclusive) fun q r hq => ?_
    obtain ⟨result, source⟩ := r
    obtain ⟨⟨rest, hrest⟩, hq⟩ := hq
    subst hrest
    exact uploads_request trivial fun r => uploads_ret hq

/-! ### Publishing -/

theorem rename_uploads (hk : ValidKey k) (hkey : ValidKey key) :
    Uploads (keyPath config k) (keyPath config key) content (fun q r => match r with
      | .ok () => q = .moved w
      | .error _ => q = .filled w ∨ q = .moved w ∨ q = .unsure w) (.filled w)
      (rename config k key true) := by
  refine Uploads.bind ensureParentDirectories_uploads fun q r hq => ?_
  subst hq
  cases r with
  | error e => exact uploads_ret (Or.inl rfl)
  | ok _ =>
    refine Uploads.bind (openFile_uploads hk .readDelete trivial) fun q r hq => ?_
    cases r with
    | error e => exact uploads_ret (Or.inl hq)
    | ok h =>
      obtain rfl : q = .opened h w := hq
      simp only [mappedKey_of_valid config hkey]
      refine uploads_request ⟨rfl, rfl, w, rfl⟩ fun r => ?_
      cases r with
      | ok _ =>
        refine uploads_request trivial fun r => ?_
        cases r with
        | ok _ => exact uploads_ret rfl
        | error failure => cases failure <;> exact uploads_ret (Or.inr (Or.inl rfl))
      | error failure =>
        refine uploads_request trivial fun r => ?_
        cases failure <;> exact uploads_ret (Or.inr (Or.inr rfl))

/-- `put_blob`: it returns `Ok` only after a rename that was answered. -/
theorem putBlob_uploads (D : Digest) (hkey : ValidKey key) (uuid : Uuid)
    (body : StorageByteStream) :
    Uploads (keyPath config (tempBeside uuid key)) (keyPath config key) body.body
      (fun q r => ∀ outcome, r = .ok outcome →
        ∃ w, q = .moved w ∧ outcome = ⟨w.length, sha256Hex D w⟩) .idle
      (putBlob D config uuid key (.external body.inner)) := by
  have hidle : UploadStage.idle.opens := trivial
  have htemp := validKey_tempBeside uuid hkey
  simp only [putBlob, validateBlobKey_eq_ok.mpr hkey, tempKey_of_valid uuid hkey]
  refine Uploads.bind (writeFile_uploads D htemp body false) fun q r hq => ?_
  cases r with
  | error e =>
    obtain rfl : q = .idle := hq
    refine (giveUp_uploads htemp hidle e _).mono fun q r hq => ?_
    rw [hq.2]
    exact fun _ h => by cases h
  | ok outcome =>
    obtain ⟨w, hw, houtcome, _⟩ := hq
    subst hw
    refine Uploads.bind (rename_uploads htemp hkey) fun q r hq => ?_
    cases r with
    | ok _ => exact uploads_ret fun _ h => ⟨w, hq, Except.ok.inj h ▸ houtcome⟩
    | error e =>
      have ho : q.opens := by
        rcases hq with hq | hq | hq <;>
        · subst hq
          trivial
      refine (giveUp_uploads htemp ho e _).mono fun q r hq => ?_
      rw [hq.2]
      exact fun _ h => by cases h

end Programs

/-! ### What the key holds afterwards -/

/-- The invariant of an upload against a server that may fail. -/
structure UploadInv (path key : Str) (content : Except StorageError Bytes) (old : Option Bytes)
    (s : Server) (stage : UploadStage) : Prop where
  orderly : Orderly s
  target : Uploading path content s stage
  protects : Protects path key old s stage

theorem UploadInv.step {path key : Str} {content : Except StorageError Bytes} {old : Option Bytes}
    {s s' : Server} {stage : UploadStage} {c : SmbCall} {r : SmbCall.Reply c} (hne : path ≠ key)
    (hinv : UploadInv path key content old s stage)
    (hallowed : (uploadDiscipline path key content).allowed stage c) (h : Faulty s c r s') :
    UploadInv path key content old s' (stage.advance c r) := by
  have hlost : stage ≠ .lost := by
    intro he
    rw [he] at hinv
    exact hinv.target
  have hi := hallowed.resolve_left hlost
  rw [UploadStage.advance_of_ne_lost hlost]
  obtain ⟨horderly, htarget⟩ := hinv.target.step hne hinv.orderly hi h
  exact ⟨horderly, htarget, hinv.protects.step hne hinv.orderly hinv.target hi h⟩

/-- In every stage the key holds the old content or the whole new one. -/
theorem UploadInv.key_whole {path key : Str} {content : Except StorageError Bytes}
    {old : Option Bytes} {s : Server} {stage : UploadStage}
    (h : UploadInv path key content old s stage) :
    KeyHolds s key old ∨ ∃ b, content = .ok b ∧ KeyHolds s key (some b) := by
  obtain ⟨_, htarget, hprotects⟩ := h
  cases stage with
  | moved w => exact Or.inr ⟨w, htarget.1, hprotects⟩
  | unsure w => exact hprotects.imp id fun hnew => ⟨w, htarget, hnew.1⟩
  | deleting h => exact Or.inl hprotects.1
  | withdrawing h w => exact Or.inl hprotects.1
  | _ => exact Or.inl hprotects

/-- Over requests that fail, with their effect or without it, `put_blob` leaves under the key what
it held or all of the new content; when it returns `Ok` it is the new content, and the outcome
describes it. -/
theorem put_blob_all_or_nothing (D : Digest) (config : SmbStorageConfig) (uuid : Uuid) (key : Str)
    (body : StorageByteStream) (s : Server) (hs : Orderly s) (old : Option Bytes)
    (hold : KeyHolds s (keyPath config key) old) (log : List (Sigma Requests.Reply)) (s' : Server)
    (result : Except StorageError BlobWriteOutcome)
    (h : RunsIn Faulty s (putBlob D config uuid key (.external body.inner)) log s' result) :
    (KeyHolds s' (keyPath config key) old ∨
      ∃ b, body.body = .ok b ∧ KeyHolds s' (keyPath config key) (some b)) ∧
    ∀ outcome, result = .ok outcome → ∃ b, body.body = .ok b ∧
      KeyHolds s' (keyPath config key) (some b) ∧ outcome = ⟨b.length, sha256Hex D b⟩ := by
  cases hv : validateBlobKey key with
  | error e =>
    simp only [putBlob, hv] at h
    obtain ⟨_, hs', hresult⟩ := runsIn_ret.mp h
    subst hs' hresult
    exact ⟨Or.inl hold, fun _ h => by cases h⟩
  | ok _ =>
    have hk := validateBlobKey_eq_ok.mp hv
    obtain ⟨stage, hpost, hinv⟩ := h.invariant
      (UploadInv (keyPath config (tempBeside uuid key)) (keyPath config key) body.body old)
      (fun s s' q c r hinv hallowed ha => hinv.step (tempPath_ne config uuid key) hallowed ha)
      (putBlob_uploads D hk uuid body) ⟨hs, trivial, hold⟩
    refine ⟨hinv.key_whole, fun outcome houtcome => ?_⟩
    rcases hpost with hlost | hpost
    · subst hlost
      exact hinv.target.elim
    · obtain ⟨w, hstage, heq⟩ := hpost outcome houtcome
      subst hstage
      exact ⟨w, hinv.target.1, hinv.protects, heq⟩

/-- A server that holds one blob. -/
def oneBlob (path : Str) (b : Bytes) : Server := ((Server.empty.create path).setContent 0 b).close 0

theorem orderly_empty : Orderly Server.empty where
  named_lt p f h := by simp [Server.empty] at h
  open_lt h f hf := by simp [Server.empty, Server.file] at hf
  sole_name p p' f h := by simp [Server.empty] at h

theorem oneBlob_holds (path : Str) (b : Bytes) :
    Orderly (oneBlob path b) ∧ KeyHolds (oneBlob path b) path (some b) := by
  have hcreated := (stored_create Server.empty path).1
  exact ⟨((orderly_empty.create path).setContent 0 b).close 0, 0,
    (hcreated.setContent_self b).close 0⟩

/-- Renames take effect, but their replies are lost. -/
def losesRenames (c : SmbCall) (s : Server) : SmbCall.Reply c × Server :=
  match c with
  | .setRename h path replace =>
    (.error .timedOut, (s.answer .smooth (.setRename h path replace)).2)
  | c => s.answer .smooth c

theorem losesRenames_faulty (s : Server) (c : SmbCall) :
    Faulty s c (losesRenames c s).1 (losesRenames c s).2 := by
  cases c with
  | setRename h path replace =>
    exact ⟨_, [], rfl, Or.inr ⟨⟨_, rfl⟩, Or.inr ⟨.smooth, rfl⟩⟩⟩
  | _ => exact ⟨_, [], rfl, Or.inl ⟨.smooth, rfl, rfl⟩⟩

def zeroUuid : Uuid := ⟨List.replicate 16 0, rfl⟩

/-- A write whose rename is not answered fails, and the key holds one of the two contents. -/
theorem put_blob_all_or_nothing_unanswered : ∃ log s',
    RunsIn Faulty (oneBlob "k".toList [9])
      (putBlob Digest.sha256 ⟨none, 1⟩ zeroUuid "k".toList (.external [.ok [1], .ok [2]]))
      log s' (.error (timeoutError "rename".toList)) ∧
    (KeyHolds s' "k".toList (some [9]) ∨
      ∃ b, StorageByteStream.body ⟨[.ok [1], .ok [2]], none⟩ = .ok b ∧
        KeyHolds s' "k".toList (some b)) := by
  obtain ⟨log, hrun⟩ := exec_runsIn losesRenames_faulty (putBlob Digest.sha256 ⟨none, 1⟩
    zeroUuid "k".toList (.external [.ok [1], .ok [2]])) (oneBlob "k".toList [9])
  have hresult : ((putBlob Digest.sha256 ⟨none, 1⟩ zeroUuid "k".toList
      (.external [.ok [1], .ok [2]])).exec losesRenames (oneBlob "k".toList [9])).1 =
        .error (timeoutError "rename".toList) := by
    decide +kernel
  rw [hresult] at hrun
  obtain ⟨horderly, hold⟩ := oneBlob_holds "k".toList [9]
  exact ⟨log, _, hrun, (put_blob_all_or_nothing Digest.sha256 ⟨none, 1⟩ zeroUuid
    "k".toList ⟨[.ok [1], .ok [2]], none⟩ _ horderly (some [9]) hold log _ _ hrun).1⟩

end GraphqlOrmStorage.Smb
