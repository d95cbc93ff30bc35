import GraphqlOrmStorage.Smb

/-!
# The transfer limiter of the SMB backend

A call holds one permit while it writes. The stream of `get_blob` holds one as
well, so `copy_blob`, which writes such a stream, holds one permit while it waits
for a second. The calls can therefore block one another exactly when there are at
least as many copies as permits.
-/
namespace GraphqlOrmStorage.Smb

open Text Program Program.Prog

/-- The calls that are run together. -/
inductive SmbOp where
  | putBlob (uuid : Uuid) (key : Str) (body : StorageByteStream)
  | putBlobIfNotExists (key : Str) (body : StorageByteStream)
  | copyBlob (uuid : Uuid) (src dst : Str)

namespace SmbOp

def prog (D : Digest) (config : SmbStorageConfig) : SmbOp → SmbM (Except StorageError Unit)
  | putBlob uuid key body => do
    let result ← Smb.putBlob D config uuid key (.external body.inner)
    return result.map fun _ => ()
  | putBlobIfNotExists key body => do
    let result ← Smb.putBlobIfNotExists D config key (.external body.inner)
    return result.map fun _ => ()
  | copyBlob uuid src dst => Smb.copyBlob D config uuid src dst

/-- A copy between accepted keys. -/
def nested : SmbOp → Bool
  | copyBlob _ src dst => ValidKey src ∧ ValidKey dst
  | _ => false

end SmbOp

/-- The permits a call holds, and whether it may hold one while it asks for another. -/
structure Permits where
  held : ℕ
  nested : Bool

namespace Permits

def advance (q : Permits) : (c : SmbCall) → SmbCall.Reply c → Permits
  | .acquirePermit, true => { q with held := q.held + 1 }
  | .releasePermit, () => { q with held := q.held - 1 }
  | _, _ => q

def Allowed (q : Permits) : SmbCall → Prop
  | .acquirePermit => q.held = 0 ∨ q.held = 1 ∧ q.nested = true
  | .releasePermit => 0 < q.held
  | _ => True

end Permits

def limiter : Discipline Requests Permits where
  allowed := Permits.Allowed
  next := Permits.advance

/-- The limiter has `n` free permits; whatever else is asked for may be answered in any way. -/
inductive Grants : ℕ → (c : SmbCall) → SmbCall.Reply c → ℕ → Prop
  | acquire (n : ℕ) : Grants (n + 1) .acquirePermit true n
  | release (n : ℕ) : Grants n .releasePermit () (n + 1)
  | other (n : ℕ) (c : SmbCall) (r : SmbCall.Reply c) :
      c ≠ .acquirePermit → c ≠ .releasePermit → Grants n c r n

abbrev SmbThread := Thread Requests Permits (Except StorageError Unit)

/-- The call before its first request. -/
def opThread (D : Digest) (config : SmbStorageConfig) (op : SmbOp) : SmbThread :=
  ⟨⟨0, op.nested⟩, op.prog D config⟩

/-- The next request of the program is for a permit. -/
def AsksPermit {α : Type} : SmbM α → Prop
  | .call c _ => c = .acquirePermit
  | .ret _ => False

/-- Some call is unfinished, and every unfinished call waits for a permit while none is free. -/
def Deadlock (x : ℕ × List SmbThread) : Prop :=
  (∃ th ∈ x.2, th.prog.result? = none) ∧ x.1 = 0 ∧
    ∀ th ∈ x.2, th.prog.result? = none → AsksPermit th.prog

/-- The interleavings of a pool of calls under a limiter. -/
abbrev Runs : ℕ × List SmbThread → ℕ × List SmbThread → Prop :=
  Reach limiter.next Grants (fun _ _ _ => True)

/-! ### How the calls use permits -/

section Discipline

variable {α β : Type}

/-- The program neither takes nor gives back a permit. -/
def Neutral (p : SmbM α) : Prop := ∀ q, Follows limiter (fun q' _ => q' = q) q p

theorem neutral_ret (a : α) : Neutral (.ret a) := fun _ => rfl

theorem Neutral.bind {p : SmbM α} {f : α → SmbM β} (hp : Neutral p) (hf : ∀ a, Neutral (f a)) :
    Neutral (p.bind f) := by
  intro q
  refine Follows.bind (hp q) ?_
  rintro q' a rfl
  exact hf a q'

theorem neutral_request {c : SmbCall} (ha : c ≠ .acquirePermit) (hr : c ≠ .releasePermit) :
    Neutral (request c) := by
  intro q
  cases c with
  | acquirePermit => exact absurd rfl ha
  | releasePermit => exact absurd rfl hr
  | _ => exact ⟨trivial, fun _ => rfl⟩

/-- Sequencing after a neutral program. -/
theorem Neutral.follows {p : SmbM α} {f : α → SmbM β} {post : Permits → β → Prop} {q : Permits}
    (hp : Neutral p) (hf : ∀ a, Follows limiter post q (f a)) :
    Follows limiter post q (p.bind f) := by
  refine Follows.bind (hp q) ?_
  rintro q' a rfl
  exact hf a

theorem neutral_expectFile (operation message : Str) (resource : Resource) :
    Neutral (expectFile operation message resource) := by
  cases resource with
  | file h => exact neutral_ret _
  | directory h => exact (neutral_request (by simp) (by simp)).bind fun _ => neutral_ret _
  | pipe h => exact (neutral_request (by simp) (by simp)).bind fun _ => neutral_ret _

theorem neutral_ensureSegments (current : Str) (segments : List Str) :
    Neutral (ensureSegments current segments) := by
  induction segments generalizing current with
  | nil => exact neutral_ret _
  | cons segment rest ih =>
    refine (neutral_request (by simp) (by simp)).bind fun r => ?_
    split
    · exact neutral_ret _
    · refine (neutral_request (by simp) (by simp)).bind fun r => ?_
      split
      · exact neutral_ret _
      · exact ih _

theorem neutral_ensureParentDirectories (config : SmbStorageConfig) (key : Str) :
    Neutral (ensureParentDirectories config key) := by
  unfold ensureParentDirectories
  split
  · exact neutral_ret _
  · split
    · exact neutral_ret _
    · exact neutral_ensureSegments _ _

theorem neutral_openFile (config : SmbStorageConfig) (key : Str) (access : Access) :
    Neutral (openFile config key access) := by
  unfold openFile
  split
  · exact neutral_ret _
  · refine (neutral_request (by simp) (by simp)).bind fun r => ?_
    split
    · exact neutral_expectFile _ _ _
    · split
      · refine (neutral_request (by simp) (by simp)).bind fun r => ?_
        split
        · exact neutral_ret _
        · refine (neutral_request (by simp) (by simp)).bind fun r => ?_
          split
          · exact neutral_ret _
          · exact neutral_expectFile _ _ _
      · exact neutral_ret _

theorem neutral_removeFile (config : SmbStorageConfig) (key : Str) :
    Neutral (removeFile config key) := by
  refine (neutral_openFile config key .delete).bind fun r => ?_
  split
  · split
    · exact neutral_ret _
    · exact neutral_ret _
  · refine (neutral_request (by simp) (by simp)).bind fun r => ?_
    exact (neutral_request (by simp) (by simp)).bind fun r => neutral_ret _

/-- A failed write removes its file, over a new connection where the error asks for one. -/
theorem removal_follows {config : SmbStorageConfig} {key : Str} {retry : Bool}
    {f : Except StorageError Unit → SmbM β} {post : Permits → β → Prop} {q : Permits}
    (hf : ∀ r, Follows limiter post q (f r)) :
    Follows limiter post q (if retry = true
      then (request .reconnect).bind fun _ => (removeFile config key).bind f
      else (removeFile config key).bind f) := by
  split
  · refine (neutral_request (by simp) (by simp)).follows fun _ => ?_
    exact (neutral_removeFile config key).follows hf
  · exact (neutral_removeFile config key).follows hf

theorem neutral_rename (config : SmbStorageConfig) (src dst : Str) (replace : Bool) :
    Neutral (rename config src dst replace) := by
  refine (neutral_ensureParentDirectories config dst).bind fun r => ?_
  split
  · exact neutral_ret _
  · refine (neutral_openFile config src .readDelete).bind fun r => ?_
    split
    · exact neutral_ret _
    · split
      · exact (neutral_request (by simp) (by simp)).bind fun _ => neutral_ret _
      · refine (neutral_request (by simp) (by simp)).bind fun r => ?_
        exact (neutral_request (by simp) (by simp)).bind fun r => neutral_ret _

theorem neutral_cleanupFailedWrite (config : SmbStorageConfig) (key : Str) (file : Handle) :
    Neutral (cleanupFailedWrite config key file) := by
  refine (neutral_request (by simp) (by simp)).bind fun r => ?_
  exact (neutral_removeFile config key).bind fun r => neutral_ret _

theorem neutral_writeBlocks (file : Handle) (fuel : ℕ) (bytes : Bytes) (offset : ℕ) :
    Neutral (writeBlocks file fuel bytes offset) := by
  induction fuel generalizing bytes offset with
  | zero => exact neutral_ret _
  | succ fuel ih =>
    cases bytes with
    | nil => exact neutral_ret _
    | cons b bytes =>
      refine (neutral_request (by simp) (by simp)).bind fun r => ?_
      split
      · exact neutral_ret _
      · exact neutral_ret _
      · exact ih _ _

/-- The permits that a body owns. -/
def BodySource.permits : BodySource → ℕ
  | .blob _ _ _ => 1
  | .external _ | .finished => 0

/-- Dropping a body gives its permit back. -/
theorem drop_follows (source : BodySource) (b : ℕ) (nested : Bool) :
    Follows limiter (fun q _ => q = ⟨b, nested⟩) ⟨b + source.permits, nested⟩ source.drop := by
  cases source with
  | external chunks => exact rfl
  | finished => exact rfl
  | blob file offset size =>
    exact (neutral_request (by simp) (by simp)).follows fun _ => ⟨Nat.succ_pos b, fun _ => rfl⟩

/-- A body that ends or fails gives its permit back. -/
theorem next_follows (source : BodySource) (b : ℕ) (nested : Bool) :
    Follows limiter (fun q x => q = ⟨b + x.2.permits, nested⟩) ⟨b + source.permits, nested⟩
      source.next := by
  cases source with
  | external chunks => cases chunks <;> exact rfl
  | finished => exact rfl
  | blob file offset size =>
    simp only [BodySource.next]
    split
    · refine (neutral_request (by simp) (by simp)).follows fun r => ?_
      split
      · exact ⟨Nat.succ_pos b, fun _ => rfl⟩
      · exact ⟨Nat.succ_pos b, fun _ => rfl⟩
    · refine (neutral_request (by simp) (by simp)).follows fun r => ?_
      split
      · exact (neutral_request (by simp) (by simp)).follows fun _ => ⟨Nat.succ_pos b, fun _ => rfl⟩
      · exact (neutral_request (by simp) (by simp)).follows fun _ => ⟨Nat.succ_pos b, fun _ => rfl⟩
      · exact rfl

theorem writeChunks_follows (D : Digest) (file : Handle) (fuel : ℕ) (source : BodySource)
    (hasher : D.Hasher) (offset b : ℕ) (nested : Bool) :
    Follows limiter (fun q x => q = ⟨b + x.2.permits, nested⟩) ⟨b + source.permits, nested⟩
      (writeChunks D file fuel source hasher offset) := by
  induction fuel generalizing source hasher offset with
  | zero => exact rfl
  | succ fuel ih =>
    refine Follows.bind (next_follows source b nested) ?_
    rintro q ⟨item, source⟩ rfl
    cases item with
    | none => exact rfl
    | some item =>
      cases item with
      | error e => exact rfl
      | ok chunk =>
        refine (neutral_writeBlocks _ _ _ _).follows fun r => ?_
        cases r with
        | error e => exact rfl
        | ok offset => exact ih source _ offset

theorem fillFile_follows (D : Digest) (config : SmbStorageConfig) (key : Str) (file : Handle)
    (source : BodySource) (b : ℕ) (nested : Bool) :
    Follows limiter (fun q x => q = ⟨b + x.2.permits, nested⟩) ⟨b + source.permits, nested⟩
      (fillFile D config key file source) := by
  refine Follows.bind (writeChunks_follows D file _ source _ 0 b nested) ?_
  rintro q ⟨result, source⟩ rfl
  cases result with
  | error e => exact (neutral_cleanupFailedWrite _ _ _).follows fun _ => rfl
  | ok x =>
    refine (neutral_request (by simp) (by simp)).follows fun r => ?_
    split
    · exact (neutral_cleanupFailedWrite _ _ _).follows fun _ => rfl
    · refine (neutral_request (by simp) (by simp)).follows fun r => ?_
      split
      · exact removal_follows fun _ => rfl
      · exact rfl

theorem createAndFill_follows (D : Digest) (config : SmbStorageConfig) (key : Str)
    (source : BodySource) (exclusive : Bool) (b : ℕ) (nested : Bool) :
    Follows limiter (fun q x => q = ⟨b + x.2.permits, nested⟩) ⟨b + source.permits, nested⟩
      (createAndFill D config key source exclusive) := by
  refine (neutral_ensureParentDirectories config key).follows fun r => ?_
  split
  · exact rfl
  · split
    · exact rfl
    · refine (neutral_request (by simp) (by simp)).follows fun r => ?_
      split
      · exact rfl
      · refine (neutral_expectFile _ _ _).follows fun r => ?_
        split
        · exact rfl
        · exact fillFile_follows D config key _ source b nested

theorem transferPermit_follows {f : Except StorageError Unit → SmbM β}
    {post : Permits → β → Prop} {held : ℕ} {nested : Bool}
    (ha : held = 0 ∨ held = 1 ∧ nested = true)
    (herr : ∀ e, Follows limiter post ⟨held, nested⟩ (f (.error e)))
    (hok : Follows limiter post ⟨held + 1, nested⟩ (f (.ok ()))) :
    Follows limiter post ⟨held, nested⟩ (transferPermit.bind f) := by
  refine ⟨ha, fun r => ?_⟩
  cases r with
  | false => exact herr _
  | true => exact hok

/-- A write takes one permit beside the one its body may own, and ends with none. -/
theorem writeFile_follows (D : Digest) (config : SmbStorageConfig) (key : Str)
    (source : BodySource) (exclusive : Bool) {nested : Bool}
    (h : source.permits = 1 → nested = true) :
    Follows limiter (fun q _ => q = ⟨0, nested⟩) ⟨source.permits, nested⟩
      (writeFile D config key source exclusive) := by
  have hdrop := drop_follows source 0 nested
  rw [Nat.zero_add] at hdrop
  refine transferPermit_follows ?_ (fun e => Follows.bind hdrop fun q _ hq => hq) ?_
  · cases source with
    | blob file offset size => exact Or.inr ⟨rfl, h rfl⟩
    | external chunks => exact Or.inl rfl
    | finished => exact Or.inl rfl
  · have hfill := createAndFill_follows D config key source exclusive 1 nested
    rw [Nat.add_comm] at hfill
    refine Follows.bind hfill ?_
    rintro q ⟨result, source⟩ rfl
    refine Follows.bind (drop_follows source 1 nested) ?_
    rintro q _ rfl
    exact ⟨Nat.one_pos, fun _ => rfl⟩

theorem putBlob_follows (D : Digest) (config : SmbStorageConfig) (uuid : Uuid) (key : Str)
    (body : BodySource) {nested : Bool} (h : ValidKey key → body.permits = 1 → nested = true) :
    Follows limiter (fun q _ => q = ⟨0, nested⟩) ⟨body.permits, nested⟩
      (putBlob D config uuid key body) := by
  have hdrop := drop_follows body 0 nested
  rw [Nat.zero_add] at hdrop
  unfold putBlob
  split
  · exact Follows.bind hdrop fun q _ hq => hq
  · rename_i hv
    have hkey : ValidKey key := validateBlobKey_eq_ok.mp hv
    split
    · exact Follows.bind hdrop fun q _ hq => hq
    · refine Follows.bind (writeFile_follows D config _ body false (h hkey)) ?_
      rintro q result rfl
      cases result with
      | error e => exact removal_follows fun _ => rfl
      | ok outcome =>
        refine (neutral_rename _ _ _ _).follows fun r => ?_
        split
        · exact removal_follows fun _ => rfl
        · exact rfl

theorem putBlobIfNotExists_follows (D : Digest) (config : SmbStorageConfig) (key : Str)
    (chunks : List (Except StorageError Bytes)) (nested : Bool) :
    Follows limiter (fun q _ => q = ⟨0, nested⟩) ⟨0, nested⟩
      (putBlobIfNotExists D config key (.external chunks)) := by
  unfold putBlobIfNotExists
  split
  · exact rfl
  · refine Follows.bind (writeFile_follows D config key (.external chunks) true
      (by simp [BodySource.permits])) ?_
    rintro q result rfl
    split
    · exact rfl
    · split
      · exact rfl
      · split
        · exact (neutral_request (by simp) (by simp)).follows fun r => rfl
        · exact rfl

/-- On success the permit is with the returned stream. -/
theorem getBlob_follows (config : SmbStorageConfig) (key : Str) (nested : Bool) :
    Follows limiter (fun q result => match result with
      | .ok blob => q = ⟨1, nested⟩ ∧ blob.body.permits = 1 ∧ ValidKey key
      | .error _ => q = ⟨0, nested⟩) ⟨0, nested⟩ (getBlob config key) := by
  unfold getBlob
  split
  · exact rfl
  · rename_i hv
    have hkey : ValidKey key := validateBlobKey_eq_ok.mp hv
    refine transferPermit_follows (Or.inl rfl) (fun e => rfl) ?_
    refine (neutral_openFile _ _ _).follows fun r => ?_
    split
    · exact ⟨Nat.one_pos, fun _ => rfl⟩
    · refine (neutral_request (by simp) (by simp)).follows fun r => ?_
      split
      · exact (neutral_request (by simp) (by simp)).follows fun _ => ⟨Nat.one_pos, fun _ => rfl⟩
      · exact ⟨rfl, rfl, hkey⟩

/-- Every call returns all its permits, and asks for a second one only as a copy. -/
theorem op_follows (D : Digest) (config : SmbStorageConfig) (op : SmbOp) :
    Follows limiter (fun q _ => q.held = 0) ⟨0, op.nested⟩ (op.prog D config) := by
  cases op with
  | putBlob uuid key body =>
    refine Follows.bind (putBlob_follows D config uuid key (.external body.inner)
      (by simp [BodySource.permits])) ?_
    rintro q result rfl
    exact rfl
  | putBlobIfNotExists key body =>
    refine Follows.bind (putBlobIfNotExists_follows D config key body.inner _) ?_
    rintro q result rfl
    exact rfl
  | copyBlob uuid src dst =>
    refine Follows.bind (getBlob_follows config src _) ?_
    intro q result hq
    cases result with
    | error e => exact congrArg Permits.held hq
    | ok blob =>
      obtain ⟨rfl, hp, hsrc⟩ := hq
      have hnested : ValidKey dst → blob.body.permits = 1 →
          (SmbOp.copyBlob uuid src dst).nested = true := fun hdst _ => decide_eq_true ⟨hsrc, hdst⟩
      have hput := putBlob_follows D config uuid dst blob.body hnested
      rw [hp] at hput
      refine Follows.bind hput ?_
      rintro q result rfl
      cases result <;> exact rfl

end Discipline

/-! ### Safety -/

section Safety

/-- Permits are neither lost nor duplicated, and no call changes its kind. -/
def Balanced (n : ℕ) (kinds : List Bool) (free : ℕ) (qs : List Permits) : Prop :=
  free + (qs.map Permits.held).sum = n ∧ qs.map Permits.nested = kinds

theorem Balanced.step {n : ℕ} {kinds : List Bool} {free free' : ℕ} {before after : List Permits}
    {q : Permits} {c : SmbCall} {r : SmbCall.Reply c}
    (h : Balanced n kinds free (before ++ q :: after)) (hq : q.Allowed c)
    (hg : Grants free c r free') : Balanced n kinds free' (before ++ q.advance c r :: after) := by
  obtain ⟨hsum, hkinds⟩ := h
  have hkind : (q.advance c r).nested = q.nested := by
    unfold Permits.advance
    split <;> rfl
  refine ⟨?_, by rw [← hkinds]; simp [hkind]⟩
  simp only [List.map_append, List.map_cons, List.sum_append, List.sum_cons] at hsum ⊢
  cases hg with
  | acquire =>
    show free' + (_ + (q.held + 1 + _)) = n
    omega
  | release =>
    have hpos : 0 < q.held := hq
    show free + 1 + (_ + (q.held - 1 + _)) = n
    omega
  | other _ _ _ ha hr =>
    have hsame : q.advance c r = q := by
      cases c with
      | acquirePermit => exact absurd rfl ha
      | releasePermit => exact absurd rfl hr
      | _ => rfl
    rw [hsame]
    exact hsum

/-- In a deadlock only copies hold a permit, and each of them one. -/
theorem held_le_of_deadlock {x : ℕ × List SmbThread} (hd : Deadlock x)
    (hdisc : Disciplined limiter (fun q _ => q.held = 0) x.2) :
    ((x.2.map Thread.phase).map Permits.held).sum ≤
      ((x.2.map Thread.phase).map Permits.nested).count true := by
  obtain ⟨_, _, hwait⟩ := hd
  have heach : ∀ th ∈ x.2, th.phase.held ≤ if th.phase.nested = true then 1 else 0 := by
    intro th hth
    have hf := hdisc th hth
    have hw := hwait th hth
    obtain ⟨q, p⟩ := th
    cases p with
    | ret a =>
      have hzero : q.held = 0 := hf
      simp [hzero]
    | call c k =>
      obtain rfl : c = .acquirePermit := hw rfl
      have hallowed : q.held = 0 ∨ q.held = 1 ∧ q.nested = true := hf.1
      rcases hallowed with hzero | ⟨hone, hnested⟩
      · simp [hzero]
      · simp [hone, hnested]
  generalize x.2 = ts at heach
  induction ts with
  | nil => simp
  | cons th ts ih =>
    have hhead := heach th (by simp)
    have htail := ih fun th' h' => heach th' (by simp [h'])
    simp only [List.map_cons, List.sum_cons, List.count_cons] at htail ⊢
    simp only [beq_true] at hhead ⊢
    omega

theorem not_deadlock_of_lt {D : Digest} {config : SmbStorageConfig} {ops : List SmbOp} {n : ℕ}
    (h : ops.countP SmbOp.nested < n) {x : ℕ × List SmbThread}
    (hr : Runs (n, ops.map (opThread D config)) x) : ¬ Deadlock x := by
  intro hd
  have hdisc : Disciplined limiter (fun q _ => q.held = 0) (ops.map (opThread D config)) := by
    intro th hth
    obtain ⟨op, _, rfl⟩ := List.mem_map.mp hth
    exact op_follows D config op
  have hphases : (ops.map (opThread D config)).map Thread.phase =
      ops.map fun op => ⟨0, op.nested⟩ := by
    rw [List.map_map]
    rfl
  have hinit : Balanced n (ops.map SmbOp.nested) n
      ((ops.map (opThread D config)).map Thread.phase) := by
    rw [hphases]
    refine ⟨?_, by rw [List.map_map]; rfl⟩
    simp [List.map_map, Function.comp_def]
  obtain ⟨hdisc', hsum, hkinds⟩ := Reach.invariant (Balanced n (ops.map SmbOp.nested))
    (fun _ _ _ _ _ _ _ _ hb hq _ hg => hb.step hq hg) hr hdisc hinit
  have hle := held_le_of_deadlock hd hdisc'
  rw [hkinds, List.count_eq_countP, List.countP_map] at hle
  have hcount : List.countP ((fun b => b == true) ∘ SmbOp.nested) ops =
      ops.countP SmbOp.nested := by
    congr 1
    funext op
    simp
  rw [hcount] at hle
  have hfree : x.1 = 0 := hd.2.1
  omega

end Safety

/-! ### Reaching a deadlock -/

section Blocking

variable {D : Digest} {config : SmbStorageConfig}

/-- A call is refused at once, or its first request is for a permit. -/
theorem op_starts (op : SmbOp) :
    (∃ a, op.prog D config = .ret a) ∨ ∃ k, op.prog D config = .call .acquirePermit k := by
  cases op with
  | putBlob uuid key body =>
    simp only [SmbOp.prog, putBlob]
    cases validateBlobKey key with
    | error e => exact Or.inl ⟨_, rfl⟩
    | ok _ =>
      cases tempKey uuid key with
      | error e => exact Or.inl ⟨_, rfl⟩
      | ok temp => exact Or.inr ⟨_, rfl⟩
  | putBlobIfNotExists key body =>
    simp only [SmbOp.prog, putBlobIfNotExists]
    cases validateBlobKey key with
    | error e => exact Or.inl ⟨_, rfl⟩
    | ok _ => exact Or.inr ⟨_, rfl⟩
  | copyBlob uuid src dst =>
    simp only [SmbOp.prog, copyBlob, getBlob]
    cases validateBlobKey src with
    | error e => exact Or.inl ⟨_, rfl⟩
    | ok _ => exact Or.inr ⟨_, rfl⟩

theorem asksPermit_opThread (op : SmbOp) (h : (opThread D config op).prog.result? = none) :
    AsksPermit (opThread D config op).prog := by
  have hprog : (opThread D config op).prog = op.prog D config := rfl
  rw [hprog] at h ⊢
  rcases op_starts op with ⟨a, ha⟩ | ⟨k, hk⟩
  · rw [ha] at h
    cases h
  · rw [hk]
    exact rfl

theorem runs_step {m m' : ℕ} {before after : List SmbThread} {q : Permits} {c : SmbCall}
    {k : SmbCall.Reply c → SmbM (Except StorageError Unit)} {r : SmbCall.Reply c}
    (h : Grants m c r m') :
    Runs (m, before ++ ⟨q, .call c k⟩ :: after) (m', before ++ ⟨q.advance c r, k r⟩ :: after) :=
  .single (Step.call before after q c k r trivial h)

/-- A copy whose source exists comes to wait for its second permit. -/
theorem copy_blocks {op : SmbOp} (h : op.nested = true) (m : ℕ) (before after : List SmbThread) :
    ∃ k, Runs (m + 1, before ++ opThread D config op :: after)
      (m, before ++ ⟨⟨1, true⟩, .call .acquirePermit k⟩ :: after) := by
  cases op with
  | putBlob uuid key body => cases h
  | putBlobIfNotExists key body => cases h
  | copyBlob uuid src dst =>
    obtain ⟨hsrc, hdst⟩ := of_decide_eq_true h
    have hpath := remotePath_of_valid config hsrc
    have htemp := tempKey_of_valid uuid hdst
    have hprog : ∃ k₀ k₁ k₂ k₃, copyBlob D config uuid src dst = .call .acquirePermit k₀ ∧
        k₀ true = .call (.openExisting (keyPath config src) .read) k₁ ∧
        k₁ (.ok (.file 0)) = .call (.queryInfo 0) k₂ ∧
        k₂ (.ok 0) = .call .acquirePermit k₃ := by
      simp only [copyBlob, getBlob, validateBlobKey_eq_ok.mpr hsrc, openFile, hpath, putBlob,
        validateBlobKey_eq_ok.mpr hdst, htemp]
      exact ⟨_, _, _, _, rfl, rfl, rfl, rfl⟩
    obtain ⟨k₀, k₁, k₂, k₃, h₀, h₁, h₂, h₃⟩ := hprog
    have hstart : opThread D config (.copyBlob uuid src dst) =
        ⟨⟨0, true⟩, .call .acquirePermit k₀⟩ := by
      simp only [opThread, h, SmbOp.prog, h₀]
    have hacquire : Runs (m + 1, before ++ ⟨⟨0, true⟩, .call .acquirePermit k₀⟩ :: after)
        (m, before ++ ⟨⟨1, true⟩, k₀ true⟩ :: after) :=
      runs_step (Grants.acquire m)
    have hopen : Runs (m, before ++ ⟨⟨1, true⟩, .call (.openExisting (keyPath config src) .read) k₁⟩ ::
        after)
        (m, before ++ ⟨⟨1, true⟩, k₁ (.ok (.file 0))⟩ :: after) :=
      runs_step (Grants.other m _ _ (by simp) (by simp))
    have hquery : Runs (m, before ++ ⟨⟨1, true⟩, .call (.queryInfo 0) k₂⟩ :: after)
        (m, before ++ ⟨⟨1, true⟩, k₂ (.ok 0)⟩ :: after) :=
      runs_step (Grants.other m _ _ (by simp) (by simp))
    rw [h₁] at hacquire
    rw [h₂] at hopen
    rw [h₃] at hquery
    rw [hstart]
    exact ⟨k₃, (hacquire.trans hopen).trans hquery⟩

/-- With enough copies all permits end up with copies that wait. -/
theorem reach_blocked (ops : List SmbOp) (m : ℕ) (before : List SmbThread)
    (h : m ≤ ops.countP SmbOp.nested) :
    ∃ pool, Runs (m, before ++ ops.map (opThread D config)) (0, before ++ pool) ∧
      (∀ th ∈ pool, th.prog.result? = none → AsksPermit th.prog) ∧
      (0 < m → ∃ th ∈ pool, th.prog.result? = none) := by
  induction ops generalizing m before with
  | nil =>
    obtain rfl : m = 0 := by simpa using h
    exact ⟨[], .refl, by simp, by simp⟩
  | cons op ops ih =>
    by_cases hn : op.nested = true
    · cases m with
      | zero =>
        refine ⟨(op :: ops).map (opThread D config), .refl, ?_, by simp⟩
        intro th hth
        obtain ⟨op', _, rfl⟩ := List.mem_map.mp hth
        exact asksPermit_opThread op'
      | succ m =>
        rw [List.countP_cons_of_pos hn] at h
        obtain ⟨k, hk⟩ := copy_blocks (D := D) hn m before (ops.map (opThread D config))
        obtain ⟨pool, hrun, hwait, _⟩ := ih m
          (before ++ [⟨⟨1, true⟩, .call .acquirePermit k⟩]) (by omega)
        simp only [List.append_assoc, List.singleton_append] at hrun
        refine ⟨_ :: pool, hk.trans hrun, ?_, fun _ => ⟨_, List.mem_cons_self, rfl⟩⟩
        intro th hth
        rcases List.mem_cons.mp hth with rfl | hth
        · exact fun _ => rfl
        · exact hwait th hth
    · rw [List.countP_cons_of_neg hn] at h
      obtain ⟨pool, hrun, hwait, hsome⟩ := ih m (before ++ [opThread D config op]) h
      simp only [List.append_assoc, List.singleton_append] at hrun
      refine ⟨opThread D config op :: pool, hrun, ?_, fun hm => ?_⟩
      · intro th hth
        rcases List.mem_cons.mp hth with rfl | hth
        · exact asksPermit_opThread op
        · exact hwait th hth
      · obtain ⟨th, hth, hnone⟩ := hsome hm
        exact ⟨th, List.mem_cons_of_mem _ hth, hnone⟩

end Blocking

/-- The calls cannot deadlock exactly when fewer copies than permits run at once. -/
theorem limiter_deadlock_free_iff (D : Digest) (config : SmbStorageConfig)
    (hn : 1 ≤ config.maxTransferConcurrency) (ops : List SmbOp) :
    (∀ x, Runs (config.maxTransferConcurrency, ops.map (opThread D config)) x → ¬ Deadlock x) ↔
      ops.countP SmbOp.nested < config.maxTransferConcurrency := by
  constructor
  · intro hfree
    by_contra hle
    obtain ⟨pool, hrun, hwait, hsome⟩ := reach_blocked (D := D) ops
      config.maxTransferConcurrency [] (Nat.le_of_not_lt hle)
    exact hfree _ hrun ⟨hsome hn, rfl, hwait⟩
  · exact fun h x hr => not_deadlock_of_lt h hr

/-- One copy beside one upload, with two permits. -/
def sampleOps : List SmbOp :=
  [.copyBlob ⟨List.replicate 16 0, by simp⟩ "a".toList "b/c".toList,
    .putBlob ⟨List.replicate 16 1, by simp⟩ "d".toList (.fromBytes [1, 2])]

theorem limiter_deadlock_free_two_permits :
    sampleOps.countP SmbOp.nested = 1 ∧
      ∀ x, Runs (2, sampleOps.map (opThread Digest.sha256 ⟨none, 2⟩)) x → ¬ Deadlock x :=
  ⟨by decide, (limiter_deadlock_free_iff Digest.sha256 ⟨none, 2⟩ (by decide) sampleOps).mpr
    (by decide)⟩

/-- With a single permit one copy of an existing blob waits for itself. -/
theorem limiter_deadlocks_single_copy :
    ∃ x, Runs (1, [SmbOp.copyBlob ⟨List.replicate 16 0, by simp⟩ "a".toList "b".toList].map
      (opThread Digest.sha256 ⟨none, 1⟩)) x ∧ Deadlock x := by
  obtain ⟨pool, hrun, hwait, hsome⟩ := reach_blocked (D := Digest.sha256)
    [SmbOp.copyBlob ⟨List.replicate 16 0, by simp⟩ "a".toList "b".toList] 1 [] (by decide)
  exact ⟨_, hrun, hsome Nat.one_pos, rfl, hwait⟩

end GraphqlOrmStorage.Smb
