import GraphqlOrmStorage.Types
import GraphqlOrmStorage.Sha256
import GraphqlOrmStorage.Program

/-!
# The default conditional write of the blob store trait

A provider that does not override `put_blob_if_not_exists` gets a check followed
by a write. The two calls are linearizable, so each of them acts at one moment,
and the clients' calls are interleaved in any order. Whether the pair is a
conditional write depends on what happens in the gap between the two.
-/
namespace GraphqlOrmStorage.BlobStore

open Text Program Program.Prog

/-- The calls of the trait that the default makes. -/
inductive StoreCall where
  | blobExists (key : Str)
  | putBlob (key : Str) (body : StorageByteStream) (options : BlobPutOptions)

abbrev StoreCall.Reply : StoreCall → Type
  | .blobExists _ => Except StorageError Bool
  | .putBlob .. => Except StorageError BlobWriteOutcome

abbrev StoreRequests : Interface := ⟨StoreCall, StoreCall.Reply⟩

abbrev StoreM := Prog StoreRequests

def request (c : StoreCall) : StoreM (StoreCall.Reply c) := Prog.perform (I := StoreRequests) c

/-- `put_blob_if_not_exists`, as the trait provides it. -/
def putBlobIfNotExists (key : Str) (body : StorageByteStream) (options : BlobPutOptions) :
    StoreM (Except StorageError (Option BlobWriteOutcome)) := do
  match ← request (.blobExists key) with
  | .error e => return .error e
  | .ok true => return .ok none
  | .ok false =>
    match ← request (.putBlob key body options) with
    | .error e => return .error e
    | .ok outcome => return .ok (some outcome)

/-! ### What a provider provides -/

/-- The calls of a provider act on its content at one moment: a check tells whether the
key is present, a write that succeeds stores its body, and a write that fails may or may
not have stored it. -/
structure Linearizable {S : Type} (content : S → Str → Option Bytes)
    (answer : S → (c : StoreCall) → StoreCall.Reply c → S → Prop) : Prop where
  checked : ∀ s key r s', answer s (.blobExists key) r s' →
    content s' = content s ∧ ∀ found, r = .ok found → found = (content s key).isSome
  written : ∀ s key body options outcome s', answer s (.putBlob key body options) (.ok outcome) s' →
    ∃ b, body.body = .ok b ∧ content s' = Function.update (content s) key (some b)
  failed : ∀ s key body options e s', answer s (.putBlob key body options) (.error e) s' →
    content s' = content s ∨
      ∃ b, body.body = .ok b ∧ content s' = Function.update (content s) key (some b)

/-! ### The phases of a call -/

inductive Phase where
  | checking | writing
  | done (won : Bool)
  deriving DecidableEq

/-- The call wrote its blob and said so. -/
def isWin : Except StorageError (Option BlobWriteOutcome) → Bool
  | .ok (some _) => true
  | _ => false

/-- What a call on the key does next. -/
def conditional (key : Str) : Discipline StoreRequests Phase where
  allowed
    | .checking, c => c = .blobExists key
    | .writing, c => ∃ body options, c = .putBlob key body options
    | .done _, _ => False
  next
    | .checking, .blobExists _, .ok false => .writing
    | .writing, .putBlob .., .ok _ => .done true
    | _, _, _ => .done false

/-- A call ends in the phase that its result tells. -/
def ends (q : Phase) (r : Except StorageError (Option BlobWriteOutcome)) : Prop :=
  q = .done (isWin r)

theorem putBlobIfNotExists_follows (key : Str) (body : StorageByteStream)
    (options : BlobPutOptions) :
    Follows (conditional key) ends .checking (putBlobIfNotExists key body options) := by
  refine ⟨rfl, fun r => ?_⟩
  cases r with
  | error e => rfl
  | ok found =>
    cases found with
    | true => rfl
    | false =>
      refine ⟨⟨body, options, rfl⟩, fun r => ?_⟩
      cases r with
      | error e => rfl
      | ok outcome => rfl

/-- A client of the provider, with a call of its own. -/
abbrev Client := Thread StoreRequests Phase (Except StorageError (Option BlobWriteOutcome))

/-- The clients, each about to write its own body. -/
def start (key : Str) (calls : List (StorageByteStream × BlobPutOptions)) : List Client :=
  calls.map fun call => ⟨.checking, putBlobIfNotExists key call.1 call.2⟩

theorem disciplined_start (key : Str) (calls : List (StorageByteStream × BlobPutOptions)) :
    Disciplined (conditional key) ends (start key calls) := by
  intro th hth
  obtain ⟨call, -, rfl⟩ := List.mem_map.mp hth
  exact putBlobIfNotExists_follows key call.1 call.2

/-- The client's call has returned `Ok(Some(_))`. -/
def hasWon (th : Client) : Bool := th.prog.result?.any isWin

/-- For a disciplined client that is what its phase says. -/
theorem hasWon_eq {key : Str} {th : Client} (h : Follows (conditional key) ends th.phase th.prog) :
    hasWon th = (th.phase == .done true) := by
  obtain ⟨q, p⟩ := th
  cases p with
  | ret r =>
    obtain rfl : q = .done (isWin r) := h
    cases hr : isWin r <;> simp [hasWon, result?, hr]
  | call c k =>
    cases q with
    | checking => rfl
    | writing => rfl
    | done won => exact absurd h.1 id

/-- The number of calls that returned `Ok(Some(_))`. -/
def winners (clients : List Client) : ℕ := clients.countP hasWon

theorem winners_eq {key : Str} {clients : List Client}
    (h : Disciplined (conditional key) ends clients) :
    winners clients = (clients.map Thread.phase).count (.done true) := by
  rw [winners, List.count, List.countP_map]
  refine List.countP_congr fun th hth => ?_
  rw [hasWon_eq (h th hth)]
  rfl

/-! ### Runs in which the gap stays closed -/

section Runs

variable {S : Type} {content : S → Str → Option Bytes}
  {answer : S → (c : StoreCall) → StoreCall.Reply c → S → Prop}

/-- The client is past its check and about to write. -/
def writesNext (th : Client) : Bool :=
  match th.prog.next? with
  | some (.putBlob ..) => true
  | _ => false

/-- When a client writes, the key is still absent: nobody wrote since it was checked. -/
def StillAbsent (content : S → Str → Option Bytes) (key : Str) :
    S → List Client → Client → Prop :=
  fun s _ th => writesNext th = true → content s key = none

instance (content : S → Str → Option Bytes) (key : Str) (s : S) (others : List Client)
    (th : Client) : Decidable (StillAbsent content key s others th) :=
  inferInstanceAs (Decidable (_ → _))

/-- The clients' calls are a conditional write: at most one of them has written its
blob, and once it has the content stays. -/
def RaceSafe (content : S → Str → Option Bytes)
    (answer : S → (c : StoreCall) → StoreCall.Reply c → S → Prop)
    (guard : S → List Client → Client → Prop) (key : Str) (y : S × List Client) : Prop :=
  winners y.2 ≤ 1 ∧ ∀ z, Reach (conditional key).next answer guard y z → winners y.2 ≠ 0 →
    content z.1 key = content y.1 key

/-- At most one call has won, and none while the key is absent. -/
def WinnerInv (content : S → Str → Option Bytes) (key : Str) (s : S) (phases : List Phase) : Prop :=
  phases.count (.done true) ≤ 1 ∧ (content s key = none → phases.count (.done true) = 0)

/-- One call of a client, which keeps to the gap: the key is checked, or it was absent
and is written. -/
lemma step_cases {key : Str} (hlin : Linearizable content answer) {s s' : S} {q : Phase}
    {c : StoreCall} {k : StoreCall.Reply c → StoreM (Except StorageError (Option BlobWriteOutcome))}
    {r : StoreCall.Reply c} {others : List Client} (hallowed : (conditional key).allowed q c)
    (hguard : StillAbsent content key s others ⟨q, .call c k⟩) (ha : answer s c r s') :
    q ≠ .done true ∧
      (content s' key = content s key ∧ (conditional key).next q c r ≠ .done true ∨
        content s key = none ∧
          ((conditional key).next q c r = .done true → content s' key ≠ none)) := by
  cases q with
  | checking =>
    have hc : c = .blobExists key := hallowed
    subst hc
    refine ⟨by simp, Or.inl ⟨congrFun (hlin.checked s key r s' ha).1 key, ?_⟩⟩
    cases r with
    | error e => simp [conditional]
    | ok found => cases found <;> simp [conditional]
  | writing =>
    obtain ⟨body, options, hc⟩ := hallowed
    subst hc
    refine ⟨by simp, Or.inr ⟨hguard rfl, ?_⟩⟩
    cases r with
    | error e => simp [conditional]
    | ok outcome =>
      intro _
      obtain ⟨b, -, hcontent⟩ := hlin.written s key body options outcome s' ha
      simp [hcontent]
  | done won => exact absurd hallowed id

lemma winnerInv_step {key : Str} {s s' : S} {before after : List Phase} {q q' : Phase}
    (hq : q ≠ .done true)
    (hstep : content s' key = content s key ∧ q' ≠ .done true ∨
      content s key = none ∧ (q' = .done true → content s' key ≠ none))
    (h : WinnerInv content key s (before ++ q :: after)) :
    WinnerInv content key s' (before ++ q' :: after) := by
  obtain ⟨hone, hnone⟩ := h
  rw [List.count_append, List.count_cons_of_ne hq] at hone hnone
  by_cases hwon : q' = .done true
  · obtain ⟨habsent, hpresent⟩ : content s key = none ∧ (q' = .done true → content s' key ≠ none) :=
      hstep.resolve_left fun h => h.2 hwon
    have hzero := hnone habsent
    subst hwon
    refine ⟨?_, fun h => absurd h (hpresent rfl)⟩
    rw [List.count_append, List.count_cons_self]
    omega
  · refine ⟨?_, fun habsent => ?_⟩
    · rw [List.count_append, List.count_cons_of_ne hwon]
      exact hone
    · rw [List.count_append, List.count_cons_of_ne hwon]
      cases hstep with
      | inl h => exact hnone (h.1 ▸ habsent)
      | inr h => exact hnone h.1

/-- In every state that a run leads to in which every write found its key still absent. -/
theorem reach_winnerInv {key : Str} (hlin : Linearizable content answer) {s₀ : S}
    {calls : List (StorageByteStream × BlobPutOptions)}
    {y : S × List Client}
    (hr : Reach (conditional key).next answer (StillAbsent content key) (s₀, start key calls) y) :
    Disciplined (conditional key) ends y.2 ∧
      WinnerInv content key y.1 (y.2.map Thread.phase) := by
  refine hr.invariant (WinnerInv content key) ?_ (disciplined_start key calls) ?_
  · intro s s' before after q c k r hinv hallowed hguard ha
    obtain ⟨hq, hstep⟩ := step_cases hlin hallowed hguard ha
    exact winnerInv_step hq hstep hinv
  · have hzero : ((start key calls).map Thread.phase).count (.done true) = 0 := by
      rw [List.count_eq_zero, start, List.map_map]
      intro hmem
      obtain ⟨call, -, hcall⟩ := List.mem_map.mp hmem
      cases hcall
    exact ⟨hzero.le.trans (Nat.zero_le 1), fun _ => hzero⟩

/-- Once the key is present its content stays. -/
theorem reach_content {key : Str} (hlin : Linearizable content answer) {y z : S × List Client}
    (hd : Disciplined (conditional key) ends y.2) (hpresent : content y.1 key ≠ none)
    (hr : Reach (conditional key).next answer (StillAbsent content key) y z) :
    content z.1 key = content y.1 key := by
  refine (hr.invariant (fun s _ => content s key = content y.1 key) ?_ hd rfl).2
  intro s s' before after q c k r hsame hallowed hguard ha
  obtain ⟨-, hkept | habsent⟩ := step_cases hlin hallowed hguard ha
  · exact hkept.1.trans hsame
  · exact absurd (hsame ▸ habsent.1) hpresent

/-- For every provider with linearizable calls, every number of clients and every
interleaving in which each write finds the key still absent: at most one call reports
its blob written, and from then on the content never changes. -/
theorem default_conditional_write_safe {key : Str} (hlin : Linearizable content answer) {s₀ : S}
    (calls : List (StorageByteStream × BlobPutOptions))
    {y : S × List Client}
    (hr : Reach (conditional key).next answer (StillAbsent content key) (s₀, start key calls) y) :
    RaceSafe content answer (StillAbsent content key) key y := by
  obtain ⟨hd, hone, hnone⟩ := reach_winnerInv hlin hr
  rw [← winners_eq hd] at hone hnone
  refine ⟨hone, fun z hz hwon => reach_content hlin hd ?_ hz⟩
  intro hy
  exact hwon (hnone hy)

end Runs

/-! ### A provider in memory -/

/-- The whole content in one map. -/
def memory : (c : StoreCall) → (Str → Option Bytes) → StoreCall.Reply c × (Str → Option Bytes)
  | .blobExists key, s => (.ok (s key).isSome, s)
  | .putBlob key body _, s =>
    match body.body with
    | .error e => (.error e, s)
    | .ok b => (.ok ⟨b.length, sha256Hex Digest.sha256 b⟩, Function.update s key (some b))

/-- The provider answers as the map does. -/
def inMemory (s : Str → Option Bytes) (c : StoreCall) (r : StoreCall.Reply c)
    (s' : Str → Option Bytes) : Prop := r = (memory c s).1 ∧ s' = (memory c s).2

theorem linearizable_memory : Linearizable id inMemory := by
  constructor
  · intro s key r s' h
    obtain ⟨rfl, rfl⟩ := h
    exact ⟨rfl, fun found he => (Except.ok.inj he).symm⟩
  · intro s key body options outcome s' h
    obtain ⟨hr, rfl⟩ := h
    unfold memory at hr ⊢
    cases hb : body.body with
    | error e => simp [hb] at hr
    | ok b => exact ⟨b, rfl, by simp [hb]⟩
  · intro s key body options e s' h
    obtain ⟨hr, rfl⟩ := h
    unfold memory at hr ⊢
    cases hb : body.body with
    | error e => exact Or.inl (by simp [hb])
    | ok b => simp [hb] at hr

/-- Two clients with different bodies for one key. -/
def twoClients : List (StorageByteStream × BlobPutOptions) :=
  [(.fromBytes [1], ⟨none⟩), (.fromBytes [2], ⟨none⟩)]

/-- The clients after some steps, starting from an empty store. -/
def afterSteps (schedule : List ℕ) : (Str → Option Bytes) × List Client :=
  runSchedule (conditional "k".toList).next memory (fun _ => none, start "k".toList twoClients)
    schedule

/-- One client after the other. -/
theorem default_conditional_write_safe_in_turn :
    RaceSafe id inMemory (StillAbsent id "k".toList) "k".toList (afterSteps [0, 0, 1]) := by
  refine default_conditional_write_safe linearizable_memory twoClients
    (runSchedule_reach (fun s c => ⟨rfl, rfl⟩) ?_)
  decide +kernel

/-- Both clients check, then both write, and both are told that their blob was written. -/
theorem default_conditional_write_races : ¬ ∀ (key : Str)
    (calls : List (StorageByteStream × BlobPutOptions)) (y : (Str → Option Bytes) × List Client),
    Reach (conditional key).next inMemory (fun _ _ _ => True) (fun _ => none, start key calls) y →
      RaceSafe id inMemory (fun _ _ _ => True) key y := by
  intro h
  have hrun := h "k".toList twoClients (afterSteps [0, 1, 0, 1])
    (runSchedule_reach (fun s c => ⟨rfl, rfl⟩) (by simp [ScheduleAllowed]))
  have htwo : winners (afterSteps [0, 1, 0, 1]).2 = 2 := by decide +kernel
  have hone := hrun.1
  omega

end GraphqlOrmStorage.BlobStore
