import GraphqlOrmStorage.SmbRequests

/-!
# Races on one key of a share

Writes, conditional writes and reads of one key run against each other, one request at
a time in any order. A failed conditional write closes its file and then deletes
whatever the key names; what another write has put there in between is lost. While no
rename falls into that window, the last write that succeeded is the one that stays.

A conditional write creates the key before it fills it. Whoever meets the key before
it is complete may be told of a blob that never comes to be; while nobody does, every
answer is about a complete blob.
-/
namespace GraphqlOrmStorage.Smb

open Text Program Program.Prog

/-- A call on the key, at its beginning. -/
abbrev KeyThread := Thread Requests KeyPhase KeyResult

def keyThread (D : Digest) (config : SmbStorageConfig) (key : Str) (call : KeyCall) : KeyThread :=
  ⟨⟨call, .idle⟩, call.prog D config key⟩

/-- The bytes stored under a path. -/
def Server.stored (s : Server) (path : Str) : Option Bytes := (s.names path).map s.content

/-- The identifier of the temporary file. -/
def KeyCall.uuid? : KeyCall → Option Uuid
  | putBlob uuid _ => some uuid
  | putBlobIfNotExists _ | getBlob => none

/-- The calls may begin: no file is open, and their temporary names are fresh. -/
structure Begins (config : SmbStorageConfig) (key : Str) (s : Server) (calls : List KeyCall) :
    Prop where
  valid : ValidKey key
  sound : Sound s
  closed : ∀ h, s.file h = none
  fresh : ∀ call ∈ calls, call.isPut = true → s.names (call.target config key) = none
  distinct : calls.Pairwise fun a b => ∀ u, a.uuid? = some u → b.uuid? ≠ some u

def KeyResult.isSuccess : KeyResult → Bool
  | wrote (.ok (some _)) => true
  | _ => false

/-- The write has returned `Ok` or `Ok(Some)`. -/
def Succeeded (th : KeyThread) : Prop := th.prog.result?.any KeyResult.isSuccess = true

instance (th : KeyThread) : Decidable (Succeeded th) := inferInstanceAs (Decidable (_ = true))

theorem succeeded_iff {th : KeyThread} :
    Succeeded th ↔ ∃ outcome, th.prog = .ret (.wrote (.ok (some outcome))) := by
  obtain ⟨phase, prog⟩ := th
  cases prog with
  | call c k => simp [Succeeded, result?]
  | ret res =>
    rcases res with (e | _ | outcome) | (e | bytes) <;>
      simp [Succeeded, result?, KeyResult.isSuccess]

def SmbCall.isRename : SmbCall → Bool
  | setRename _ _ _ => true
  | _ => false

/-- No rename falls between the close and the reopening of a failed conditional write. -/
def OutsideWindow (_ : Server) (others : List KeyThread) (th : KeyThread) : Prop :=
  ∀ c ∈ th.prog.next?, c.isRename = true → ∀ o ∈ others, o.phase.inWindow = false

instance (s : Server) (others : List KeyThread) (th : KeyThread) :
    Decidable (OutsideWindow s others th) :=
  inferInstanceAs (Decidable (∀ c ∈ th.prog.next?, _ → _))

section Runs

variable {D : Digest} {config : SmbStorageConfig} {key : Str} {calls : List KeyCall}
  {s₀ s s' : Server}

theorem Begins.targets (h : Begins config key s₀ calls) :
    calls.Pairwise fun a b => a.isPut = true ∨ b.isPut = true →
      a.target config key ≠ b.target config key := by
  refine h.distinct.imp fun {a b} hd hput => ?_
  cases a with
  | putBlob u body =>
    cases b with
    | putBlob u' body' =>
      intro he
      obtain rfl := tempPath_injective config key he
      exact hd u rfl rfl
    | putBlobIfNotExists body' => exact tempPath_ne config u key
    | getBlob => exact tempPath_ne config u key
  | putBlobIfNotExists body =>
    cases b with
    | putBlob u' body' => exact (tempPath_ne config u' key).symm
    | putBlobIfNotExists body' => simp [KeyCall.isPut] at hput
    | getBlob => simp [KeyCall.isPut] at hput
  | getBlob =>
    cases b with
    | putBlob u' body' => exact (tempPath_ne config u' key).symm
    | putBlobIfNotExists body' => simp [KeyCall.isPut] at hput
    | getBlob => simp [KeyCall.isPut] at hput

/-- Before the first request nobody has anything. -/
theorem Begins.keyInv (h : Begins config key s₀ calls) :
    KeyInv config key s₀ (calls.map fun call => ⟨call, .idle⟩) where
  sound := h.sound
  holds q hq := by
    obtain ⟨call, hc, rfl⟩ := List.mem_map.mp hq
    exact Holds.of_none rfl (by simp) (by intro k hk; cases hk) fun hput _ => h.fresh call hc hput
  apart := by
    refine List.pairwise_map.mpr (h.targets.imp fun {a b} ht => ⟨?_, ?_, ht⟩) <;>
    · intro f hf
      cases hf
  current := by
    rintro ⟨q, hq, hne⟩
    obtain ⟨call, _, rfl⟩ := List.mem_map.mp hq
    exact absurd rfl hne

theorem phases_keyThread :
    (calls.map (keyThread D config key)).map Thread.phase = calls.map fun call => ⟨call, .idle⟩ := by
  rw [List.map_map]
  rfl

/-- The result of a call fits its stage, unless the call is lost. -/
theorem disciplined_keyThread (hk : ValidKey key) :
    Disciplined (keyDiscipline config key) (Ends Returned) (calls.map (keyThread D config key)) := by
  intro th hth
  obtain ⟨call, _, rfl⟩ := List.mem_map.mp hth
  exact keyCall_keeps D hk call

/-- A call that returns success has published its file. -/
theorem Returned.published {q : KeyPhase} {outcome : BlobWriteOutcome}
    (h : Returned q (.wrote (.ok (some outcome)))) : ∃ f, q.published? = some f := by
  obtain ⟨call, stage⟩ := q
  rcases h with ⟨hcond, f, hf⟩ | ⟨f, hf⟩
  · obtain rfl : stage = .closed f := hf
    cases call with
    | putBlobIfNotExists body => exact ⟨f, rfl⟩
    | putBlob uuid body => cases hcond
    | getBlob => cases hcond
  · obtain rfl : stage = .stored f := hf
    exact ⟨f, rfl⟩

/-- A call that has published its file returns nothing but success. -/
theorem Returned.success {q : KeyPhase} {res : KeyResult} {f : Handle} {bytes : Bytes}
    (h : Returned q res) (hpub : q.published? = some f) (hc : q.call.content = .ok bytes) :
    ∃ outcome, res = .wrote (.ok (some outcome)) := by
  obtain ⟨call, stage⟩ := q
  have hno : ∀ stage' : KeyStage, stage'.whole? = none → stage ≠ stage' := by
    rintro _ hnone rfl
    rw [KeyPhase.whole?_of_published? hpub] at hnone
    cases hnone
  cases res with
  | wrote result =>
    rcases result with e | _ | outcome
    · exact absurd h (hno _ rfl)
    · rcases h with h | ⟨e, he, _⟩
      · exact absurd h (hno _ rfl)
      · rw [hc] at he
        cases he
    · exact ⟨outcome, rfl⟩
  | read result =>
    cases result with
    | error e => exact absurd h (hno _ rfl)
    | ok bytes => exact absurd h (hno _ rfl)

theorem KeyInv.step_at {q : KeyPhase} {before after : List KeyPhase} {c : SmbCall}
    {r : SmbCall.Reply c} (hi : KeyInv config key s (before ++ q :: after))
    (hissues : (keyDiscipline config key).allowed q c) (hserves : Serves s c r s')
    (hrename : (∃ h path replace, c = .setRename h path replace) →
      ∀ p ∈ before ++ after, p.inWindow = false)
    (hread : q.call.isGet = true → q.stage = .idle → (∃ path access, c = .openExisting path access) →
      ∀ p ∈ before ++ after, p.own? = none) :
    KeyInv config key s' (before ++ q.advance c r :: after) :=
  ((hi.perm List.perm_middle).step hissues hserves hrename hread).perm List.perm_middle.symm

@[simp] theorem advance_call (q : KeyPhase) (c : SmbCall) (r : SmbCall.Reply c) :
    (q.advance c r).call = q.call := by
  unfold KeyPhase.advance
  split_ifs <;> rfl

/-! ### Writes -/

/-- In every run of writes in which no rename falls into a window, what is stored in the end is
the body of the last write that succeeded. -/
theorem failed_write_loses_nothing (D : Digest) (config : SmbStorageConfig) (key : Str)
    (calls : List KeyCall) (s₀ s : Server) (pool : List KeyThread)
    (h₀ : Begins config key s₀ calls) (hwrites : ∀ call ∈ calls, call.isGet = false)
    (hr : Reach (keyDiscipline config key).next Serves OutsideWindow
      (s₀, calls.map (keyThread D config key)) (s, pool))
    (hdone : ∀ th ∈ pool, th.prog.result? ≠ none) :
    ∀ th ∈ pool, Succeeded th → ∃ w ∈ pool, Succeeded w ∧
      ∃ f g bytes, th.phase.stage.file? = some f ∧ w.phase.stage.file? = some g ∧
        w.phase.call.content = .ok bytes ∧ s.stored (keyPath config key) = some bytes ∧
        s.latest (keyPath config key) = some g ∧ (keyPath config key, f) ∈ s.history := by
  have hinit : KeyInv config key s₀ ((calls.map (keyThread D config key)).map Thread.phase) ∧
      ((calls.map (keyThread D config key)).map Thread.phase).map KeyPhase.call = calls := by
    rw [phases_keyThread]
    exact ⟨h₀.keyInv, by simp [List.map_map, Function.comp_def]⟩
  obtain ⟨hdisc, hinv, _⟩ := Reach.invariant
    (fun s phases => KeyInv config key s phases ∧ phases.map KeyPhase.call = calls)
    (fun s s' before after q c k r h hissues hguard hserves => by
      obtain ⟨hi, hcalls⟩ := h
      refine ⟨hi.step_at hissues hserves ?_ ?_, ?_⟩
      · rintro ⟨h, path, replace, rfl⟩ p hp
        rw [← List.map_append] at hp
        obtain ⟨o, ho, rfl⟩ := List.mem_map.mp hp
        exact hguard _ rfl rfl o ho
      · intro hget
        rw [hwrites q.call (hcalls ▸ List.mem_map_of_mem (by simp))] at hget
        cases hget
      · rw [← hcalls]
        simp only [List.map_append, List.map_cons]
        rw [show ((keyDiscipline config key).next q c r).call = q.call from advance_call q c r])
    hr (disciplined_keyThread h₀.valid) hinit
  have hend : ∀ th ∈ pool, ∀ res, th.prog = .ret res → Returned th.phase res := by
    intro th hth res hres
    have hpost := hdisc th hth
    rw [hres] at hpost
    exact hpost.resolve_left (hinv.holds _ (List.mem_map_of_mem hth)).known
  intro th hth hok
  obtain ⟨outcome, hres⟩ := succeeded_iff.mp hok
  obtain ⟨f, hf⟩ := (hend th hth _ hres).published
  have hholds := hinv.holds _ (List.mem_map_of_mem hth)
  obtain ⟨p, hp, g, hg, hname⟩ :=
    hinv.current ⟨th.phase, List.mem_map_of_mem hth, by rw [hf]; simp⟩
  obtain ⟨w, hw, rfl⟩ := List.mem_map.mp hp
  have hwhole := (hinv.holds _ hp).whole g (KeyPhase.whole?_of_published? hg)
  obtain ⟨res, hwres⟩ := Option.ne_none_iff_exists'.mp (hdone w hw)
  have hwret := eq_ret_of_result? hwres
  obtain ⟨outcome', rfl⟩ := (hend w hw res hwret).success hg hwhole
  refine ⟨w, hw, succeeded_iff.mpr ⟨outcome', hwret⟩, f, g, _, KeyPhase.file?_of_published? hf,
    KeyPhase.file?_of_published? hg, hwhole, ?_, hinv.sound.latest _ _ hname, hholds.noted f hf⟩
  exact congrArg (Option.map _) hname

end Runs

/-! Two calls on one key: a conditional write whose body fails at once, and a plain write. -/

def sampleConfig : SmbStorageConfig := ⟨none, 2⟩

def sampleFailing : KeyCall := .putBlobIfNotExists ⟨[.error (.missingBlob "x".toList)], none⟩

def samplePlain : KeyCall := .putBlob ⟨List.replicate 16 7, by simp⟩ ⟨[.ok [1]], none⟩

def sampleRun (calls : List KeyCall) (schedule : List ℕ) : Server × List KeyThread :=
  runSchedule (keyDiscipline sampleConfig "k".toList).next (fun c s => s.answer .smooth c)
    (Server.empty, calls.map (keyThread Digest.sha256 sampleConfig "k".toList)) schedule

theorem sampleRun_reach (guard : Server → List KeyThread → KeyThread → Prop)
    (calls : List KeyCall) (schedule : List ℕ)
    (hg : ScheduleAllowed (keyDiscipline sampleConfig "k".toList).next
      (fun c s => s.answer .smooth c) guard schedule
      (Server.empty, calls.map (keyThread Digest.sha256 sampleConfig "k".toList))) :
    Reach (keyDiscipline sampleConfig "k".toList).next Serves guard
      (Server.empty, calls.map (keyThread Digest.sha256 sampleConfig "k".toList))
      (sampleRun calls schedule) :=
  runSchedule_reach (fun _ _ => ⟨.smooth, rfl, rfl⟩) hg

theorem Sound.empty : Sound Server.empty where
  named_lt p f hp := by cases hp
  open_lt h f hf := by simp [Server.file, Server.empty] at hf
  short f := Nat.zero_le _
  latest p f hp := by cases hp

theorem begins_empty {calls : List KeyCall}
    (hd : calls.Pairwise fun a b => ∀ u, a.uuid? = some u → b.uuid? ≠ some u) :
    Begins sampleConfig "k".toList Server.empty calls where
  valid := by decide
  sound := Sound.empty
  closed h := by simp [Server.file, Server.empty]
  fresh call hc hput := rfl
  distinct := hd

/-- The failing write is over before the plain one begins, which then stays. -/
theorem failed_write_loses_nothing_in_turn : ∃ s pool,
    Reach (keyDiscipline sampleConfig "k".toList).next Serves OutsideWindow
      (Server.empty, [sampleFailing, samplePlain].map
        (keyThread Digest.sha256 sampleConfig "k".toList)) (s, pool) ∧
    (∃ th ∈ pool, Succeeded th) ∧
    ∀ th ∈ pool, Succeeded th → ∃ w ∈ pool, Succeeded w ∧
      ∃ f g bytes, th.phase.stage.file? = some f ∧ w.phase.stage.file? = some g ∧
        w.phase.call.content = .ok bytes ∧ s.stored (keyPath sampleConfig "k".toList) = some bytes ∧
        s.latest (keyPath sampleConfig "k".toList) = some g ∧
        (keyPath sampleConfig "k".toList, f) ∈ s.history := by
  have hreach := sampleRun_reach OutsideWindow [sampleFailing, samplePlain]
    (List.replicate 10 0 ++ List.replicate 20 1) (by decide +kernel)
  have hdone : ∀ th ∈ (sampleRun [sampleFailing, samplePlain]
      (List.replicate 10 0 ++ List.replicate 20 1)).2, th.prog.result? ≠ none := by
    decide +kernel
  have hok : ∃ th ∈ (sampleRun [sampleFailing, samplePlain]
      (List.replicate 10 0 ++ List.replicate 20 1)).2, Succeeded th := by
    decide +kernel
  generalize sampleRun [sampleFailing, samplePlain]
    (List.replicate 10 0 ++ List.replicate 20 1) = x at hreach hdone hok
  obtain ⟨s, pool⟩ := x
  exact ⟨s, pool, hreach, hok, failed_write_loses_nothing _ _ _ _ _ _ _
    (begins_empty (by decide)) (by decide) hreach hdone⟩

/-- The plain write falls between the close and the reopening: it returns `Ok`, and the failing
write then deletes what it has stored. -/
theorem failed_write_loses_update : ∃ s pool,
    Reach (keyDiscipline sampleConfig "k".toList).next Serves (fun _ _ _ => True)
      (Server.empty, [sampleFailing, samplePlain].map
        (keyThread Digest.sha256 sampleConfig "k".toList)) (s, pool) ∧
    Begins sampleConfig "k".toList Server.empty [sampleFailing, samplePlain] ∧
    (∀ th ∈ pool, th.prog.result? ≠ none) ∧ (∃ th ∈ pool, Succeeded th) ∧
    s.stored (keyPath sampleConfig "k".toList) = none := by
  have hreach := sampleRun_reach (fun _ _ _ => True) [sampleFailing, samplePlain]
    (List.replicate 3 0 ++ List.replicate 20 1 ++ List.replicate 10 0) (by decide +kernel)
  have hend : (∀ th ∈ (sampleRun [sampleFailing, samplePlain]
        (List.replicate 3 0 ++ List.replicate 20 1 ++ List.replicate 10 0)).2,
        th.prog.result? ≠ none) ∧
      (∃ th ∈ (sampleRun [sampleFailing, samplePlain]
        (List.replicate 3 0 ++ List.replicate 20 1 ++ List.replicate 10 0)).2, Succeeded th) ∧
      (sampleRun [sampleFailing, samplePlain]
        (List.replicate 3 0 ++ List.replicate 20 1 ++ List.replicate 10 0)).1.stored
          (keyPath sampleConfig "k".toList) = none := by
    decide +kernel
  generalize sampleRun [sampleFailing, samplePlain]
    (List.replicate 3 0 ++ List.replicate 20 1 ++ List.replicate 10 0) = x at hreach hend
  obtain ⟨s, pool⟩ := x
  exact ⟨s, pool, hreach, begins_empty (by decide), hend⟩

end GraphqlOrmStorage.Smb
