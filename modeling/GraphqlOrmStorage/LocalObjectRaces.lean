import GraphqlOrmStorage.LocalObjectCells

/-!
# Completions and deletions of one object that race

Any number of calls finish open writers of one object or delete it, interleaved one
filesystem call at a time. Each call changes the data file first and the sidecar
second, and nothing holds the two together: a call may publish its sidecar after
another call has replaced its data and finished. In every interleaving without such a
step the object is whole once all calls have returned.
-/
namespace GraphqlOrmStorage.Local

open Text Program Program.Prog FileTree

/-- A call on the object: finishing an open writer at time `now`, or deleting. -/
inductive RaceCall (D : Digest) where
  | complete (o : OpenWriter D) (now : ℤ)
  | delete

/-- How far a call has come. After `published` its data step is done and its sidecar step
is ahead; a failed call returns an error. -/
inductive Stage where
  | preparing | encoded | published | done | failed
  deriving DecidableEq

structure RacePhase (D : Digest) where
  call : RaceCall D
  stage : Stage

abbrev RaceThread (D : Digest) := Thread Fs (RacePhase D) (Except StorageError Unit)

variable {D : Digest}

namespace RaceCall

def prog (codec : Codec) (bucket key : Str) : RaceCall D → FsM (Except StorageError Unit)
  | complete o now => do
    let result ← o.writer.complete codec now
    return result.map fun _ => ()
  | delete => deleteObject bucket key

/-- What the call leaves in the data file. -/
def content : RaceCall D → Option Bytes
  | complete o _ => some o.written
  | delete => none

/-- The temporary files of the call. -/
def temps : RaceCall D → List Path
  | complete o _ => [o.writer.tempPath, o.writer.metadataTempPath]
  | delete => []

/-- The calls have drawn different identifiers. -/
def Apart : RaceCall D → RaceCall D → Prop
  | complete o _, complete o' _ => Local.Apart o.ids o'.ids
  | _, _ => True

theorem Apart.symm {a b : RaceCall D} (h : Apart a b) : Apart b a := by
  cases a with
  | delete => cases b <;> trivial
  | complete o now =>
    cases b with
    | delete => trivial
    | complete o' now' => exact Local.Apart.symm h

end RaceCall

section Race

variable (codec : Codec) (bucket key : Str)

/-- The call that answers ends the data step, the sidecar step or the preparation. -/
def RacePhase.advance (q : RacePhase D) : (c : FsCall) → FsCall.Reply c → RacePhase D
  | .writeFile _ _, .ok () => { q with stage := .encoded }
  | .rename _ dst, .ok () =>
    { q with stage := if dst = dataPath bucket key then .published else .done }
  | .rename _ _, .error _ => { q with stage := .failed }
  | .removeFile p, .ok () | .removeFile p, .error .notFound =>
    if p = dataPath bucket key then { q with stage := .published }
    else if p = sidecarPath bucket key then { q with stage := .done }
    else q
  | .removeFile p, .error _ =>
    if p = dataPath bucket key ∨ p = sidecarPath bucket key then { q with stage := .failed } else q
  | _, _ => q

/-- The filesystem calls of each stage. -/
def RacePhase.Issues (q : RacePhase D) (c : FsCall) : Prop :=
  match q.call, q.stage with
  | .complete o now, .preparing => c = .flush o.writer.tempPath ∨
      ∃ bytes, codec.toVec (o.writer.info now) = .ok bytes ∧
        c = .writeFile o.writer.metadataTempPath bytes
  | .complete o _, .encoded => c = .rename o.writer.tempPath o.writer.objectPath
  | .complete o _, .published => c = .rename o.writer.metadataTempPath o.writer.metadataPath
  | .complete o _, .failed =>
    c = .removeFile o.writer.tempPath ∨ c = .removeFile o.writer.metadataTempPath
  | .delete, .preparing => c = .removeFile (dataPath bucket key)
  | .delete, .published => c = .removeFile (sidecarPath bucket key)
  | _, _ => False

def raceDiscipline (D : Digest) : Discipline Fs (RacePhase D) where
  allowed := RacePhase.Issues codec bucket key
  next := RacePhase.advance bucket key

/-- The call before its first step. -/
def raceThread (call : RaceCall D) : RaceThread D :=
  ⟨⟨call, .preparing⟩, call.prog codec bucket key⟩

/-- Each filesystem call is one atomic step, at a time of its own. -/
def Answers (t : FileTree) (c : FsCall) (r : FsCall.Reply c) (t' : FileTree) : Prop :=
  ∃ now, r = (t.handle now c).1 ∧ t' = (t.handle now c).2

/-- The call publishes or removes the sidecar. -/
def SidecarStep : FsCall → Prop
  | .rename _ dst => dst = sidecarPath bucket key
  | .removeFile p => p = sidecarPath bucket key
  | _ => False

instance : (c : FsCall) → Decidable (SidecarStep bucket key c)
  | .rename _ dst => inferInstanceAs (Decidable (dst = sidecarPath bucket key))
  | .removeFile p => inferInstanceAs (Decidable (p = sidecarPath bucket key))
  | .createDirAll _ | .createFile _ | .append _ _ | .flush _ | .writeFile _ _ | .hardLink _ _
  | .copyFile _ _ | .openFile _ | .metadata _ | .readFile _ | .readDir _ => isFalse id

/-- A sidecar step is taken only while the data file holds what this call left there, or what
some call left there that has its own sidecar step ahead. -/
def InTurn (t : FileTree) (others : List (RaceThread D)) (th : RaceThread D) : Prop :=
  match th.prog with
  | .call c _ => SidecarStep bucket key c →
      t.files (dataPath bucket key) = th.phase.call.content ∨
      ∃ o ∈ others, o.phase.stage = .published ∧
        t.files (dataPath bucket key) = o.phase.call.content
  | .ret _ => True

instance (t : FileTree) (others : List (RaceThread D)) :
    (th : RaceThread D) → Decidable (InTurn bucket key t others th)
  | ⟨_, .call c _⟩ =>
    have : Decidable (SidecarStep bucket key c) := instDecidableSidecarStep bucket key c
    inferInstanceAs (Decidable (_ → _))
  | ⟨_, .ret _⟩ => isTrue trivial

/-- Neither file exists, or both do and the sidecar describes the data. -/
def Whole (D : Digest) (t : FileTree) : Prop :=
  (t.files (dataPath bucket key) = none ∧ t.files (sidecarPath bucket key) = none) ∨
  ∃ b encoded info, t.files (dataPath bucket key) = some b ∧
    t.files (sidecarPath bucket key) = some encoded ∧ codec.fromSlice encoded = .ok info ∧
    info.sizeBytes = b.length ∧ info.sha256Hex = sha256Hex D b

/-- The calls are on this object, each writer is open, and no two share an identifier. -/
structure Contenders (t : FileTree) (calls : List (RaceCall D)) : Prop where
  valid : ValidName bucket key
  writing : ∀ o now, RaceCall.complete o now ∈ calls → o.writer.bucket = bucket ∧
    o.writer.key = key ∧ Writing t o.writer o.dataId o.metaId o.written
  apart : calls.Pairwise RaceCall.Apart

end Race

/-! ### The calls keep to their stages -/

section Stages

variable {codec : Codec} {bucket key : Str} {t₀ : FileTree}

/-- A call that returns `Ok` has done both steps. -/
def Returned (q : RacePhase D) (result : Except StorageError Unit) : Prop :=
  result = .ok () → q.stage = .done

theorem returned_error (q : RacePhase D) (e : StorageError) : Returned q (.error e) :=
  fun h => by cases h

/-- Cleaning up temporary files leaves the stage alone. -/
theorem advance_removeFile_temp (q : RacePhase D) {p : Path} (hd : p ≠ dataPath bucket key)
    (hs : p ≠ sidecarPath bucket key) (r : Except ErrorKind Unit) :
    q.advance bucket key (.removeFile p) r = q := by
  rcases r with e | _
  · cases e <;> simp [RacePhase.advance, hd, hs]
  · simp [RacePhase.advance, hd, hs]

theorem advance_rename_data (bucket key : Str) (q : RacePhase D) (src : Path) :
    q.advance bucket key (.rename src (dataPath bucket key)) (.ok ()) =
      { q with stage := .published } := by
  simp [RacePhase.advance]

theorem advance_rename_sidecar (bucket key : Str) (q : RacePhase D) (src : Path) :
    q.advance bucket key (.rename src (sidecarPath bucket key)) (.ok ()) =
      { q with stage := .done } := by
  simp [RacePhase.advance, sidecarPath_ne_dataPath]

theorem advance_removeFile_data (q : RacePhase D) (r : Except ErrorKind Unit) :
    (q.advance bucket key (.removeFile (dataPath bucket key)) r) =
      { q with stage := if r = .ok () ∨ r = .error .notFound then .published else .failed } := by
  rcases r with e | _
  · cases e <;> simp [RacePhase.advance]
  · simp [RacePhase.advance]

theorem advance_removeFile_sidecar (q : RacePhase D) (r : Except ErrorKind Unit) :
    (q.advance bucket key (.removeFile (sidecarPath bucket key)) r) =
      { q with stage := if r = .ok () ∨ r = .error .notFound then .done else .failed } := by
  rcases r with e | _
  · cases e <;> simp [RacePhase.advance, sidecarPath_ne_dataPath]
  · simp [RacePhase.advance, sidecarPath_ne_dataPath]

theorem complete_follows {o : OpenWriter D} (hb : o.writer.bucket = bucket)
    (hk : o.writer.key = key) (hw : Writing t₀ o.writer o.dataId o.metaId o.written) (now : ℤ) :
    Follows (raceDiscipline codec bucket key D) Returned ⟨.complete o now, .preparing⟩
      ((RaceCall.complete o now).prog codec bucket key) := by
  subst hb hk
  obtain ⟨hne₁, hne₂, _, _, _, _⟩ := hw.paths_ne
  rw [hw.objectPath_eq] at hne₁
  rw [hw.metadataPath_eq] at hne₂
  refine ⟨Or.inl rfl, fun r => ?_⟩
  cases r with
  | error source => exact returned_error _ _
  | ok _ =>
    simp only [writeObjectMetadata]
    cases hv : codec.toVec (o.writer.info now) with
    | error source => exact returned_error _ _
    | ok bytes =>
      refine ⟨Or.inr ⟨bytes, hv, rfl⟩, fun r => ?_⟩
      cases r with
      | error source => exact returned_error _ _
      | ok _ =>
        refine ⟨rfl, fun r => ?_⟩
        cases r with
        | error source =>
          refine ⟨Or.inl rfl, fun r => ?_⟩
          exact follows_of_eq (advance_removeFile_temp _ hne₁ hne₂ r)
            ⟨Or.inr rfl, fun _ => returned_error _ _⟩
        | ok _ =>
          have hstage := advance_rename_data o.writer.bucket o.writer.key
            ⟨RaceCall.complete o now, .encoded⟩ o.writer.tempPath
          rw [← hw.objectPath_eq] at hstage
          refine follows_of_eq hstage ⟨rfl, fun r => ?_⟩
          cases r with
          | error source => exact ⟨Or.inr rfl, fun _ => returned_error _ _⟩
          | ok _ =>
            intro _
            have hdone := advance_rename_sidecar o.writer.bucket o.writer.key
              ⟨RaceCall.complete o now, .published⟩ o.writer.metadataTempPath
            rw [← hw.metadataPath_eq] at hdone
            exact congrArg RacePhase.stage hdone

/-- What `removeIfPresent` makes of the reply. -/
def removed (path : Path) : Except ErrorKind Unit → Except StorageError Unit
  | .ok () | .error .notFound => .ok ()
  | .error source => .error (.io path source)

theorem removeIfPresent_eq (path : Path) :
    removeIfPresent path = .call (I := Fs) (.removeFile path) fun r => .ret (removed path r) := by
  show Prog.call (I := Fs) (.removeFile path) _ = _
  congr 1
  funext r
  rcases r with e | _
  · cases e <;> rfl
  · rfl

theorem removed_cases (path : Path) (r : Except ErrorKind Unit) :
    (removed path r = .ok () ∧ (r = .ok () ∨ r = .error .notFound)) ∨
      ∃ e, removed path r = .error e ∧ ¬ (r = .ok () ∨ r = .error .notFound) := by
  rcases r with e | _
  · cases e <;> simp [removed]
  · simp [removed]

theorem delete_follows (hv : ValidName bucket key) :
    Follows (raceDiscipline codec bucket key D) Returned ⟨.delete, .preparing⟩
      ((RaceCall.delete (D := D)).prog codec bucket key) := by
  simp only [RaceCall.prog, deleteObject, objectPathFor_of_valid hv,
    objectMetadataPathFor_of_valid hv, removeIfPresent_eq]
  refine ⟨rfl, fun r => ?_⟩
  refine follows_of_eq (advance_removeFile_data _ r) ?_
  rcases removed_cases (dataPath bucket key) r with ⟨hr, hok⟩ | ⟨e, hr, hne⟩
  · simp only [hr, if_pos hok]
    refine ⟨rfl, fun r' => ?_⟩
    refine follows_of_eq (advance_removeFile_sidecar _ r') ?_
    rcases removed_cases (sidecarPath bucket key) r' with ⟨_, hok'⟩ | ⟨e, hr', _⟩
    · rw [if_pos hok']
      exact fun _ => rfl
    · simp only [hr']
      exact returned_error _ _
  · simp only [hr]
    exact returned_error _ _

end Stages

/-! ### What one step does -/

section Steps

variable {codec : Codec} {bucket key : Str} {t₀ t t' : FileTree}

/-- What a call has stored in its temporary files. -/
def Holds (codec : Codec) (t : FileTree) (q : RacePhase D) : Prop :=
  match q.call with
  | .delete => True
  | .complete o now =>
    (q.stage = .preparing ∨ q.stage = .encoded → t.files o.writer.tempPath = some o.written) ∧
    (q.stage = .encoded ∨ q.stage = .published → ∃ encoded,
      codec.toVec (o.writer.info now) = .ok encoded ∧
      t.files o.writer.metadataTempPath = some encoded)

/-- The sidecar is the one this call leaves. -/
def SidecarOf (codec : Codec) (bucket key : Str) (t : FileTree) : RaceCall D → Prop
  | .delete => t.files (sidecarPath bucket key) = none
  | .complete o now => ∃ encoded, codec.toVec (o.writer.info now) = .ok encoded ∧
      t.files (sidecarPath bucket key) = some encoded

/-- The step left data and sidecar alone, did the data step, or did the sidecar step. -/
def StepEffect (codec : Codec) (bucket key : Str) (q q' : RacePhase D) (c : FsCall)
    (t t' : FileTree) : Prop :=
  (AgreeOff q.call.temps t t' ∧
    (q.stage = .published ∨ q.stage = .failed → q'.stage = .failed)) ∨
  (AgreeOff (dataPath bucket key :: q.call.temps) t t' ∧ q'.stage = .published ∧
    t'.files (dataPath bucket key) = q.call.content) ∨
  (AgreeOff (sidecarPath bucket key :: q.call.temps) t t' ∧ SidecarStep bucket key c ∧
    SidecarOf codec bucket key t' q.call)

/-- The paths of a writer that takes part in the race. -/
def Joins (bucket key : Str) (t₀ : FileTree) : RaceCall D → Prop
  | .delete => True
  | .complete o _ => o.writer.bucket = bucket ∧ o.writer.key = key ∧
      Writing t₀ o.writer o.dataId o.metaId o.written

/-- A removal that fails changes nothing. -/
theorem removeFile_error {p : Path} {e : ErrorKind} (h : (t.removeFile p).1 = .error e) :
    (t.removeFile p).2 = t := by
  cases hf : t.files p with
  | none => exact (removeFile_of_no_file hf).2
  | some b =>
    rw [(removeFile_of_files hf).1] at h
    cases h

theorem delete_step {q : RacePhase D} (hq : q.call = .delete) {c : FsCall} {r : FsCall.Reply c}
    (hi : q.Issues codec bucket key c) (ha : Answers t c r t') :
    StepEffect codec bucket key q (q.advance bucket key c r) c t t' := by
  obtain ⟨call, stage⟩ := q
  obtain rfl : call = .delete := hq
  obtain ⟨now, ha⟩ := ha
  -- Unless the removal succeeded or found nothing, the tree is as before.
  have hsame : ∀ p, ¬ ((t.removeFile p).1 = .ok () ∨ (t.removeFile p).1 = .error .notFound) →
      (t.removeFile p).2 = t := by
    intro p hne
    cases hr : (t.removeFile p).1 with
    | error e => exact removeFile_error hr
    | ok _ => exact absurd (Or.inl hr) hne
  cases stage with
  | preparing =>
    obtain rfl : c = _ := hi
    obtain ⟨rfl, rfl⟩ : r = (t.removeFile (dataPath bucket key)).1 ∧
        t' = (t.removeFile (dataPath bucket key)).2 := ha
    rw [advance_removeFile_data]
    have hf := (removeFile_files t (dataPath bucket key)).1
    by_cases hok : (t.removeFile (dataPath bucket key)).1 = .ok () ∨
        (t.removeFile (dataPath bucket key)).1 = .error .notFound
    · rw [if_pos hok]
      refine Or.inr (Or.inl ⟨agreeOff_of_update hf, rfl, ?_⟩)
      rw [hf, Function.update_self]
      rfl
    · rw [if_neg hok, hsame _ hok]
      exact Or.inl ⟨AgreeOff.refl _ _, by simp⟩
  | published =>
    obtain rfl : c = _ := hi
    obtain ⟨rfl, rfl⟩ : r = (t.removeFile (sidecarPath bucket key)).1 ∧
        t' = (t.removeFile (sidecarPath bucket key)).2 := ha
    have hf := (removeFile_files t (sidecarPath bucket key)).1
    refine Or.inr (Or.inr ⟨agreeOff_of_update hf, rfl, ?_⟩)
    show (t.removeFile (sidecarPath bucket key)).2.files (sidecarPath bucket key) = none
    rw [hf, Function.update_self]
  | encoded => exact absurd hi id
  | done => exact absurd hi id
  | failed => exact absurd hi id

/-- The step of a finishing writer, and what its temporary files hold after it. -/
theorem complete_step {o : OpenWriter D} {stamp : ℤ} {stage : Stage}
    (hj : Joins bucket key t₀ (.complete o stamp)) {c : FsCall} {r : FsCall.Reply c}
    (hi : RacePhase.Issues codec bucket key ⟨.complete o stamp, stage⟩ c)
    (hh : Holds codec t ⟨.complete o stamp, stage⟩) (ha : Answers t c r t') :
    StepEffect codec bucket key ⟨.complete o stamp, stage⟩
        (RacePhase.advance bucket key ⟨.complete o stamp, stage⟩ c r) c t t' ∧
      Holds codec t' (RacePhase.advance bucket key ⟨.complete o stamp, stage⟩ c r) := by
  obtain ⟨rfl, rfl, hw⟩ := hj
  obtain ⟨ne_to, ne_tm, ne_tt, ne_mo, ne_mm, ne_om⟩ := hw.paths_ne
  obtain ⟨now, ha⟩ := ha
  obtain ⟨hheld, hside⟩ := hh
  cases stage with
  | preparing =>
    have htemp := hheld (Or.inl rfl)
    rcases hi with rfl | ⟨bytes, hv, rfl⟩
    · obtain ⟨rfl, rfl⟩ : r = .ok () ∧ t' = t := ha
      exact ⟨Or.inl ⟨AgreeOff.refl _ _, by simp⟩, fun _ => htemp, by simp [RacePhase.advance]⟩
    · obtain ⟨rfl, rfl⟩ : r = (t.writeFile o.writer.metadataTempPath bytes now).1 ∧
          t' = (t.writeFile o.writer.metadataTempPath bytes now).2 := ha
      obtain ⟨hagree, hok⟩ := writeFile_spec t o.writer.metadataTempPath bytes now
      have hkeep : (t.writeFile o.writer.metadataTempPath bytes now).2.files o.writer.tempPath =
          some o.written := by
        rw [hagree _ (by simpa using ne_tt), htemp]
      refine ⟨Or.inl ⟨hagree.mono (by simp [RaceCall.temps]), by simp⟩, ?_⟩
      cases hr : (t.writeFile o.writer.metadataTempPath bytes now).1 with
      | error e => exact ⟨fun _ => hkeep, by simp [RacePhase.advance]⟩
      | ok _ => exact ⟨fun _ => hkeep, fun _ => ⟨bytes, hv, hok hr⟩⟩
  | encoded =>
    obtain rfl : c = _ := hi
    obtain ⟨rfl, rfl⟩ : r = (t.rename o.writer.tempPath o.writer.objectPath).1 ∧
        t' = (t.rename o.writer.tempPath o.writer.objectPath).2 := ha
    obtain ⟨encoded, henc, hmeta⟩ := hside (Or.inl rfl)
    cases hr : (t.rename o.writer.tempPath o.writer.objectPath).1 with
    | error e =>
      rw [rename_error hr]
      exact ⟨Or.inl ⟨AgreeOff.refl _ _, by simp⟩, by simp [RacePhase.advance, Holds]⟩
    | ok _ =>
      obtain ⟨hagree, hdata, _⟩ := rename_spec ne_to hr
      rw [hheld (Or.inr rfl)] at hdata
      have hkeep := hagree o.writer.metadataTempPath (by simp [Ne.symm ne_tt, ne_mo])
      rw [hw.objectPath_eq] at hagree hdata hkeep ⊢
      rw [advance_rename_data]
      refine ⟨Or.inr (Or.inl ⟨hagree.mono (by simp [RaceCall.temps]), rfl, hdata⟩), ?_⟩
      exact ⟨by simp, fun _ => ⟨encoded, henc, hkeep.trans hmeta⟩⟩
  | published =>
    obtain rfl : c = _ := hi
    obtain ⟨rfl, rfl⟩ : r = (t.rename o.writer.metadataTempPath o.writer.metadataPath).1 ∧
        t' = (t.rename o.writer.metadataTempPath o.writer.metadataPath).2 := ha
    obtain ⟨encoded, henc, hmeta⟩ := hside (Or.inr rfl)
    cases hr : (t.rename o.writer.metadataTempPath o.writer.metadataPath).1 with
    | error e =>
      rw [rename_error hr]
      exact ⟨Or.inl ⟨AgreeOff.refl _ _, fun _ => rfl⟩, by simp [RacePhase.advance, Holds]⟩
    | ok _ =>
      obtain ⟨hagree, hsidecar, _⟩ := rename_spec ne_mm hr
      rw [hmeta] at hsidecar
      rw [hw.metadataPath_eq] at hagree hsidecar ⊢
      rw [advance_rename_sidecar]
      refine ⟨Or.inr (Or.inr ⟨hagree.mono (by simp [RaceCall.temps]), rfl, ?_⟩), by simp [Holds]⟩
      exact ⟨encoded, henc, hsidecar⟩
  | failed =>
    rw [hw.objectPath_eq] at ne_to ne_mo
    rw [hw.metadataPath_eq] at ne_tm ne_mm
    rcases hi with rfl | rfl
    · obtain ⟨rfl, rfl⟩ : r = (t.removeFile o.writer.tempPath).1 ∧
          t' = (t.removeFile o.writer.tempPath).2 := ha
      have hagree := agreeOff_of_update (removeFile_files t o.writer.tempPath).1
      rw [advance_removeFile_temp _ ne_to ne_tm]
      exact ⟨Or.inl ⟨hagree.mono (by simp [RaceCall.temps]), by simp⟩, by simp [Holds]⟩
    · obtain ⟨rfl, rfl⟩ : r = (t.removeFile o.writer.metadataTempPath).1 ∧
          t' = (t.removeFile o.writer.metadataTempPath).2 := ha
      have hagree := agreeOff_of_update (removeFile_files t o.writer.metadataTempPath).1
      rw [advance_removeFile_temp _ ne_mo ne_mm]
      exact ⟨Or.inl ⟨hagree.mono (by simp [RaceCall.temps]), by simp⟩, by simp [Holds]⟩
  | done => exact absurd hi id

theorem advance_call (q : RacePhase D) (c : FsCall) (r : FsCall.Reply c) :
    (q.advance bucket key c r).call = q.call := by
  unfold RacePhase.advance
  split <;> (try split_ifs) <;> rfl

/-- Data and sidecar are no temporary files. -/
theorem Joins.not_mem_temps {call : RaceCall D} (h : Joins bucket key t₀ call) :
    dataPath bucket key ∉ call.temps ∧ sidecarPath bucket key ∉ call.temps := by
  cases call with
  | delete => simp [RaceCall.temps]
  | complete o now =>
    obtain ⟨rfl, rfl, hw⟩ := h
    obtain ⟨ne_to, ne_tm, _, ne_mo, ne_mm, _⟩ := hw.paths_ne
    rw [hw.objectPath_eq] at ne_to ne_mo
    rw [hw.metadataPath_eq] at ne_tm ne_mm
    simp [RaceCall.temps, Ne.symm ne_to, Ne.symm ne_tm, Ne.symm ne_mo, Ne.symm ne_mm]

/-- Calls with different identifiers share no temporary file. -/
theorem RaceCall.Apart.not_mem_temps {a b : RaceCall D} (h : RaceCall.Apart a b)
    (ha : Joins bucket key t₀ a) (hb : Joins bucket key t₀ b) : ∀ p ∈ a.temps, p ∉ b.temps := by
  cases a with
  | delete => simp [RaceCall.temps]
  | complete o now =>
    cases b with
    | delete => simp [RaceCall.temps]
    | complete o' now' =>
      obtain ⟨_, _, hw⟩ := ha
      obtain ⟨_, _, hw'⟩ := hb
      obtain ⟨h1, h2, h3, h4⟩ := h
      simp only [RaceCall.temps, hw.tempPath_eq, hw.metadataTempPath_eq, hw'.tempPath_eq,
        hw'.metadataTempPath_eq, List.mem_cons, List.not_mem_nil, or_false]
      rintro p (rfl | rfl) (he | he)
      · exact h1 (tempPath_inj he)
      · exact h2 (tempPath_inj he)
      · exact h3 (tempPath_inj he)
      · exact h4 (tempPath_inj he)

theorem Holds.of_agreeOff {q : RacePhase D} {paths : List Path} (ha : AgreeOff paths t t')
    (hp : ∀ p ∈ q.call.temps, p ∉ paths) (h : Holds codec t q) : Holds codec t' q := by
  obtain ⟨call, stage⟩ := q
  cases call with
  | delete => trivial
  | complete o now =>
    have h1 := ha _ (hp o.writer.tempPath (by simp [RaceCall.temps]))
    have h2 := ha _ (hp o.writer.metadataTempPath (by simp [RaceCall.temps]))
    simpa only [Holds, h1, h2] using h

theorem StepEffect.agreeOff {q q' : RacePhase D} {c : FsCall}
    (h : StepEffect codec bucket key q q' c t t') :
    AgreeOff (dataPath bucket key :: sidecarPath bucket key :: q.call.temps) t t' := by
  rcases h with ⟨h, _⟩ | ⟨h, _⟩ | ⟨h, _⟩
  · exact h.mono (by simp)
  · exact h.mono (by simp)
  · exact h.mono (by simp)

/-- A sidecar beside the data of the same call describes it. -/
theorem whole_of_sidecarOf {call : RaceCall D} (hj : Joins bucket key t₀ call)
    (hcodec : ∀ info bytes, codec.toVec info = .ok bytes → codec.fromSlice bytes = .ok info)
    (hd : t.files (dataPath bucket key) = call.content) (hs : SidecarOf codec bucket key t call) :
    Whole codec bucket key D t := by
  cases call with
  | delete => exact Or.inl ⟨hd, hs⟩
  | complete o now =>
    obtain ⟨_, _, hw⟩ := hj
    obtain ⟨encoded, henc, hfile⟩ := hs
    exact Or.inr ⟨o.written, encoded, o.writer.info now, hd, hfile, hcodec _ _ henc,
      (hw.info_eq now).1, (hw.info_eq now).2⟩

end Steps

/-! ### Interleavings -/

section Interleavings

variable {codec : Codec} {bucket key : Str} {t₀ t t' : FileTree}

/-- Some call failed, the object is whole, or a call whose data is in place has its sidecar
step ahead. -/
def Settling (codec : Codec) (bucket key : Str) (t : FileTree) (qs : List (RacePhase D)) : Prop :=
  (∃ q ∈ qs, q.stage = .failed) ∨ Whole codec bucket key D t ∨
    ∃ q ∈ qs, q.stage = .published ∧ t.files (dataPath bucket key) = q.call.content

theorem Settling.step {q q' : RacePhase D} {before after : List (RacePhase D)} {c : FsCall}
    (hcodec : ∀ info bytes, codec.toVec info = .ok bytes → codec.fromSlice bytes = .ok info)
    (hj : Joins bucket key t₀ q.call) (hcall : q'.call = q.call)
    (he : StepEffect codec bucket key q q' c t t')
    (hturn : SidecarStep bucket key c → t.files (dataPath bucket key) = q.call.content ∨
      ∃ o ∈ before ++ after, o.stage = .published ∧
        t.files (dataPath bucket key) = o.call.content)
    (h : Settling codec bucket key t (before ++ q :: after)) :
    Settling codec bucket key t' (before ++ q' :: after) := by
  obtain ⟨hnd, hns⟩ := hj.not_mem_temps
  have hother : ∀ o ∈ before ++ after, o ∈ before ++ q' :: after := by
    intro o ho
    simp only [List.mem_append, List.mem_cons] at ho ⊢
    tauto
  have hself : q' ∈ before ++ q' :: after := by simp
  rcases he with ⟨ha, hstage⟩ | ⟨ha, hpub, hdata⟩ | ⟨ha, hside, hof⟩
  · -- Neither file changed; a call that gave up its sidecar step has failed.
    have hd := ha _ hnd
    have hs := ha _ hns
    have hsplit : ∀ o ∈ before ++ q :: after, o = q ∨ o ∈ before ++ after := by
      intro o ho
      simp only [List.mem_append, List.mem_cons] at ho ⊢
      tauto
    rcases h with ⟨o, ho, hf⟩ | hw | ⟨o, ho, hp, hc⟩
    · rcases hsplit o ho with rfl | ho
      · exact Or.inl ⟨q', hself, hstage (Or.inr hf)⟩
      · exact Or.inl ⟨o, hother o ho, hf⟩
    · exact Or.inr (Or.inl (by simpa only [Whole, hd, hs] using hw))
    · rcases hsplit o ho with rfl | ho
      · exact Or.inl ⟨q', hself, hstage (Or.inl hp)⟩
      · exact Or.inr (Or.inr ⟨o, hother o ho, hp, hd.trans hc⟩)
  · exact Or.inr (Or.inr ⟨q', hself, hpub, by rw [hdata, hcall]⟩)
  · have hd : t'.files (dataPath bucket key) = t.files (dataPath bucket key) :=
      ha _ (by simp [hnd, Ne.symm sidecarPath_ne_dataPath])
    rcases hturn hside with hown | ⟨o, ho, hp, hc⟩
    · exact Or.inr (Or.inl (whole_of_sidecarOf hj hcodec (hd.trans hown) hof))
    · exact Or.inr (Or.inr ⟨o, hother o ho, hp, hd.trans hc⟩)

/-- The invariant of a race that started in `t₀` with `calls`. -/
structure RaceInv (codec : Codec) (bucket key : Str) (calls : List (RaceCall D)) (t : FileTree)
    (qs : List (RacePhase D)) : Prop where
  same : qs.map RacePhase.call = calls
  holds : ∀ q ∈ qs, Holds codec t q
  settling : Settling codec bucket key t qs

theorem Contenders.joins {calls : List (RaceCall D)} (h : Contenders bucket key t₀ calls)
    {call : RaceCall D} (hm : call ∈ calls) : Joins bucket key t₀ call := by
  cases call with
  | delete => trivial
  | complete o now => exact h.writing o now hm

theorem Contenders.follows {calls : List (RaceCall D)} (h : Contenders bucket key t₀ calls)
    {call : RaceCall D} (hm : call ∈ calls) :
    Follows (raceDiscipline codec bucket key D) Returned ⟨call, .preparing⟩
      (call.prog codec bucket key) := by
  cases call with
  | delete => exact delete_follows h.valid
  | complete o now =>
    obtain ⟨hb, hk, hw⟩ := h.writing o now hm
    exact complete_follows hb hk hw now

theorem RaceInv.step {calls : List (RaceCall D)} (hc : Contenders bucket key t₀ calls)
    (hcodec : ∀ info bytes, codec.toVec info = .ok bytes → codec.fromSlice bytes = .ok info)
    {q : RacePhase D} {before after : List (RacePhase D)} {c : FsCall} {r : FsCall.Reply c}
    (h : RaceInv codec bucket key calls t (before ++ q :: after))
    (hi : q.Issues codec bucket key c) (ha : Answers t c r t')
    (hturn : SidecarStep bucket key c → t.files (dataPath bucket key) = q.call.content ∨
      ∃ o ∈ before ++ after, o.stage = .published ∧
        t.files (dataPath bucket key) = o.call.content) :
    RaceInv codec bucket key calls t' (before ++ q.advance bucket key c r :: after) := by
  have hcalls : ∀ o ∈ before ++ q :: after, Joins bucket key t₀ o.call := fun o ho =>
    hc.joins (h.same ▸ List.mem_map_of_mem ho)
  have hjq : Joins bucket key t₀ q.call := hcalls q (by simp)
  have happart : ∀ o ∈ before ++ after, RaceCall.Apart o.call q.call := by
    have hp := hc.apart
    rw [← h.same, List.map_append, List.map_cons, List.pairwise_append, List.pairwise_cons] at hp
    intro o ho
    rcases List.mem_append.mp ho with ho | ho
    · exact hp.2.2 _ (List.mem_map_of_mem ho) _ (by simp)
    · exact (hp.2.1.1 _ (List.mem_map_of_mem ho)).symm
  have hstep : StepEffect codec bucket key q (q.advance bucket key c r) c t t' ∧
      Holds codec t' (q.advance bucket key c r) := by
    obtain ⟨call, stage⟩ := q
    cases call with
    | complete o now => exact complete_step hjq hi (h.holds _ (by simp)) ha
    | delete =>
      refine ⟨delete_step rfl hi ha, ?_⟩
      simp only [Holds, advance_call]
  refine ⟨?_, ?_, h.settling.step hcodec hjq (advance_call q c r) hstep.1 hturn⟩
  · rw [← h.same]
    simp [advance_call]
  · intro o ho
    have hcases : o = q.advance bucket key c r ∨ o ∈ before ++ after := by
      simp only [List.mem_append, List.mem_cons] at ho ⊢
      tauto
    rcases hcases with rfl | hm
    · exact hstep.2
    · have hmem : o ∈ before ++ q :: after := by
        simp only [List.mem_append, List.mem_cons] at hm ⊢
        tauto
      obtain ⟨hnd, hns⟩ := (hcalls o hmem).not_mem_temps
      refine (h.holds o hmem).of_agreeOff hstep.1.agreeOff fun p hp => ?_
      have hne := (happart o hm).not_mem_temps (hcalls o hmem) hjq p hp
      simp only [List.mem_cons, not_or]
      exact ⟨fun he => hnd (he ▸ hp), fun he => hns (he ▸ hp), hne⟩

/-- Once all calls have returned `Ok`, the object is whole, in every interleaving in which
each sidecar step is taken in turn. -/
theorem racing_objects_whole (D : Digest) (codec : Codec)
    (hcodec : ∀ info bytes, codec.toVec info = .ok bytes → codec.fromSlice bytes = .ok info)
    (bucket key : Str) (calls : List (RaceCall D)) (t₀ t : FileTree) (pool : List (RaceThread D))
    (hc : Contenders bucket key t₀ calls) (hw : Whole codec bucket key D t₀)
    (hr : Reach (raceDiscipline codec bucket key D).next Answers (InTurn bucket key)
      (t₀, calls.map (raceThread codec bucket key)) (t, pool))
    (hok : ∀ th ∈ pool, th.prog = .ret (.ok ())) : Whole codec bucket key D t := by
  have hstart : Disciplined (raceDiscipline codec bucket key D) Returned
      (calls.map (raceThread codec bucket key)) := by
    intro th hth
    obtain ⟨call, hm, rfl⟩ := List.mem_map.mp hth
    exact hc.follows hm
  have hphases : (calls.map (raceThread codec bucket key)).map Thread.phase =
      calls.map fun call => ⟨call, .preparing⟩ := by
    rw [List.map_map]
    rfl
  have hinit : RaceInv codec bucket key calls t₀
      ((calls.map (raceThread codec bucket key)).map Thread.phase) := by
    rw [hphases]
    refine ⟨by simp [List.map_map, Function.comp_def], fun q hq => ?_, Or.inr (Or.inl hw)⟩
    obtain ⟨call, hm, rfl⟩ := List.mem_map.mp hq
    cases call with
    | delete => trivial
    | complete o now => exact ⟨fun _ => (hc.writing o now hm).2.2.stored, by simp⟩
  obtain ⟨hdisc, hinv⟩ := Reach.invariant (RaceInv codec bucket key calls)
    (fun s s' before after q c k r h hi hg ha => h.step hc hcodec hi ha fun hside => by
      rcases hg hside with hown | ⟨o, ho, hp⟩
      · exact Or.inl hown
      · exact Or.inr ⟨o.phase, by rw [← List.map_append]; exact List.mem_map_of_mem ho, hp⟩)
    hr hstart hinit
  have hdone : ∀ q ∈ pool.map Thread.phase, q.stage = .done := by
    intro q hq
    obtain ⟨th, hm, rfl⟩ := List.mem_map.mp hq
    have hpost := hdisc th hm
    rw [hok th hm] at hpost
    exact hpost rfl
  rcases hinv.settling with ⟨q, hq, hf⟩ | hwhole | ⟨q, hq, hp, _⟩
  · rw [hdone q hq] at hf
    cases hf
  · exact hwhole
  · rw [hdone q hq] at hp
    cases hp

end Interleavings

/-- The writers open on one object in any run, with any number of deletions. -/
theorem CellsInv.contenders {codec : Codec} {s : ObjectState D} (h : CellsInv codec s)
    {bucket key : Str} (hv : ValidName bucket key)
    (hall : ∀ o ∈ s.writers, o.writer.bucket = bucket ∧ o.writer.key = key) (now : ℤ) (n : ℕ) :
    Contenders bucket key s.tree
      (s.writers.map (RaceCall.complete · now) ++ List.replicate n .delete) where
  valid := hv
  writing := by
    intro o now' hm
    have hm : o ∈ s.writers := by
      simp only [List.mem_append, List.mem_map, List.mem_replicate, reduceCtorEq, and_false,
        or_false, RaceCall.complete.injEq] at hm
      obtain ⟨o', ho', rfl, _⟩ := hm
      exact ho'
    exact ⟨(hall o hm).1, (hall o hm).2, h.writing o hm⟩
  apart := by
    refine List.pairwise_append.mpr ⟨?_, ?_, ?_⟩
    · have hp := List.pairwise_map.mp h.apart
      exact List.pairwise_map.mpr hp
    · exact List.pairwise_replicate.mpr (Or.inr trivial)
    · intro a _ b hb
      rw [(List.mem_replicate.mp hb).2]
      cases a <;> trivial

def sampleCreated : ObjectState Digest.sha256 :=
  (ObjectState.start Digest.sha256 Limits.widest).step sampleCodec 0
    (.createMultipartObject (sampleUuid 1) (sampleUuid 2) "b".toList "k".toList none [])

/-- A writer that is open on `b/k` with two bytes written. -/
def sampleOpen : ObjectState Digest.sha256 := sampleCreated.step sampleCodec 0 (.writeChunk 0 [1, 2])

/-- It is completed while a deletion runs. -/
def sampleCalls : List (RaceCall Digest.sha256) :=
  sampleOpen.writers.map (RaceCall.complete · 0) ++ List.replicate 1 .delete

/-- The state a schedule of the two calls leads to. -/
def sampleRace (schedule : List ℕ) : FileTree × List (RaceThread Digest.sha256) :=
  runSchedule (raceDiscipline sampleCodec "b".toList "k".toList Digest.sha256).next
    (FileTree.handle 0)
    (sampleOpen.tree, sampleCalls.map (raceThread sampleCodec "b".toList "k".toList)) schedule

theorem objectRun_sampleOpen :
    ObjectRun sampleCodec Limits.widest ObjectOp.Unreserved sampleOpen := by
  have hcreated : ObjectRun sampleCodec Limits.widest ObjectOp.Unreserved sampleCreated :=
    .step 0 _ .start ⟨by decide +kernel, by decide +kernel⟩ (not_reserved_of_bucket _ (by decide))
  have hfit : ∀ o ∈ sampleCreated.writers[0]?,
      o.written.length + 2 ≤ sampleCreated.tree.limits.maxFileSize := by
    decide +kernel
  exact hcreated.step 0 (.writeChunk 0 [1, 2]) hfit trivial

theorem contenders_sampleCalls :
    Contenders "b".toList "k".toList sampleOpen.tree sampleCalls :=
  objectRun_sampleOpen.inv.contenders (by decide) (by decide +kernel) 0 1

/-- The deletion begins first, and the completed upload stays. -/
theorem racing_objects_whole_put_wins :
    ∃ t pool, Reach (raceDiscipline sampleCodec "b".toList "k".toList Digest.sha256).next Answers
      (InTurn "b".toList "k".toList)
      (sampleOpen.tree, sampleCalls.map (raceThread sampleCodec "b".toList "k".toList)) (t, pool) ∧
      (∀ th ∈ pool, th.prog = .ret (.ok ())) ∧
      t.files (dataPath "b".toList "k".toList) = some [1, 2] ∧
      Whole sampleCodec "b".toList "k".toList Digest.sha256 t := by
  have hreach : Reach (raceDiscipline sampleCodec "b".toList "k".toList Digest.sha256).next Answers
      (InTurn "b".toList "k".toList)
      (sampleOpen.tree, sampleCalls.map (raceThread sampleCodec "b".toList "k".toList))
      (sampleRace [1, 0, 0, 0, 1, 0]) :=
    runSchedule_reach (fun _ _ => ⟨0, rfl, rfl⟩) (by decide +kernel)
  obtain ⟨hres, hdata⟩ :
      (∀ th ∈ (sampleRace [1, 0, 0, 0, 1, 0]).2, th.prog.result? = some (.ok ())) ∧
      (sampleRace [1, 0, 0, 0, 1, 0]).1.files (dataPath "b".toList "k".toList) = some [1, 2] := by
    decide +kernel
  have hok : ∀ th ∈ (sampleRace [1, 0, 0, 0, 1, 0]).2, th.prog = .ret (.ok ()) :=
    fun th hth => eq_ret_of_result? (hres th hth)
  generalize sampleRace [1, 0, 0, 0, 1, 0] = x at hreach hok hdata
  obtain ⟨t, pool⟩ := x
  refine ⟨t, pool, hreach, hok, hdata, ?_⟩
  exact racing_objects_whole _ _ sampleCodec_roundtrip _ _ _ _ _ _ contenders_sampleCalls
    (Or.inl ⟨by decide +kernel, by decide +kernel⟩) hreach hok

/-- The deletion finishes between the two renames: all calls return `Ok`, and a sidecar is left
without data. -/
theorem racing_objects_not_whole :
    ∃ t pool, Reach (raceDiscipline sampleCodec "b".toList "k".toList Digest.sha256).next Answers
      (fun _ _ _ => True)
      (sampleOpen.tree, sampleCalls.map (raceThread sampleCodec "b".toList "k".toList)) (t, pool) ∧
      Contenders "b".toList "k".toList sampleOpen.tree sampleCalls ∧
      Whole sampleCodec "b".toList "k".toList Digest.sha256 sampleOpen.tree ∧
      (∀ th ∈ pool, th.prog = .ret (.ok ())) ∧
      ¬ Whole sampleCodec "b".toList "k".toList Digest.sha256 t := by
  have hreach : Reach (raceDiscipline sampleCodec "b".toList "k".toList Digest.sha256).next Answers
      (fun _ _ _ => True)
      (sampleOpen.tree, sampleCalls.map (raceThread sampleCodec "b".toList "k".toList))
      (sampleRace [0, 0, 0, 1, 1, 0]) :=
    runSchedule_reach (fun _ _ => ⟨0, rfl, rfl⟩) (by decide +kernel)
  -- One evaluation of the schedule for all three.
  obtain ⟨hres, hdata, hside⟩ :
      (∀ th ∈ (sampleRace [0, 0, 0, 1, 1, 0]).2, th.prog.result? = some (.ok ())) ∧
      (sampleRace [0, 0, 0, 1, 1, 0]).1.files (dataPath "b".toList "k".toList) = none ∧
      (sampleRace [0, 0, 0, 1, 1, 0]).1.files (sidecarPath "b".toList "k".toList) ≠ none := by
    decide +kernel
  generalize sampleRace [0, 0, 0, 1, 1, 0] = x at hreach hres hdata hside
  obtain ⟨t, pool⟩ := x
  refine ⟨t, pool, hreach, contenders_sampleCalls,
    Or.inl ⟨by decide +kernel, by decide +kernel⟩,
    fun th hth => eq_ret_of_result? (hres th hth), ?_⟩
  rintro (⟨_, hs⟩ | ⟨b, _, _, hd, _⟩)
  · exact hside hs
  · rw [hdata] at hd
    cases hd

end GraphqlOrmStorage.Local
