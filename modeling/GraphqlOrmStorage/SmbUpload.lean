import GraphqlOrmStorage.SmbFaults
import GraphqlOrmStorage.SmbHolds

/-!
# Uploads through requests that fail

`put_blob` fills a temporary file and renames it over the key; whatever goes wrong, it
opens the temporary name again and deletes what it finds there. After a rename whose
reply is lost this could be the blob itself, were it not that the rename takes the
temporary name away. The stages of an upload record what the replies vouch for.
-/
namespace GraphqlOrmStorage.Smb

open Text Program Program.Prog

inductive UploadStage where
  | idle
  | deleting (h : Handle)
  | writing (h : Handle) (w : Bytes)
  | flushed (h : Handle) (w : Bytes)
  /-- The target is closed and complete. -/
  | filled (w : Bytes)
  | opened (h : Handle) (w : Bytes)
  | moved (w : Bytes)
  /-- The rename failed, with the effect or without it. -/
  | unsure (w : Bytes)
  | withdrawing (h : Handle) (w : Bytes)
  | lost

namespace UploadStage

/-- The stage that a reply leads to; no server that follows the rules loses an upload. -/
def after (stage : UploadStage) : (c : SmbCall) → SmbCall.Reply c → UploadStage
  | .createFile _ _, .ok (.file h) => match stage with
    | idle => writing h []
    | _ => lost
  | .writeBlock _ bytes _, .ok count => match stage with
    | writing h w =>
      if count = 0 then idle
      else if count ≤ bytes.length ∧ w.length + count ≤ maxOffset then
        writing h (w ++ bytes.take count)
      else lost
    | _ => lost
  | .writeBlock _ _ _, .error _ | .flush _, .error _ => idle
  | .flush _, .ok () => match stage with
    | writing h w => flushed h w
    | _ => lost
  | .close _, r => match stage, r with
    | flushed _ w, .ok () => filled w
    | withdrawing _ w, _ | unsure w, _ => unsure w
    | moved w, _ => moved w
    | _, _ => idle
  | .openExisting _ access, .ok (.file h) => match stage, access with
    | filled w, .readDelete => opened h w
    | filled _, _ | idle, _ => deleting h
    | unsure w, _ => withdrawing h w
    | _, _ => lost
  | .setRename _ _ _, r => match stage, r with
    | opened _ w, .ok () => moved w
    | opened _ w, .error _ => unsure w
    | _, _ => lost
  | _, _ => stage

/-- A lost upload stays lost. -/
def advance (stage : UploadStage) (c : SmbCall) (r : SmbCall.Reply c) : UploadStage :=
  match stage with
  | lost => lost
  | stage => stage.after c r

theorem advance_of_ne_lost {stage : UploadStage} (h : stage ≠ lost) (c : SmbCall)
    (r : SmbCall.Reply c) : stage.advance c r = stage.after c r := by
  cases stage with
  | lost => exact absurd rfl h
  | _ => rfl

/-- The stages in which a handle is closed. -/
def closes : UploadStage → Prop
  | filled _ | opened _ _ | lost => False
  | _ => True

/-- The stages in which the target is opened by name. -/
def opens : UploadStage → Prop
  | idle | filled _ | moved _ | unsure _ => True
  | _ => False

/-- The requests of an upload to a target that is renamed to the key. -/
def Issues (path key : Str) (content : Except StorageError Bytes) (stage : UploadStage) :
    SmbCall → Prop
  | .acquirePermit | .releasePermit | .reconnect | .createDirectory _ | .closeResource _ => True
  | .createFile p _ => p = path ∧ stage = idle
  | .writeBlock h _ offset => ∃ w, stage = writing h w ∧ offset = w.length
  | .flush h => ∃ w, stage = writing h w ∧ content = .ok w
  | .close _ => stage.closes
  | .openExisting p _ => p = path ∧ stage.opens
  | .setDelete h => stage = deleting h ∨ ∃ w, stage = withdrawing h w
  | .setRename h p replace => p = key ∧ replace = true ∧ ∃ w, stage = opened h w
  | .dropFile _ | .queryInfo _ | .readBlock _ _ _ => False

end UploadStage

def uploadDiscipline (path key : Str) (content : Except StorageError Bytes) :
    Discipline Requests UploadStage where
  allowed stage c := stage = .lost ∨ stage.Issues path key content c
  next := UploadStage.advance

/-! ### What the server has in each stage -/

/-- The path names a file with these bytes, and the handle is open on no other. -/
def OnTarget (s : Server) (path : Str) (h : Handle) (w : Bytes) : Prop :=
  ∃ f, Stored s path f w ∧ OpenOnly s h f

def Uploading (path : Str) (content : Except StorageError Bytes) (s : Server) :
    UploadStage → Prop
  | .idle | .deleting _ => True
  | .writing h w => OnTarget s path h w
  | .flushed h w | .opened h w => content = .ok w ∧ OnTarget s path h w
  | .filled w => content = .ok w ∧ ∃ f, Stored s path f w
  | .moved w => content = .ok w ∧ s.names path = none
  | .unsure w | .withdrawing _ w => content = .ok w
  | .lost => False

/-- What the key holds in each stage. After a rename of unknown effect it may hold the new
content, but then the target's name is gone. -/
def Protects (path key : Str) (old : Option Bytes) (s : Server) : UploadStage → Prop
  | .moved w => KeyHolds s key (some w)
  | .unsure w => KeyHolds s key old ∨ (KeyHolds s key (some w) ∧ s.names path = none)
  | .deleting h | .withdrawing h _ => KeyHolds s key old ∧ OpenOff s h key
  | _ => KeyHolds s key old

section Steps

variable {path key : Str} {content : Except StorageError Bytes} {old : Option Bytes}
  {s s' : Server} {stage : UploadStage} {h f : Handle} {w : Bytes} {o : Choice}

theorem OnTarget.close (ho : OnTarget s path h w) (k : Handle) : OnTarget (s.close k) path h w := by
  obtain ⟨f, hf, hopen⟩ := ho
  exact ⟨f, hf.close k, hopen.close k⟩

theorem Uploading.close (hu : Uploading path content s stage) (k : Handle) :
    Uploading path content (s.close k) stage := by
  cases stage with
  | writing h w => exact OnTarget.close hu k
  | flushed h w => exact ⟨hu.1, hu.2.close k⟩
  | opened h w => exact ⟨hu.1, hu.2.close k⟩
  | filled w =>
    obtain ⟨hw, f, hf⟩ := hu
    exact ⟨hw, f, hf.close k⟩
  | moved w => exact ⟨hu.1, names_none_close hu.2 k⟩
  | _ => exact hu

theorem Protects.close (hp : Protects path key old s stage) (k : Handle) :
    Protects path key old (s.close k) stage := by
  cases stage with
  | deleting h => exact ⟨hp.1.close k, hp.2.close k⟩
  | withdrawing h w => exact ⟨hp.1.close k, hp.2.close k⟩
  | moved w =>
    have hnew : KeyHolds s key (some w) := hp
    exact hnew.close k
  | unsure w =>
    exact hp.imp (fun hold => hold.close k) fun hnew =>
      ⟨hnew.1.close k, names_none_close hnew.2 k⟩
  | _ => exact KeyHolds.close hp k

/-- A handle on the target is not one on the key. -/
theorem OnTarget.off (hs : Orderly s) (hne : path ≠ key) (ho : OnTarget s path h w) :
    OpenOff s h key := by
  obtain ⟨f, hf, hlt, hopen⟩ := ho
  refine ⟨hlt, fun f' hf' hn => hne (hs.sole_name path key f hf.named ?_)⟩
  rwa [hopen f' hf'] at hn

/-- What a request does to the server keeps it orderly. -/
theorem Orderly.answer (hs : Orderly s) (o : Choice) (c : SmbCall) :
    Orderly (s.answer o c).2 := by
  cases c with
  | createFile path exclusive =>
    rcases answer_createFile s o path exclusive with ⟨e, ha⟩ | ⟨_, ha⟩ | ⟨f, hn, _, ha⟩
    · exact ha ▸ hs
    · exact ha ▸ hs.create path
    · exact ha ▸ (hs.setContent f []).openOn (hs.named_lt path f hn)
  | openExisting path access =>
    rcases answer_openExisting s o path access with ⟨e, ha⟩ | ⟨f, hn, _, ha⟩
    · exact ha ▸ hs
    · exact ha ▸ hs.openOn (hs.named_lt path f hn)
  | close h => exact hs.close h
  | dropFile h => exact hs.close h
  | queryInfo h => rwa [Server.answer_queryInfo_snd]
  | setRename h path replace =>
    rcases answer_setRename s o h path replace with ⟨e, ha⟩ | ⟨f, hf, ha⟩
    · exact ha ▸ hs
    · exact ha ▸ hs.rename (hs.open_lt h f hf) path
  | setDelete h =>
    simp only [Server.answer]
    split
    · exact hs
    · exact hs.mark _
  | writeBlock h bytes offset =>
    simp only [Server.answer]
    split
    · exact hs
    · split_ifs
      · exact hs
      · split <;> exact hs.setContent _ _
  | flush h => rwa [Server.answer_flush_snd]
  | readBlock h length offset => rwa [Server.answer_readBlock_snd]
  | _ => exact hs

/-- The requests that do not touch what a path holds. -/
def Spares (key : Str) (s : Server) : SmbCall → Prop
  | .createFile path _ => path ≠ key
  | .writeBlock h _ _ | .setDelete h => OpenOff s h key
  | .setRename _ _ _ => False
  | _ => True

theorem KeyHolds.answer (hs : Orderly s) (hold : KeyHolds s key old) {c : SmbCall}
    (hc : Spares key s c) : KeyHolds (s.answer o c).2 key old := by
  -- It is enough that a name that is not given stays so, and that a stored file does.
  have hparts : ∀ t : Server, (s.names key = none → t.names key = none) →
      (∀ f b, Stored s key f b → Stored t key f b) → KeyHolds t key old := by
    intro t hnone hstored
    cases old with
    | none => exact hnone hold
    | some b =>
      obtain ⟨f, hf⟩ := hold
      exact ⟨f, hstored f b hf⟩
  cases c with
  | createFile path exclusive =>
    rcases answer_createFile s o path exclusive with ⟨e, ha⟩ | ⟨_, ha⟩ | ⟨g, hn, _, ha⟩
    · exact ha ▸ hold
    · rw [ha]
      refine hparts _ (fun hkey => ?_) fun f b hf => hf.create hs (Ne.symm hc)
      rw [Server.names_create, if_neg (Ne.symm hc), hkey]
    · rw [ha]
      refine hparts _ (fun hkey => hkey) fun f b hf => (hf.setContent ?_ []).openOn g
      rintro rfl
      exact hc (hs.sole_name path key f hn hf.named)
  | openExisting path access =>
    rcases answer_openExisting s o path access with ⟨e, ha⟩ | ⟨g, _, _, ha⟩
    · exact ha ▸ hold
    · rw [ha]
      exact hparts _ (fun hkey => hkey) fun f b hf => hf.openOn g
  | close h => exact hold.close h
  | dropFile h => exact hold.close h
  | queryInfo h => rwa [Server.answer_queryInfo_snd]
  | setRename h path replace => exact hc.elim
  | setDelete h =>
    simp only [Server.answer]
    cases hh : s.file h with
    | none => exact hold
    | some g =>
      refine hparts _ (fun hkey => hkey) fun f b hf => hf.mark ?_
      rintro rfl
      exact hc.2 f hh hf.named
  | writeBlock h bytes offset =>
    simp only [Server.answer]
    cases hh : s.file h with
    | none => exact hold
    | some g =>
      have hset : ∀ b', KeyHolds (s.setContent g b') key old := by
        intro b'
        refine hparts _ (fun hkey => hkey) fun f b hf => hf.setContent ?_ b'
        rintro rfl
        exact hc.2 f hh hf.named
      simp only
      split_ifs
      · exact hold
      · split <;> exact hset _
  | flush h => rwa [Server.answer_flush_snd]
  | readBlock h length offset => rwa [Server.answer_readBlock_snd]
  | _ => exact hold

/-- A request to a faulty server preserves what it preserves when it is served, when it fails
without its effect and when it fails with it, and what closing a handle preserves. -/
theorem Faulty.preserves {P : Server → Prop} {c : SmbCall} {r : SmbCall.Reply c}
    (h : Faulty s c r s') (hclose : ∀ t k, P t → P (t.close k))
    (hserved : ∀ o, r = (s.answer o c).1 → P (s.answer o c).2)
    (hfailed : Fails c r → P s ∧ ∀ o, P (s.answer o c).2) : P s' := by
  obtain ⟨t, hs, hlose, hanswer⟩ := h
  subst hlose
  refine lose_invariant hclose hs ?_
  rcases hanswer with ⟨o, hr, ht⟩ | ⟨hfails, ht | ⟨o, ht⟩⟩
  · exact ht ▸ hserved o hr
  · exact ht ▸ (hfailed hfails).1
  · exact ht ▸ (hfailed hfails).2 o

/-- A block that is served goes to the end of the file behind the handle. -/
theorem OnTarget.answer_writeBlock (ho : OnTarget s path h w) (o : Choice) (bytes : Bytes) :
    Uploading path content (s.answer o (.writeBlock h bytes w.length)).2
      ((UploadStage.writing h w).after (.writeBlock h bytes w.length)
        (s.answer o (.writeBlock h bytes w.length)).1) := by
  obtain ⟨f, hf, hlt, hopen⟩ := ho
  simp only [Server.answer]
  cases hh : s.file h with
  | none => trivial
  | some g =>
    obtain rfl := hopen g hh
    simp only
    split_ifs with hlong
    · trivial
    · cases o.fault with
      | some e => trivial
      | none =>
        have htake : bytes.take (bytes.take o.count).length = bytes.take o.count := by
          rw [List.length_take, List.take_eq_take_iff]
          omega
        have hle : (bytes.take o.count).length ≤ bytes.length := List.length_take_le' _ _
        simp only [UploadStage.after, htake]
        split_ifs with hzero hfits
        · trivial
        · refine ⟨g, ?_, hlt, hopen⟩
          have hset := hf.setContent_self (writeAt (s.content g) w.length (bytes.take o.count))
          rwa [hf.content, writeAt_end] at hset ⊢
        · exact (hfits ⟨hle, not_lt.mp hlong⟩).elim

/-- A request that is served leads to what the next stage says of the target. -/
theorem Uploading.served {c : SmbCall} (hne : path ≠ key) (hu : Uploading path content s stage)
    (hi : stage.Issues path key content c) (o : Choice) :
    Uploading path content (s.answer o c).2 (stage.after c (s.answer o c).1) := by
  cases c with
  | createFile p exclusive =>
    obtain ⟨hp, hstage⟩ := hi
    subst hp hstage
    rcases answer_createFile s o p exclusive with ⟨e, ha⟩ | ⟨_, ha⟩ | ⟨f, hn, hkept, ha⟩
    · rw [ha]
      trivial
    · rw [ha]
      exact ⟨_, stored_create s p⟩
    · rw [ha]
      have hf : Stored s p f (s.content f) := ⟨hn, rfl, hkept⟩
      exact ⟨f, (hf.setContent_self []).openOn f, openOnly_openOn _ f⟩
  | writeBlock h bytes offset =>
    obtain ⟨w, hstage, hoffset⟩ := hi
    subst hstage hoffset
    exact OnTarget.answer_writeBlock hu o bytes
  | flush h =>
    obtain ⟨w, hstage, hw⟩ := hi
    subst hstage
    simp only [Server.answer]
    split
    · trivial
    · trivial
    · exact ⟨hw, hu⟩
  | close h =>
    have hclosed := Uploading.close hu h
    cases stage with
    | flushed k w =>
      obtain ⟨hw, f, hf, _⟩ := hclosed
      exact ⟨hw, f, hf⟩
    | moved w => exact hclosed
    | unsure w => exact hclosed
    | withdrawing k w => exact hclosed
    | filled w => exact hi.elim
    | opened k w => exact hi.elim
    | lost => exact hi.elim
    | _ => trivial
  | openExisting p access =>
    obtain ⟨hp, hopens⟩ := hi
    subst hp
    rcases answer_openExisting s o p access with ⟨e, ha⟩ | ⟨f, hn, _, ha⟩
    · rw [ha]
      exact hu
    · rw [ha]
      cases stage with
      | idle => trivial
      | unsure w => exact hu
      | moved w =>
        rw [hu.2] at hn
        cases hn
      | filled w =>
        obtain ⟨hw, g, hg⟩ := hu
        have hfg : g = f := Option.some.inj (hg.named.symm.trans hn)
        cases access with
        | readDelete => exact ⟨hw, g, hg.openOn f, hfg ▸ openOnly_openOn s f⟩
        | read => trivial
        | delete => trivial
      | _ => exact hopens.elim
  | setDelete h =>
    rcases hi with hstage | ⟨w, hstage⟩
    · subst hstage
      trivial
    · subst hstage
      exact hu
  | setRename h p replace =>
    obtain ⟨hp, hreplace, w, hstage⟩ := hi
    subst hp hreplace hstage
    obtain ⟨hw, f, hf, _, hopen⟩ := hu
    rcases answer_setRename s o h p true with ⟨e, ha⟩ | ⟨g, hh, ha⟩
    · rw [ha]
      exact hw
    · obtain rfl := hopen g hh
      rw [ha]
      exact ⟨hw, (hf.rename hne).2⟩
  | dropFile h => exact hi.elim
  | queryInfo h => exact hi.elim
  | readBlock h length offset => exact hi.elim
  | _ => exact hu

/-- A request that fails, with or without its effect, leaves what the next stage needs. -/
theorem Uploading.failed {c : SmbCall} {r : SmbCall.Reply c} {t : Server}
    (hu : Uploading path content s stage) (hi : stage.Issues path key content c) (hf : Fails c r)
    (ht : t = s ∨ ∃ o, t = (s.answer o c).2) : Uploading path content t (stage.after c r) := by
  have hsame : (∀ o, (s.answer o c).2 = s) → t = s := by
    intro hall
    rcases ht with ht | ⟨o, ht⟩
    · exact ht
    · rw [ht, hall o]
  cases c with
  | createFile p exclusive =>
    obtain ⟨e, he⟩ := hf
    obtain ⟨_, hstage⟩ := hi
    subst he hstage
    trivial
  | writeBlock h bytes offset =>
    obtain ⟨e, he⟩ := hf
    subst he
    trivial
  | flush h =>
    obtain ⟨e, he⟩ := hf
    subst he
    trivial
  | close h =>
    obtain ⟨e, he⟩ := hf
    subst he
    cases stage with
    | moved w =>
      rcases ht with ht | ⟨o, ht⟩
      · exact ht ▸ hu
      · exact ht ▸ Uploading.close hu h
    | unsure w => exact hu
    | withdrawing k w => exact hu
    | filled w => exact hi.elim
    | opened k w => exact hi.elim
    | lost => exact hi.elim
    | _ => trivial
  | openExisting p access =>
    obtain ⟨e, he⟩ := hf
    obtain ⟨_, hopens⟩ := hi
    subst he
    -- All that can have happened is one more handle.
    have hopened : t = s ∨ ∃ f, t = s.openOn f := by
      rcases ht with ht | ⟨o, ht⟩
      · exact Or.inl ht
      · rcases answer_openExisting s o p access with ⟨_, ha⟩ | ⟨f, _, _, ha⟩
        · exact Or.inl (by rw [ht, ha])
        · exact Or.inr ⟨f, by rw [ht, ha]⟩
    rcases hopened with ht | ⟨f, ht⟩
    · exact ht ▸ hu
    · subst ht
      cases stage with
      | filled w =>
        obtain ⟨hw, g, hg⟩ := hu
        exact ⟨hw, g, hg.openOn f⟩
      | idle => trivial
      | moved w => exact hu
      | unsure w => exact hu
      | _ => exact hopens.elim
  | setDelete h =>
    rcases hi with hstage | ⟨w, hstage⟩
    · subst hstage
      trivial
    · subst hstage
      exact hu
  | setRename h p replace =>
    obtain ⟨e, he⟩ := hf
    obtain ⟨_, _, w, hstage⟩ := hi
    subst he hstage
    exact hu.1
  | dropFile h => exact hi.elim
  | queryInfo h => exact hi.elim
  | readBlock h length offset => exact hi.elim
  | _ => exact hsame (fun _ => rfl) ▸ hu

/-- The target is as the stage says after every request, whether it fails or not. -/
theorem Uploading.step {c : SmbCall} {r : SmbCall.Reply c} (hne : path ≠ key) (hs : Orderly s)
    (hu : Uploading path content s stage) (hi : stage.Issues path key content c)
    (h : Faulty s c r s') : Orderly s' ∧ Uploading path content s' (stage.after c r) := by
  refine Faulty.preserves (P := fun t => Orderly t ∧ Uploading path content t (stage.after c r)) h
    (fun t k ht => ⟨ht.1.close k, ht.2.close k⟩) (fun o hr => ?_) fun hf => ⟨?_, fun o => ?_⟩
  · subst hr
    exact ⟨hs.answer o c, hu.served hne hi o⟩
  · exact ⟨hs, hu.failed hi hf (Or.inl rfl)⟩
  · exact ⟨hs.answer o c, hu.failed hi hf (Or.inr ⟨o, rfl⟩)⟩

/-- The requests of an upload spare the key, other than the rename. -/
theorem Uploading.spares {c : SmbCall} (hne : path ≠ key) (hs : Orderly s)
    (hu : Uploading path content s stage) (hp : Protects path key old s stage)
    (hi : stage.Issues path key content c) (hc : ∀ h p replace, c ≠ .setRename h p replace) :
    Spares key s c := by
  cases c with
  | createFile p exclusive => exact hi.1 ▸ hne
  | writeBlock h bytes offset =>
    obtain ⟨w, hstage, _⟩ := hi
    subst hstage
    exact OnTarget.off hs hne hu
  | setDelete h =>
    rcases hi with hstage | ⟨w, hstage⟩
    · subst hstage
      exact hp.2
    · subst hstage
      exact hp.2
  | setRename h p replace => exact (hc h p replace rfl).elim
  | _ => trivial

/-- Opening the target by name: after a rename that took effect there is nothing to open. -/
theorem Protects.opened {access : Access} (hne : path ≠ key) (hs : Orderly s)
    (hu : Uploading path content s stage) (hp : Protects path key old s stage)
    (hopens : stage.opens) (hf : s.names path = some f) :
    Protects path key old (s.openOn f) stage ∧
      Protects path key old (s.openOn f)
        (stage.after (.openExisting path access) (.ok (.file s.handles.length))) := by
  have hkeep : ∀ c, KeyHolds s key c → KeyHolds (s.openOn f) key c := by
    intro c hold
    cases c with
    | none => exact hold
    | some b =>
      obtain ⟨g, hg⟩ := hold
      exact ⟨g, hg.openOn f⟩
  have hoff : OpenOff (s.openOn f) s.handles.length key := by
    obtain ⟨hlt, hopen⟩ := openOnly_openOn s f
    refine ⟨hlt, fun g hg hn => hne (hs.sole_name path key f hf ?_)⟩
    rwa [hopen g hg] at hn
  cases stage with
  | idle => exact ⟨hkeep old hp, hkeep old hp, hoff⟩
  | filled w =>
    have hold := hkeep old hp
    cases access with
    | readDelete => exact ⟨hold, hold⟩
    | read => exact ⟨hold, hold, hoff⟩
    | delete => exact ⟨hold, hold, hoff⟩
  | moved w =>
    rw [hu.2] at hf
    cases hf
  | unsure w =>
    rcases hp with hold | ⟨_, hnone⟩
    · exact ⟨Or.inl (hkeep old hold), hkeep old hold, hoff⟩
    · rw [hnone] at hf
      cases hf
  | _ => exact hopens.elim

/-- No request but the rename takes from the key what the stage says. -/
theorem Protects.effect {c : SmbCall} {t : Server} (hne : path ≠ key) (hs : Orderly s)
    (hu : Uploading path content s stage) (hp : Protects path key old s stage)
    (hi : stage.Issues path key content c) (hc : ∀ h p replace, c ≠ .setRename h p replace)
    (ht : t = s ∨ ∃ o, t = (s.answer o c).2) : Protects path key old t stage := by
  rcases ht with ht | ⟨o, ht⟩
  · exact ht ▸ hp
  subst ht
  have hspares := hu.spares hne hs hp hi hc
  cases c with
  | createFile p exclusive =>
    obtain ⟨_, hstage⟩ := hi
    subst hstage
    exact KeyHolds.answer hs hp hspares
  | writeBlock h bytes offset =>
    obtain ⟨w, hstage, _⟩ := hi
    subst hstage
    exact KeyHolds.answer hs hp hspares
  | flush h =>
    obtain ⟨w, hstage, _⟩ := hi
    subst hstage
    exact KeyHolds.answer hs hp hspares
  | close h => exact hp.close h
  | openExisting p access =>
    obtain ⟨hp', hopens⟩ := hi
    subst hp'
    rcases answer_openExisting s o p access with ⟨_, ha⟩ | ⟨f, hn, _, ha⟩
    · exact ha ▸ hp
    · obtain ⟨hkept, _⟩ : Protects p key old (s.openOn _) stage ∧
          Protects p key old (s.openOn _)
            (stage.after (.openExisting p .read) (.ok (.file s.handles.length))) :=
        hp.opened hne hs hu hopens hn
      exact ha ▸ hkept
  | setDelete h =>
    have hoff : OpenOff (s.answer o (.setDelete h)).2 h key := by
      have hoff : OpenOff s h key := hspares
      simp only [Server.answer]
      split
      · exact hoff
      · exact hoff
    rcases hi with hstage | ⟨w, hstage⟩
    · subst hstage
      exact ⟨KeyHolds.answer hs hp.1 hspares, hoff⟩
    · subst hstage
      exact ⟨KeyHolds.answer hs hp.1 hspares, hoff⟩
  | setRename h p replace => exact (hc h p replace rfl).elim
  | dropFile h => exact hi.elim
  | queryInfo h => exact hi.elim
  | readBlock h length offset => exact hi.elim
  | _ => exact hp

/-- Between two opens and renames the stages say the same of the key. -/
theorem Protects.next {c : SmbCall} (r : SmbCall.Reply c) (hp : Protects path key old s stage)
    (hi : stage.Issues path key content c) (hc : ∀ h p replace, c ≠ .setRename h p replace)
    (hopen : ∀ p access, c ≠ .openExisting p access) :
    Protects path key old s (stage.after c r) := by
  cases c with
  | createFile p exclusive =>
    obtain ⟨_, hstage⟩ := hi
    subst hstage
    rcases r with e | (h | h | h) <;> exact hp
  | writeBlock h bytes offset =>
    obtain ⟨w, hstage, _⟩ := hi
    subst hstage
    cases r with
    | error e => exact hp
    | ok count =>
      simp only [UploadStage.after]
      split_ifs <;> exact hp
  | flush h =>
    obtain ⟨w, hstage, _⟩ := hi
    subst hstage
    cases r <;> exact hp
  | close h =>
    cases stage with
    | withdrawing k w => exact Or.inl hp.1
    | deleting k => exact hp.1
    | moved w => exact hp
    | unsure w => exact hp
    | flushed k w => cases r <;> exact hp
    | filled w => exact hi.elim
    | opened k w => exact hi.elim
    | lost => exact hi.elim
    | _ => exact hp
  | openExisting p access => exact (hopen p access rfl).elim
  | setRename h p replace => exact (hc h p replace rfl).elim
  | dropFile h => exact hi.elim
  | queryInfo h => exact hi.elim
  | readBlock h length offset => exact hi.elim
  | _ => exact hp

/-- The key holds what the stage says after every request, whether it fails or not. -/
theorem Protects.step {c : SmbCall} {r : SmbCall.Reply c} (hne : path ≠ key) (hs : Orderly s)
    (hu : Uploading path content s stage) (hp : Protects path key old s stage)
    (hi : stage.Issues path key content c) (hfaulty : Faulty s c r s') :
    Protects path key old s' (stage.after c r) := by
  refine Faulty.preserves (P := fun t => Protects path key old t (stage.after c r)) hfaulty
    (fun t k ht => ht.close k) (fun o hr => ?_) fun hf => ?_
  · -- The request is served.
    subst hr
    cases c with
    | openExisting p access =>
      obtain ⟨hpath, hopens⟩ := hi
      subst hpath
      rcases answer_openExisting s o p access with ⟨e, ha⟩ | ⟨f, hn, _, ha⟩
      · rw [ha]
        exact hp
      · rw [ha]
        exact (hp.opened hne hs hu hopens hn).2
    | setRename h p replace =>
      obtain ⟨hkey, hreplace, w, hstage⟩ := hi
      subst hkey hreplace hstage
      obtain ⟨_, f, hf, _, hopen⟩ := hu
      rcases answer_setRename s o h p true with ⟨e, ha⟩ | ⟨g, hh, ha⟩
      · rw [ha]
        exact Or.inl hp
      · obtain rfl := hopen g hh
        rw [ha]
        exact ⟨g, (hf.rename hne).1⟩
    | _ =>
      exact Protects.next _ (hp.effect hne hs hu hi (by simp) (Or.inr ⟨o, rfl⟩)) hi (by simp)
        (by simp)
  · -- The request fails, with its effect or without it.
    have hfailed : ∀ t, (t = s ∨ ∃ o, t = (s.answer o c).2) →
        Protects path key old t (stage.after c r) := by
      intro t ht
      cases c with
      | openExisting p access =>
        obtain ⟨e, he⟩ := hf
        subst he
        exact hp.effect hne hs hu hi (by simp) ht
      | setRename h p replace =>
        obtain ⟨e, he⟩ := hf
        obtain ⟨hkey, hreplace, w, hstage⟩ := hi
        subst he hkey hreplace hstage
        obtain ⟨_, f, hf, _, hopen⟩ := hu
        rcases ht with ht | ⟨o, ht⟩
        · exact Or.inl (ht ▸ hp)
        · rcases answer_setRename s o h p true with ⟨e, ha⟩ | ⟨g, hh, ha⟩
          · rw [ht, ha]
            exact Or.inl hp
          · obtain rfl := hopen g hh
            rw [ht, ha]
            exact Or.inr ⟨⟨g, (hf.rename hne).1⟩, (hf.rename hne).2⟩
      | _ =>
        exact Protects.next _ (hp.effect hne hs hu hi (by simp) ht) hi (by simp) (by simp)
    exact ⟨hfailed s (Or.inl rfl), fun o => hfailed _ (Or.inr ⟨o, rfl⟩)⟩

end Steps

end GraphqlOrmStorage.Smb
