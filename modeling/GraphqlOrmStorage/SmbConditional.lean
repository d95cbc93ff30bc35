import GraphqlOrmStorage.SmbRaces

/-!
# Conditional writes and reads

Conditional writes and reads of a key that is initially absent. A conditional write
creates the key before it fills it. Whoever meets the key before it is complete may be
told of a blob that never comes to be; while nobody does, every answer is about a
complete blob.
-/
namespace GraphqlOrmStorage.Smb

open Text Program Program.Prog

section Conditional

variable {config : SmbStorageConfig} {key : Str} {s s' : Server} {q q' : KeyPhase}
  {phases others : List KeyPhase} {call : KeyCall} {o : Choice}

/-- The key names a file that one of the calls has published. -/
def Settled (config : SmbStorageConfig) (key : Str) (s : Server) (phases : List KeyPhase)
    (f : Handle) : Prop :=
  s.names (keyPath config key) = some f ∧ ∃ p ∈ phases, p.published? = some f

/-- What a read has opened is the published file, and what it has read is the file's beginning. -/
structure ReadsWhole (config : SmbStorageConfig) (key : Str) (s : Server) (phases : List KeyPhase)
    (q : KeyPhase) : Prop where
  opened : ∀ h, q.stage.file? = none → q.stage.handle? = some h →
    ∃ f, Settled config key s phases f ∧ s.file h = some f
  partly : ∀ h size got, q.stage = .reading h size got →
    ∀ f, s.file h = some f → size = (s.content f).length ∧ got <+: s.content f
  wholly : ∀ bytes, q.stage = .collected bytes →
    ∃ f, Settled config key s phases f ∧ s.content f = bytes

/-- Conditional writes and reads, none of which meets the key while it is being written. -/
structure CreateInv (config : SmbStorageConfig) (key : Str) (s : Server) (phases : List KeyPhase) :
    Prop where
  base : KeyInv config key s phases
  plain : ∀ q ∈ phases, q.call.isPut = false
  gets : ∀ q ∈ phases, q.call.isGet = true → q.own? = none ∧ q.published? = none
  source : ∀ f, s.names (keyPath config key) = some f →
    ∃ p ∈ phases, p.own? = some f ∨ p.published? = some f
  stays : ∀ p ∈ phases, ∀ f, p.published? = some f → s.names (keyPath config key) = some f
  collided : ∀ q ∈ phases, q.stage = .collided → ∃ f, Settled config key s phases f
  reads : ∀ q ∈ phases, ReadsWhole config key s phases q

/-- How a step of a call on the key changes what the key names. -/
inductive KeyEffect (config : SmbStorageConfig) (key : Str) (s : Server) (q : KeyPhase)
    (s' : Server) (q' : KeyPhase) : Prop
  /-- The name stays, and no file but the call's own has changed. -/
  | kept : s'.names (keyPath config key) = s.names (keyPath config key) →
      (∀ f, q.own? ≠ some f → s'.content f = s.content f) → q'.own? = q.own? →
      q'.published? = q.published? → KeyEffect config key s q s' q'
  | created : q.call.isGet = false → s.names (keyPath config key) = none →
      s'.names (keyPath config key) = q'.own? → q.published? = none → q'.published? = none →
      KeyEffect config key s q s' q'
  | published (f : Handle) : s' = s → q.own? = some f → q'.published? = some f →
      KeyEffect config key s q s' q'
  | removed (f : Handle) : s.names (keyPath config key) = some f → q.own? = some f →
      s'.names (keyPath config key) = none → q'.published? = none →
      KeyEffect config key s q s' q'

/-- The file behind a reader's handle keeps its name. -/
def Calm (s : Server) (q : KeyPhase) : Prop :=
  ∀ h g, q.stage.file? = none → q.stage.handle? = some h → s.file h = some g → s.pending g = false

theorem Holds.own_key {f : Handle} (h : Holds config key s q) (hput : q.call.isPut = false)
    (hown : q.own? = some f) : s.names (keyPath config key) = some f := by
  rw [← KeyCall.target_eq hput]
  exact (h.own hown).2.1

/-- Closing a handle keeps the name of a file that is not marked. -/
theorem names_close_key {h g : Handle} (hh : s.file h = some g) (hg : s.pending g = false) :
    (s.close h).names = s.names := by
  rcases s.close_cases hh with ⟨hp, _, _⟩ | ⟨_, hc⟩
  · rw [hg] at hp
    cases hp
  · rw [hc]

theorem KeyEffect.close {stage stage' : KeyStage} {h g : Handle}
    (hh : s.file h = some g) (hg : s.pending g = false)
    (hown : KeyPhase.own? ⟨call, stage'⟩ = KeyPhase.own? ⟨call, stage⟩)
    (hpub : KeyPhase.published? ⟨call, stage'⟩ = KeyPhase.published? ⟨call, stage⟩) :
    KeyEffect config key s ⟨call, stage⟩ (s.close h) ⟨call, stage'⟩ :=
  .kept (by rw [names_close_key hh hg]) (fun f _ => by rw [(s.contents_close hh).1]) hown hpub

/-- A block goes into the file behind the handle and nowhere else. -/
theorem answer_writeBlock {h f : Handle} (hf : s.file h = some f) (bytes : Bytes) (offset : ℕ) :
    (s.answer o (.writeBlock h bytes offset)).2.names = s.names ∧
      ∀ g ≠ f, (s.answer o (.writeBlock h bytes offset)).2.content g = s.content g := by
  simp only [Server.answer, hf]
  split_ifs
  · exact ⟨rfl, fun _ _ => rfl⟩
  · cases o.fault with
    | none => exact ⟨rfl, fun g hg => Function.update_of_ne hg _ _⟩
    | some e => exact ⟨rfl, fun g hg => Function.update_of_ne hg _ _⟩

theorem after_writeBlock {f h : Handle} {w bytes : Bytes} {offset : ℕ}
    {r : SmbCall.Reply (.writeBlock h bytes offset)}
    (hlost : (KeyStage.writing f w).after (.writeBlock h bytes offset) r ≠ .lost) :
    (KeyStage.writing f w).after (.writeBlock h bytes offset) r = .failing f ∨
      ∃ w', (KeyStage.writing f w).after (.writeBlock h bytes offset) r = .writing f w' := by
  cases r with
  | error e => exact Or.inl rfl
  | ok count =>
    simp only [KeyStage.after] at hlost ⊢
    split_ifs at hlost ⊢
    · exact Or.inl rfl
    · exact Or.inr ⟨_, rfl⟩
    · exact absurd rfl hlost

/-- A conditional write creates the key, or finds it taken. -/
theorem effect_createFile {body : StorageByteStream} (o : Choice) :
    KeyEffect config key s ⟨.putBlobIfNotExists body, .idle⟩
      (s.answer o (.createFile (keyPath config key) true)).2
      ⟨.putBlobIfNotExists body, KeyStage.idle.after (.createFile (keyPath config key) true)
        (s.answer o (.createFile (keyPath config key) true)).1⟩ := by
  cases hn : s.names (keyPath config key) with
  | none =>
    rw [Server.answer_create_absent hn]
    refine .created rfl hn ?_ rfl rfl
    simp [Server.names_create, KeyStage.after, KeyPhase.own?]
  | some f =>
    rw [Server.answer_create_taken hn]
    exact .kept rfl (fun _ _ => rfl) rfl rfl

/-- Closing a handle removes the key if its file is marked, and else changes nothing. -/
theorem effect_close {stage : KeyStage} {h : Handle} (hself : Holds config key s ⟨call, stage⟩)
    (hput : call.isPut = false) (hcloses : KeyPhase.closes ⟨call, stage⟩ = some h)
    (hcalm : Calm s ⟨call, stage⟩) :
    KeyEffect config key s ⟨call, stage⟩ (s.close h) ⟨call, stage.after (.close h) (.ok ())⟩ := by
  have hopen : ∀ f, stage.file? = some f → stage.handle? = some h → stage.isMarked = false →
      s.file h = some f ∧ s.pending f = false := by
    intro f hf hh hm
    obtain ⟨g, hg, he⟩ := hself.held h hh
    exact ⟨he f hf ▸ hg, (hself.made f hf).2.trans hm⟩
  cases stage with
  | writing f | failing f | flushed f | refused f | renamed f =>
    obtain rfl := Option.some.inj hcloses
    obtain ⟨hh, hg⟩ := hopen f rfl rfl rfl
    exact .close hh hg rfl rfl
  | marked f k =>
    obtain rfl := Option.some.inj hcloses
    obtain ⟨hpending, _, hheld⟩ := hself.own rfl
    have hkey := hself.own_key hput rfl
    exact .removed f hkey rfl (Server.names_close_last ((hheld k).mpr rfl) hpending
      (fun j hj => Option.some.inj ((hheld j).mp hj).symm) hkey) rfl
  | reading k size got =>
    simp only [KeyPhase.closes] at hcloses
    split_ifs at hcloses
    obtain rfl := Option.some.inj hcloses
    obtain ⟨g, hg, _⟩ := hself.held k rfl
    exact .close hg (hcalm k g rfl rfl hg) rfl rfl
  | _ => cases hcloses

/-- A step of a conditional write or a read. -/
theorem step_keyEffect {c : SmbCall} {r : SmbCall.Reply c} (hi : KeyInv config key s (q :: others))
    (hput : q.call.isPut = false) (hissues : (keyDiscipline config key).allowed q c)
    (hserves : Serves s c r s') (hcalm : Calm s q) :
    KeyEffect config key s q s' (q.advance c r) := by
  obtain ⟨o, rfl, rfl⟩ := hserves
  have hself := hi.holds q List.mem_cons_self
  have hissues : q.Issues config key c := hissues.resolve_left hself.known
  obtain ⟨call, stage⟩ := q
  have htarget : call.target config key = keyPath config key := KeyCall.target_eq hput
  have hadv : ∀ c r, KeyPhase.advance ⟨call, stage⟩ c r = ⟨call, stage.after c r⟩ :=
    fun c r => if_neg hself.known
  rw [hadv]
  cases c with
  | acquirePermit => exact .kept rfl (fun _ _ => rfl) rfl rfl
  | releasePermit => exact .kept rfl (fun _ _ => rfl) rfl rfl
  | createDirectory path => exact .kept rfl (fun _ _ => rfl) rfl rfl
  | closeResource h => exact .kept rfl (fun _ _ => rfl) rfl rfl
  | reconnect => exact .kept rfl (fun _ _ => rfl) rfl rfl
  | createFile path exclusive =>
    obtain ⟨hstage, rfl, hget, rfl⟩ := hissues
    obtain rfl : stage = .idle := hstage
    cases call with
    | putBlob uuid body => cases hput
    | getBlob => cases hget
    | putBlobIfNotExists body => exact effect_createFile o
  | openExisting path access =>
    obtain ⟨rfl, hopens⟩ := hissues
    cases stage with
    | window f =>
      rw [answer_open_own hself rfl rfl]
      exact .kept rfl (fun _ _ => rfl) rfl rfl
    | idle =>
      simp only [Server.answer]
      split
      · exact .kept rfl (fun _ _ => rfl) rfl rfl
      · split_ifs
        · exact .kept rfl (fun _ _ => rfl) rfl rfl
        · exact .kept rfl (fun _ _ => rfl) rfl rfl
    | closed f =>
      cases call with
      | putBlob uuid body => cases hput
      | putBlobIfNotExists body => cases hopens
      | getBlob => cases hopens
    | removed =>
      cases call with
      | putBlob uuid body => cases hput
      | putBlobIfNotExists body => cases hopens
      | getBlob => cases hopens
    | _ => cases hopens
  | close h =>
    exact effect_close hself hput hissues hcalm
  | dropFile h =>
    obtain rfl : stage = .stalled h := hissues
    obtain ⟨g, hg, _⟩ := hself.held h rfl
    exact .close hg (hcalm h g rfl rfl hg) rfl rfl
  | queryInfo h =>
    obtain rfl : stage = .viewing h := hissues
    obtain ⟨g, hg, _⟩ := hself.held h rfl
    rw [Server.answer_queryInfo hg]
    simp only [KeyStage.after, hi.sound.short g, if_true]
    exact .kept rfl (fun _ _ => rfl) rfl rfl
  | setRename h path replace =>
    obtain ⟨_, _, hp, _⟩ := hissues
    rw [hput] at hp
    cases hp
  | setDelete h =>
    obtain ⟨f, hstage⟩ := hissues
    obtain rfl : stage = .deleting f h := hstage
    rw [Server.answer_setDelete (((hself.own rfl).2.2 h).mpr rfl)]
    exact .kept rfl (fun _ _ => rfl) rfl rfl
  | writeBlock h bytes offset =>
    obtain ⟨w, hstage, rfl⟩ := hissues
    obtain rfl : stage = .writing h w := hstage
    obtain ⟨hnames, hcontent⟩ := answer_writeBlock (o := o) (((hself.own rfl).2.2 h).mpr rfl)
      bytes w.length
    have hnext : Next config key s o _ others (.writeBlock h bytes w.length) := hi.next_writeBlock
    have hknown := (hnext.holds _ List.mem_cons_self).known
    rw [hadv] at hknown
    refine .kept (by rw [hnames]) (fun g hg => hcontent g fun he => hg (he ▸ rfl)) ?_ ?_
    · rcases after_writeBlock hknown with ha | ⟨w', ha⟩ <;>
      · rw [ha]
        rfl
    · rcases after_writeBlock hknown with ha | ⟨w', ha⟩ <;>
      · rw [ha]
        rfl
  | flush h =>
    obtain ⟨w, hstage, _⟩ := hissues
    obtain rfl : stage = .writing h w := hstage
    have hfile : s.file h = some h := ((hself.own rfl).2.2 h).mpr rfl
    cases hfault : o.fault with
    | some e =>
      rw [Server.answer_flush_fault hfile hfault]
      exact .kept rfl (fun _ _ => rfl) rfl rfl
    | none =>
      rw [Server.answer_flush hfile hfault]
      exact .published h rfl rfl (by simp [KeyStage.after, KeyPhase.published?, hput])
  | readBlock h length offset =>
    obtain ⟨size, got, hstage, rfl⟩ := hissues
    obtain rfl : stage = .reading h size got := hstage
    obtain ⟨g, hg, _⟩ := hself.held h rfl
    rw [Server.answer_readBlock hg]
    refine .kept rfl (fun _ _ => rfl) ?_ ?_ <;>
    · simp only [KeyStage.after]
      split_ifs <;> rfl

theorem KeyPhase.handle?_of_closes {h : Handle} (hc : q.closes = some h) :
    q.stage.handle? = some h := by
  obtain ⟨call, stage⟩ := q
  cases stage <;> simp only [closes] at hc <;> first | exact hc | cases hc | skip
  split_ifs at hc
  exact hc

/-- A step touches no handle but the call's own. -/
theorem file_kept {c : SmbCall} {h : Handle} (hissues : q.Issues config key c)
    (hlt : h < s.handles.length) (hne : q.stage.handle? ≠ some h) :
    (s.answer o c).2.file h = s.file h := by
  have hclose : ∀ k, q.stage.handle? = some k → (s.close k).file h = s.file h := by
    intro k hk
    refine s.file_close_of_ne ?_
    rintro rfl
    exact hne hk
  cases c with
  | createFile path exclusive =>
    rcases answer_createFile s o path exclusive with ⟨e, ha⟩ | ⟨_, ha⟩ | ⟨f, _, _, ha⟩
    · rw [ha]
    · rw [ha, Server.file_create, if_neg hlt.ne]
    · rw [ha]
      exact (Server.file_openOn _ _ _).trans (if_neg hlt.ne)
  | openExisting path access =>
    rcases answer_openExisting s o path access with ⟨e, ha⟩ | ⟨f, _, _, ha⟩
    · rw [ha]
    · rw [ha, Server.file_openOn, if_neg hlt.ne]
  | close k => exact hclose k (KeyPhase.handle?_of_closes hissues)
  | dropFile k =>
    have hstage : q.stage = .stalled k := hissues
    exact hclose k (by rw [hstage]; rfl)
  | queryInfo k => rw [Server.answer_queryInfo_snd]
  | setDelete k =>
    simp only [Server.answer]
    split <;> rfl
  | flush k => rw [Server.answer_flush_snd]
  | readBlock k length offset => rw [Server.answer_readBlock_snd]
  | setRename k path replace =>
    rcases answer_setRename s o k path replace with ⟨e, ha⟩ | ⟨f, _, ha⟩
    · rw [ha]
    · rw [ha]
      rfl
  | writeBlock k bytes offset =>
    simp only [Server.answer]
    split
    · rfl
    · split_ifs
      · rfl
      · split <;> rfl
  | _ => rfl

/-- A published file keeps its name and its content. -/
theorem Settled.step {f : Handle} (h : CreateInv config key s (q :: others))
    (he : KeyEffect config key s q s' q') (hs : Settled config key s (q :: others) f) :
    Settled config key s' (q' :: others) f ∧ s'.content f = s.content f := by
  obtain ⟨hname, p, hp, hpub⟩ := hs
  have hq : ∀ g, q.own? = some g → q.published? = none := fun g hg =>
    (KeyPhase.of_own? config key hg).2.1
  cases he with
  | kept hnames hcontent hown hpub' =>
    refine ⟨⟨hnames.trans hname, ?_⟩, hcontent f fun ho => ?_⟩
    · rcases List.mem_cons.mp hp with rfl | hp
      · exact ⟨q', List.mem_cons_self, hpub'.trans hpub⟩
      · exact ⟨p, List.mem_cons_of_mem _ hp, hpub⟩
    · rcases List.mem_cons.mp hp with rfl | hp
      · rw [hq f ho] at hpub
        cases hpub
      · exact h.base.others_file (KeyPhase.file?_of_own? ho) p hp (KeyPhase.file?_of_published? hpub)
  | created _ hn =>
    rw [hname] at hn
    cases hn
  | published g hsame ho hg =>
    subst hsame
    rcases List.mem_cons.mp hp with rfl | hp
    · rw [hq g ho] at hpub
      cases hpub
    · exact ⟨⟨hname, p, List.mem_cons_of_mem _ hp, hpub⟩, rfl⟩
  | removed g hn ho =>
    obtain rfl := Option.some.inj (hname.symm.trans hn)
    rcases List.mem_cons.mp hp with rfl | hp
    · rw [hq f ho] at hpub
      cases hpub
    · exact absurd (KeyPhase.file?_of_published? hpub)
        (h.base.others_file (KeyPhase.file?_of_own? ho) p hp)

/-- What a reader has read stays right while the others move. -/
theorem ReadsWhole.keep {p : KeyPhase} {phases' : List KeyPhase}
    (h : ReadsWhole config key s phases p)
    (hmono : ∀ f, Settled config key s phases f →
      Settled config key s' phases' f ∧ s'.content f = s.content f)
    (hfile : ∀ h, p.stage.handle? = some h → s'.file h = s.file h) :
    ReadsWhole config key s' phases' p where
  opened k hnone hk := by
    obtain ⟨f, hs, hf⟩ := h.opened k hnone hk
    exact ⟨f, (hmono f hs).1, (hfile k hk).trans hf⟩
  partly k size got hp f hf := by
    have hk : p.stage.handle? = some k := by rw [hp]; rfl
    obtain ⟨g, hs, hg⟩ := h.opened k (by rw [hp]; rfl) hk
    rw [hfile k hk] at hf
    obtain rfl := Option.some.inj (hg.symm.trans hf)
    rw [(hmono g hs).2]
    exact h.partly k size got hp g hf
  wholly bytes hp := by
    obtain ⟨f, hs, hc⟩ := h.wholly bytes hp
    exact ⟨f, (hmono f hs).1, (hmono f hs).2.trans hc⟩

/-- The stages of a read that has opened the key. -/
def KeyStage.isReading : KeyStage → Bool
  | viewing _ | reading _ _ _ | stalled _ | collected _ => true
  | _ => false

/-- A call that reads nothing. -/
theorem ReadsWhole.of_other (hr : q.stage.isReading = false) : ReadsWhole config key s phases q where
  opened h hfile hh := by
    obtain ⟨call, stage⟩ := q
    cases stage <;> first | (cases hfile; done) | (cases hh; done) | cases hr
  partly h size got hq := by
    rw [hq] at hr
    cases hr
  wholly bytes hq := by
    rw [hq] at hr
    cases hr

/-- A read that has a published file open, and has read its beginning if anything. -/
theorem ReadsWhole.of_open {stage : KeyStage} {k f : Handle} (hs : Settled config key s phases f)
    (hf : s.file k = some f) (hk : stage.handle? = some k)
    (hpart : ∀ h size got, stage = .reading h size got →
      size = (s.content f).length ∧ got <+: s.content f)
    (hopen : ∀ bytes, stage ≠ .collected bytes) :
    ReadsWhole config key s phases ⟨call, stage⟩ where
  opened h _ hh := by
    obtain rfl := Option.some.inj (hk.symm.trans hh)
    exact ⟨f, hs, hf⟩
  partly h size got hq g hg := by
    have hstage : stage = .reading h size got := hq
    subst hstage
    obtain rfl := Option.some.inj hk
    obtain rfl := Option.some.inj (hf.symm.trans hg)
    exact hpart h size got rfl
  wholly bytes hq := absurd hq (hopen bytes)

/-- Requests that are not part of a read. -/
def SmbCall.writes : SmbCall → Bool
  | createFile _ _ | setDelete _ | writeBlock _ _ _ | flush _ => true
  | _ => false

theorem KeyStage.isReading_after (stage : KeyStage) {c : SmbCall} (hc : c.writes = true)
    (r : SmbCall.Reply c) : (stage.after c r).isReading = false := by
  cases c with
  | createFile path exclusive =>
    rcases r with (_ | ⟨cause, text⟩) | resource
    · rfl
    · cases cause with
      | status status =>
        cases status with
        | objectNameCollision =>
          cases exclusive with
          | true => cases stage <;> rfl
          | false => rfl
        | _ => rfl
      | _ => rfl
    · cases resource with
      | file h => cases stage <;> rfl
      | _ => rfl
  | setDelete h =>
    cases r with
    | error e => rfl
    | ok _ => cases stage <;> rfl
  | writeBlock h bytes offset =>
    cases r with
    | error e => cases stage <;> rfl
    | ok count =>
      cases stage with
      | writing f w =>
        simp only [after]
        split_ifs <;> rfl
      | _ => rfl
  | flush h =>
    cases r with
    | error e => cases stage <;> rfl
    | ok _ => cases stage <;> rfl
  | _ => cases hc

/-- What a reader has read after its own step. -/
theorem reads_self {c : SmbCall} (h : CreateInv config key s (q :: others))
    (hissues : q.Issues config key c)
    (hmono : ∀ f, Settled config key s (q :: others) f →
      Settled config key (s.answer o c).2 (q.advance c (s.answer o c).1 :: others) f ∧
        (s.answer o c).2.content f = s.content f)
    (halone : q.stage = .idle → (∃ path access, c = .openExisting path access) →
      ∀ p ∈ others, p.own? = none) :
    ReadsWhole config key (s.answer o c).2 (q.advance c (s.answer o c).1 :: others)
      (q.advance c (s.answer o c).1) := by
  have hself := h.base.holds q List.mem_cons_self
  have hreads := h.reads q List.mem_cons_self
  have hput := h.plain q List.mem_cons_self
  obtain ⟨call, stage⟩ := q
  have hadv : ∀ c r, KeyPhase.advance ⟨call, stage⟩ c r = ⟨call, stage.after c r⟩ :=
    fun c r => if_neg hself.known
  have hsame : ∀ phases' : List KeyPhase, (∀ f, Settled config key s (⟨call, stage⟩ :: others) f →
      Settled config key s phases' f ∧ s.content f = s.content f) →
      ReadsWhole config key s phases' ⟨call, stage⟩ := fun phases' hm => hreads.keep hm fun _ _ => rfl
  rw [hadv] at hmono ⊢
  cases c with
  | acquirePermit => exact hsame _ hmono
  | releasePermit => exact hsame _ hmono
  | createDirectory path => exact hsame _ hmono
  | closeResource h => exact hsame _ hmono
  | reconnect => exact hsame _ hmono
  | createFile path exclusive => exact .of_other (stage.isReading_after rfl _)
  | openExisting path access =>
    obtain ⟨rfl, hopens⟩ := hissues
    cases stage with
    | window f =>
      rw [answer_open_own hself rfl rfl]
      exact .of_other rfl
    | idle =>
      rw [KeyCall.target_eq hput] at hmono ⊢
      cases hn : s.names (keyPath config key) with
      | none =>
        rw [Server.answer_open_absent hn]
        exact .of_other rfl
      | some g =>
        cases hpending : s.pending g with
        | true =>
          rw [Server.answer_open_marked hn hpending]
          exact .of_other rfl
        | false =>
          rw [Server.answer_open_file hn hpending] at hmono ⊢
          -- The key is open for nobody alone, so its file is published.
          have hsettled : Settled config key s (⟨call, .idle⟩ :: others) g := by
            obtain ⟨p, hp, hown | hpub⟩ := h.source g hn
            · rcases List.mem_cons.mp hp with rfl | hp
              · cases hown
              · rw [halone rfl ⟨_, _, rfl⟩ p hp] at hown
                cases hown
            · exact ⟨hn, p, hp, hpub⟩
          exact .of_open (hmono g hsettled).1 ((s.file_openOn g _).trans (if_pos rfl)) rfl
            (fun k size got hq => by cases hq) (fun bytes hq => by cases hq)
    | closed f =>
      cases call with
      | putBlob uuid body => cases hput
      | putBlobIfNotExists body => cases hopens
      | getBlob => cases hopens
    | removed =>
      cases call with
      | putBlob uuid body => cases hput
      | putBlobIfNotExists body => cases hopens
      | getBlob => cases hopens
    | _ => cases hopens
  | close h =>
    have hissues : KeyPhase.closes ⟨call, stage⟩ = some h := hissues
    cases stage with
    | reading k size got =>
      simp only [KeyPhase.closes] at hissues
      split_ifs at hissues with hend
      refine ⟨fun _ _ hh => (by cases hh), fun _ _ _ hq => (by cases hq), fun bytes hq => ?_⟩
      obtain rfl : got = bytes := by
        cases hq
        rfl
      obtain ⟨f, hs, hf⟩ := hreads.opened k rfl rfl
      obtain ⟨hsize, hpre⟩ := hreads.partly k size got rfl f hf
      refine ⟨f, (hmono f hs).1, (hmono f hs).2.trans ?_⟩
      exact (hpre.eq_of_length_le (hsize ▸ hend)).symm
    | writing | failing | flushed | refused | renamed | marked => exact .of_other rfl
    | _ => cases hissues
  | dropFile h =>
    obtain rfl : stage = .stalled h := hissues
    exact .of_other rfl
  | queryInfo k =>
    obtain rfl : stage = .viewing k := hissues
    obtain ⟨f, hs, hf⟩ := hreads.opened k rfl rfl
    rw [Server.answer_queryInfo hf] at hmono ⊢
    have hstage : (KeyStage.viewing k).after (.queryInfo k) (.ok (s.content f).length) =
        .reading k (s.content f).length [] := if_pos (h.base.sound.short f)
    rw [hstage] at hmono ⊢
    refine .of_open (hmono f hs).1 hf rfl (fun j size got hq => ?_) fun bytes hq => by cases hq
    cases hq
    exact ⟨rfl, List.nil_prefix⟩
  | setRename h path replace =>
    obtain ⟨_, _, hp, _⟩ := hissues
    rw [hput] at hp
    cases hp
  | setDelete h => exact .of_other (stage.isReading_after rfl _)
  | writeBlock h bytes offset => exact .of_other (stage.isReading_after rfl _)
  | flush h => exact .of_other (stage.isReading_after rfl _)
  | readBlock k length offset =>
    obtain ⟨size, got, hstage, rfl⟩ := hissues
    obtain rfl : stage = .reading k size got := hstage
    obtain ⟨f, hs, hf⟩ := hreads.opened k rfl rfl
    obtain ⟨hsize, hpre⟩ := hreads.partly k size got rfl f hf
    rw [Server.answer_readBlock hf] at hmono ⊢
    by_cases hnil : ((s.content f).drop got.length).take (min o.count length) = []
    · have hstage : (KeyStage.reading k size got).after (.readBlock k length got.length)
          (.ok (((s.content f).drop got.length).take (min o.count length))) = .stalled k := by
        simp only [KeyStage.after, hnil, if_true]
      rw [hstage] at hmono ⊢
      exact .of_open (hmono f hs).1 hf rfl (fun j size got hq => by cases hq)
        (fun bytes hq => by cases hq)
    · have hlen : (((s.content f).drop got.length).take (min o.count length)).length ≤ length := by
        rw [List.length_take]
        omega
      have hstage : (KeyStage.reading k size got).after (.readBlock k length got.length)
          (.ok (((s.content f).drop got.length).take (min o.count length))) =
          .reading k size (got ++ ((s.content f).drop got.length).take (min o.count length)) := by
        simp only [KeyStage.after, hnil, if_false, hlen, if_true]
      rw [hstage] at hmono ⊢
      refine .of_open (hmono f hs).1 hf rfl (fun j size' got' hq => ?_) fun bytes hq => by cases hq
      cases hq
      refine ⟨hsize, ?_⟩
      obtain ⟨rest, hrest⟩ := hpre
      rw [← hrest, List.drop_left, List.prefix_append_right_inj]
      exact List.take_prefix _ _

theorem KeyStage.of_after_collided {stage : KeyStage} {c : SmbCall} {r : SmbCall.Reply c}
    (h : stage.after c r = .collided) : stage = .collided ∨ ∃ path, c = .createFile path true := by
  unfold after at h
  split at h
  all_goals first
    | exact Or.inl h
    | exact Or.inr ⟨_, rfl⟩
    | cases h
    | split at h
  all_goals first
    | exact Or.inl h
    | cases h
    | split_ifs at h

theorem CreateInv.perm (h : CreateInv config key s phases) {phases' : List KeyPhase}
    (hp : phases.Perm phases') : CreateInv config key s phases' := by
  have hsettled : ∀ f, Settled config key s phases f → Settled config key s phases' f := by
    rintro f ⟨hn, p, hm, hpub⟩
    exact ⟨hn, p, hp.mem_iff.mp hm, hpub⟩
  refine ⟨h.base.perm hp, fun q hq => h.plain q (hp.mem_iff.mpr hq),
    fun q hq => h.gets q (hp.mem_iff.mpr hq), fun f hn => ?_,
    fun p hm => h.stays p (hp.mem_iff.mpr hm), fun q hq hs => ?_, fun q hq => ?_⟩
  · obtain ⟨p, hm, hf⟩ := h.source f hn
    exact ⟨p, hp.mem_iff.mp hm, hf⟩
  · obtain ⟨f, hf⟩ := h.collided q (hp.mem_iff.mpr hq) hs
    exact ⟨f, hsettled f hf⟩
  · exact (h.reads q (hp.mem_iff.mpr hq)).keep (fun f hf => ⟨hsettled f hf, rfl⟩) fun _ _ => rfl

theorem CreateInv.calm (h : CreateInv config key s (q :: others)) : Calm s q := by
  intro k g hfile hk hg
  obtain ⟨f, hs, hf⟩ := (h.reads q List.mem_cons_self).opened k hfile hk
  obtain rfl := Option.some.inj (hg.symm.trans hf)
  exact h.base.published_kept hs.2

/-- The requests with which a call begins on the key. -/
def SmbCall.begins : SmbCall → Bool
  | createFile _ _ | openExisting _ _ => true
  | _ => false

/-- A read neither creates nor publishes a file. -/
theorem CreateInv.gets_step (h : CreateInv config key s (q :: others))
    (heffect : KeyEffect config key s q s' q') (hcall : q'.call = q.call) :
    ∀ p ∈ q' :: others, p.call.isGet = true → p.own? = none ∧ p.published? = none := by
  intro p hp hget
  rcases List.mem_cons.mp hp with rfl | hp
  · rw [hcall] at hget
    obtain ⟨hown, hpub⟩ := h.gets q List.mem_cons_self hget
    cases heffect with
    | kept _ _ hown' hpub' => exact ⟨hown'.trans hown, hpub'.trans hpub⟩
    | created hno =>
      rw [hget] at hno
      cases hno
    | published g _ ho =>
      rw [hown] at ho
      cases ho
    | removed g _ ho =>
      rw [hown] at ho
      cases ho
  · exact h.gets p (List.mem_cons_of_mem _ hp) hget

/-- Whatever the key names belongs to a call. -/
theorem CreateInv.source_step (h : CreateInv config key s (q :: others))
    (heffect : KeyEffect config key s q s' q') :
    ∀ f, s'.names (keyPath config key) = some f →
      ∃ p ∈ q' :: others, p.own? = some f ∨ p.published? = some f := by
  intro f hn
  cases heffect with
  | kept hnames _ hown hpub =>
    obtain ⟨p, hp, hf⟩ := h.source f (hnames ▸ hn)
    rcases List.mem_cons.mp hp with rfl | hp
    · exact ⟨_, List.mem_cons_self, by rwa [hown, hpub]⟩
    · exact ⟨p, List.mem_cons_of_mem _ hp, hf⟩
  | created _ _ hnames => exact ⟨_, List.mem_cons_self, Or.inl (hnames ▸ hn)⟩
  | published g hsame ho hpub =>
    subst hsame
    have hself := h.base.holds q List.mem_cons_self
    have hkey := hself.own_key (h.plain q List.mem_cons_self) ho
    obtain rfl := Option.some.inj (hn.symm.trans hkey)
    exact ⟨_, List.mem_cons_self, Or.inr hpub⟩
  | removed g _ _ hnames =>
    rw [hnames] at hn
    cases hn

/-- What is published is what the key names. -/
theorem CreateInv.stays_step (h : CreateInv config key s (q :: others))
    (heffect : KeyEffect config key s q s' q') :
    ∀ p ∈ q' :: others, ∀ f, p.published? = some f → s'.names (keyPath config key) = some f := by
  intro p hp f hpub
  rcases List.mem_cons.mp hp with rfl | hp
  · cases heffect with
    | kept hnames _ _ hpub' =>
      rw [hnames]
      exact h.stays q List.mem_cons_self f (hpub' ▸ hpub)
    | created _ _ _ _ hnone =>
      rw [hnone] at hpub
      cases hpub
    | published g hsame ho hpub' =>
      subst hsame
      obtain rfl := Option.some.inj (hpub'.symm.trans hpub)
      exact (h.base.holds q List.mem_cons_self).own_key (h.plain q List.mem_cons_self) ho
    | removed g _ _ _ hnone =>
      rw [hnone] at hpub
      cases hpub
  · have hname := h.stays p (List.mem_cons_of_mem _ hp) f hpub
    exact (Settled.step h heffect ⟨hname, p, List.mem_cons_of_mem _ hp, hpub⟩).1.1

/-- Whoever found the key taken found a published file. -/
theorem CreateInv.collided_step {c : SmbCall} {r : SmbCall.Reply c}
    (h : CreateInv config key s (q :: others)) (hissues : q.Issues config key c)
    (hserves : Serves s c r s')
    (hown : q.stage = .idle → c.begins = true → ∀ p ∈ others, p.own? = none)
    (hmono : ∀ f, Settled config key s (q :: others) f →
      Settled config key s' (q.advance c r :: others) f) :
    ∀ p ∈ q.advance c r :: others, p.stage = .collided →
      ∃ f, Settled config key s' (q.advance c r :: others) f := by
  intro p hp hs
  rcases List.mem_cons.mp hp with rfl | hp
  · have hself := h.base.holds q List.mem_cons_self
    have hadv : q.advance c r = ⟨q.call, q.stage.after c r⟩ := if_neg hself.known
    rw [hadv] at hs
    rcases KeyStage.of_after_collided hs with hold | ⟨path, rfl⟩
    · obtain ⟨f, hf⟩ := h.collided q List.mem_cons_self hold
      exact ⟨f, hmono f hf⟩
    · -- The key was taken, and not by a write that is still going on.
      obtain ⟨hidle, rfl, _, _⟩ := hissues
      have hput := h.plain q List.mem_cons_self
      cases hn : s.names (keyPath config key) with
      | none =>
        obtain ⟨o, rfl, _⟩ := hserves
        rw [hidle, KeyCall.target_eq hput, Server.answer_create_absent hn] at hs
        cases hs
      | some f =>
        obtain ⟨p, hp, ho | hpub⟩ := h.source f hn
        · rcases List.mem_cons.mp hp with rfl | hp
          · rw [KeyPhase.own?, hidle] at ho
            cases ho
          · rw [hown hidle rfl p hp] at ho
            cases ho
        · exact ⟨f, hmono f ⟨hn, p, hp, hpub⟩⟩
  · obtain ⟨f, hf⟩ := h.collided p (List.mem_cons_of_mem _ hp) hs
    exact ⟨f, hmono f hf⟩

theorem CreateInv.step {c : SmbCall} {r : SmbCall.Reply c} (h : CreateInv config key s (q :: others))
    (hallowed : (keyDiscipline config key).allowed q c) (hserves : Serves s c r s')
    (halone : q.stage = .idle → c.begins = true → ∀ p ∈ others, p.unsettled = false) :
    CreateInv config key s' (q.advance c r :: others) := by
  have hissues : q.Issues config key c :=
    hallowed.resolve_left (h.base.holds q List.mem_cons_self).known
  have hput := h.plain q List.mem_cons_self
  have hown : q.stage = .idle → c.begins = true → ∀ p ∈ others, p.own? = none := by
    intro hidle hc p hp
    have hu := halone hidle hc p hp
    simpa [KeyPhase.unsettled, h.plain p (List.mem_cons_of_mem _ hp)] using hu
  have heffect := step_keyEffect h.base hput hallowed hserves h.calm
  have hmono := fun f hs => Settled.step (f := f) h heffect hs
  have hbase : KeyInv config key s' (q.advance c r :: others) := by
    refine h.base.step hallowed hserves ?_ ?_
    · rintro ⟨k, path, replace, rfl⟩
      obtain ⟨_, _, hp, _⟩ := hissues
      rw [hput] at hp
      cases hp
    · rintro _ hidle ⟨path, access, rfl⟩
      exact hown hidle rfl
  refine ⟨hbase, fun p hp => ?_, h.gets_step heffect (advance_call q c r), h.source_step heffect,
    h.stays_step heffect, h.collided_step hissues hserves hown fun f hs => (hmono f hs).1,
    fun p hp => ?_⟩
  · rcases List.mem_cons.mp hp with rfl | hp
    · rw [advance_call]
      exact hput
    · exact h.plain p (List.mem_cons_of_mem _ hp)
  · obtain ⟨o, rfl, rfl⟩ := hserves
    rcases List.mem_cons.mp hp with rfl | hp
    · refine reads_self h hissues hmono ?_
      rintro hidle ⟨path, access, rfl⟩
      exact hown hidle rfl
    · refine (h.reads p (List.mem_cons_of_mem _ hp)).keep hmono fun k hk => ?_
      obtain ⟨g, hg, _⟩ := (h.base.holds p (List.mem_cons_of_mem _ hp)).held k hk
      refine file_kept hissues (Server.file_lt hg) fun hq => ?_
      exact h.base.others_handle hq p hp hk

theorem KeyEffect.published_mono {f : Handle} (h : KeyEffect config key s q s' q')
    (hpub : q.published? = some f) : q'.published? = some f := by
  have hnone : ∀ g, q.own? = some g → q'.published? = some f := by
    intro g hg
    rw [(KeyPhase.of_own? config key hg).2.1] at hpub
    cases hpub
  cases h with
  | kept _ _ _ hsame => exact hsame.trans hpub
  | created _ _ _ hno =>
    rw [hno] at hpub
    cases hpub
  | published g _ ho => exact hnone g ho
  | removed g _ ho => exact hnone g ho

end Conditional

/-! ### Runs -/

/-- No call begins on the key while another one is writing or removing it. -/
def Undisturbed (_ : Server) (others : List KeyThread) (th : KeyThread) : Prop :=
  ∀ c ∈ th.prog.next?, th.phase.stage = .idle → c.begins = true →
    ∀ o ∈ others, o.phase.unsettled = false

instance (s : Server) (others : List KeyThread) (th : KeyThread) :
    Decidable (Undisturbed s others th) :=
  inferInstanceAs (Decidable (∀ c ∈ th.prog.next?, _ → _ → _))

section Runs

variable (config : SmbStorageConfig) (key : Str)

/-- One request after the other, none of which disturbs a write. -/
abbrev KeyRuns (x y : Server × List KeyThread) : Prop :=
  Reach (keyDiscipline config key).next Serves Undisturbed x y

/-- The call at this place returns `Ok(Some)`: it can return, and it returns nothing else. -/
def ReturnsSuccess (x : Server × List KeyThread) (i : ℕ) : Prop :=
  (∃ y th, KeyRuns config key x y ∧ y.2[i]? = some th ∧ th.prog.result? ≠ none) ∧
    ∀ y th, KeyRuns config key x y → y.2[i]? = some th → th.prog.result? ≠ none → Succeeded th

/-- The key holds the complete body of a conditional write that returns `Ok(Some)`. -/
def HoldsComplete (calls : List KeyCall) (x : Server × List KeyThread) (bytes : Bytes) : Prop :=
  x.1.stored (keyPath config key) = some bytes ∧ ∃ i call, calls[i]? = some call ∧
    call.isConditional = true ∧ call.content = .ok bytes ∧ ReturnsSuccess config key x i

/-- What holds of every state of a run. -/
structure CreateState (calls : List KeyCall) (x : Server × List KeyThread) : Prop where
  disciplined : Disciplined (keyDiscipline config key) (Ends Returned) x.2
  inv : CreateInv config key x.1 (x.2.map Thread.phase)
  calls : (x.2.map Thread.phase).map KeyPhase.call = calls

/-- Whoever was published first is still published. -/
def StillPublished (phases phases' : List KeyPhase) : Prop :=
  ∀ (i : ℕ) (p : KeyPhase) (f : Handle), phases[i]? = some p → p.published? = some f →
    ∃ p' : KeyPhase, phases'[i]? = some p' ∧ p'.published? = some f

variable {config key} {D : Digest} {calls : List KeyCall} {x y : Server × List KeyThread}

/-- Only the phase of the call that moves changes. -/
theorem getElem?_replace {α : Type} (before after : List α) (a b : α) {i : ℕ} {c : α}
    (h : (before ++ a :: after)[i]? = some c) :
    (before ++ b :: after)[i]? = some c ∨ c = a ∧ (before ++ b :: after)[i]? = some b := by
  have hset : before ++ b :: after = (before ++ a :: after).set before.length b := by simp
  by_cases hi : i = before.length
  · subst hi
    refine Or.inr ⟨?_, by simp⟩
    simpa using h.symm
  · left
    rw [hset, List.getElem?_set_ne (Ne.symm hi)]
    exact h

theorem CreateState.reach (h : CreateState config key calls x) (hr : KeyRuns config key x y) :
    CreateState config key calls y ∧
      StillPublished (x.2.map Thread.phase) (y.2.map Thread.phase) := by
  obtain ⟨hdisc, hinv⟩ := Reach.invariant
    (fun s phases => (CreateInv config key s phases ∧ phases.map KeyPhase.call = calls) ∧
      StillPublished (x.2.map Thread.phase) phases)
    (fun s s' before after q c k r hold hissues hguard hserves => by
      obtain ⟨⟨hi, hcalls⟩, hpub⟩ := hold
      have hi' := hi.perm List.perm_middle
      have hput := hi'.plain q List.mem_cons_self
      have heffect := step_keyEffect hi'.base hput hissues hserves hi'.calm
      have hnext := hi'.step hissues hserves fun hidle hc p hp => by
        rw [← List.map_append] at hp
        obtain ⟨o, ho, rfl⟩ := List.mem_map.mp hp
        exact hguard _ rfl hidle hc o ho
      refine ⟨⟨hnext.perm List.perm_middle.symm, ?_⟩, fun i p f hp hf => ?_⟩
      · rw [← hcalls]
        simp only [List.map_append, List.map_cons]
        rw [show ((keyDiscipline config key).next q c r).call = q.call from advance_call q c r]
      · obtain ⟨p', hp', hf'⟩ := hpub i p f hp hf
        rcases getElem?_replace _ _ q ((keyDiscipline config key).next q c r) hp' with hsame | ⟨rfl, hq⟩
        · exact ⟨p', hsame, hf'⟩
        · exact ⟨_, hq, heffect.published_mono hf'⟩)
    hr h.disciplined ⟨⟨h.inv, h.calls⟩, fun i p f hp hf => ⟨p, hp, hf⟩⟩
  exact ⟨⟨hdisc, hinv.1.1, hinv.1.2⟩, hinv.2⟩

/-- A call that has published its file can return. -/
theorem CreateState.returns {prog : SmbM KeyResult} (h : CreateState config key calls x) {i : ℕ}
    {q : KeyPhase} {f : Handle} (hi : x.2[i]? = some ⟨q, prog⟩) (hpub : q.published? = some f) :
    ∃ y th, KeyRuns config key x y ∧ y.2[i]? = some th ∧ th.prog.result? ≠ none := by
  induction prog generalizing x q with
  | ret res => exact ⟨x, _, Relation.ReflTransGen.refl, hi, by simp [result?]⟩
  | call c k ih =>
    have hstage : q.stage ≠ .idle := by
      intro hidle
      rw [KeyPhase.published?, hidle] at hpub
      cases hpub
    have hstep : KeyRuns config key x
        (runStep (keyDiscipline config key).next (fun c s => s.answer .smooth c) x i) := by
      refine runStep_reach (fun _ _ => ⟨.smooth, rfl, rfl⟩) fun th hth c' _ hidle => ?_
      obtain rfl := Option.some.inj (hi.symm.trans hth)
      exact absurd hidle hstage
    obtain ⟨hnext, hkeeps⟩ := h.reach hstep
    obtain ⟨hlt, _⟩ := List.getElem?_eq_some_iff.mp hi
    have hmoved : (runStep (keyDiscipline config key).next (fun c s => s.answer .smooth c) x i).2[i]? =
        some ⟨(keyDiscipline config key).next q c (x.1.answer .smooth c).1,
          k (x.1.answer .smooth c).1⟩ := by
      simp only [runStep, hi]
      exact List.getElem?_set_self hlt
    obtain ⟨p, hp, hf⟩ := hkeeps i q f (by simp [hi]) hpub
    rw [List.getElem?_map, hmoved] at hp
    obtain rfl := Option.some.inj hp
    obtain ⟨y, th, hy, hth⟩ := ih _ hnext hmoved hf
    exact ⟨y, th, hstep.trans hy, hth⟩

/-- The published file of a call, and what its call returns. -/
theorem CreateState.complete (h : CreateState config key calls x) {f : Handle}
    (hs : Settled config key x.1 (x.2.map Thread.phase) f) :
    HoldsComplete config key calls x (x.1.content f) := by
  obtain ⟨hname, p, hp, hpub⟩ := hs
  obtain ⟨i, hi⟩ := List.mem_iff_getElem?.mp hp
  have hwhole := (h.inv.base.holds p hp).whole f (KeyPhase.whole?_of_published? hpub)
  obtain ⟨th, hth, rfl⟩ : ∃ th, x.2[i]? = some th ∧ th.phase = p := by
    rw [List.getElem?_map] at hi
    exact Option.map_eq_some_iff.mp hi
  refine ⟨congrArg (Option.map _) hname, i, th.phase.call, ?_, ?_, hwhole, ?_, ?_⟩
  · rw [← h.calls, List.getElem?_map, hi]
    rfl
  · have hput := h.inv.plain _ hp
    have hget : th.phase.call.isGet = false := by
      by_contra hget
      rw [((h.inv.gets _ hp) (by simpa using hget)).2] at hpub
      cases hpub
    cases hc : th.phase.call with
    | putBlobIfNotExists body => rfl
    | putBlob uuid body =>
      rw [hc] at hput
      cases hput
    | getBlob =>
      rw [hc] at hget
      cases hget
  · exact h.returns hth hpub
  · intro y th' hy hth' hres
    obtain ⟨hend, hkeeps⟩ := h.reach hy
    obtain ⟨p', hp', hf'⟩ := hkeeps i th.phase f hi hpub
    rw [List.getElem?_map, hth'] at hp'
    obtain rfl := Option.some.inj hp'
    have hmem := List.mem_of_getElem? hth'
    have hholds := hend.inv.base.holds _ (List.mem_map_of_mem hmem)
    obtain ⟨res, hr⟩ := Option.ne_none_iff_exists'.mp hres
    have hret := eq_ret_of_result? hr
    have hpost := hend.disciplined th' hmem
    rw [hret] at hpost
    have hwhole' := hholds.whole f (KeyPhase.whole?_of_published? hf')
    obtain ⟨outcome, rfl⟩ := (hpost.resolve_left hholds.known).success hf' hwhole'
    exact succeeded_iff.mpr ⟨outcome, hret⟩

theorem Begins.createInv {s₀ : Server} (h : Begins config key s₀ calls)
    (habsent : s₀.names (keyPath config key) = none)
    (hkinds : ∀ call ∈ calls, call.isPut = false) :
    CreateInv config key s₀ (calls.map fun call => ⟨call, .idle⟩) := by
  refine ⟨h.keyInv, ?_, ?_, ?_, ?_, ?_, ?_⟩
  · intro q hq
    obtain ⟨call, hc, rfl⟩ := List.mem_map.mp hq
    exact hkinds call hc
  · intro q hq _
    obtain ⟨call, _, rfl⟩ := List.mem_map.mp hq
    exact ⟨rfl, rfl⟩
  · intro f hn
    rw [habsent] at hn
    cases hn
  · intro q hq f hf
    obtain ⟨call, _, rfl⟩ := List.mem_map.mp hq
    cases hf
  · intro q hq hs
    obtain ⟨call, _, rfl⟩ := List.mem_map.mp hq
    cases hs
  · intro q hq
    obtain ⟨call, _, rfl⟩ := List.mem_map.mp hq
    exact .of_other rfl

/-- In every run of conditional writes and reads of an absent key in which no call begins on the
key while another one is writing or removing it, each `Ok(None)` and each collected body is about
a complete blob that the key holds. -/
theorem conditional_create_publishes_complete (D : Digest) (config : SmbStorageConfig) (key : Str)
    (calls : List KeyCall) (s₀ s : Server) (pool : List KeyThread)
    (h₀ : Begins config key s₀ calls) (habsent : s₀.names (keyPath config key) = none)
    (hkinds : ∀ call ∈ calls, call.isPut = false)
    (herrors : ∀ call ∈ calls, ∀ e, call.content = .error e → isCollision e = false)
    (hr : KeyRuns config key (s₀, calls.map (keyThread D config key)) (s, pool)) :
    (∀ th ∈ pool, th.prog = .ret (.wrote (.ok none)) →
      ∃ bytes, HoldsComplete config key calls (s, pool) bytes) ∧
    (∀ th ∈ pool, ∀ bytes, th.prog = .ret (.read (.ok bytes)) →
      HoldsComplete config key calls (s, pool) bytes) ∧
    ((∃ th ∈ pool, th.prog = .ret (.wrote (.ok none))) → (∀ th ∈ pool, th.prog.result? ≠ none) →
      ∃ bytes, s.stored (keyPath config key) = some bytes ∧
        ∃ call ∈ calls, call.content = .ok bytes) := by
  have hinit : CreateState config key calls (s₀, calls.map (keyThread D config key)) := by
    refine ⟨disciplined_keyThread h₀.valid, ?_, ?_⟩
    · rw [phases_keyThread]
      exact h₀.createInv habsent hkinds
    · rw [phases_keyThread]
      simp [List.map_map, Function.comp_def]
  have hstate := (hinit.reach hr).1
  have hend : ∀ th ∈ pool, ∀ res, th.prog = .ret res → Returned th.phase res := by
    intro th hth res hres
    have hpost := hstate.disciplined th hth
    rw [hres] at hpost
    exact hpost.resolve_left (hstate.inv.base.holds _ (List.mem_map_of_mem hth)).known
  have hnone : ∀ th ∈ pool, th.prog = .ret (.wrote (.ok none)) →
      ∃ bytes, HoldsComplete config key calls (s, pool) bytes := by
    intro th hth hres
    rcases hend th hth _ hres with hcollided | ⟨e, he, hcollision⟩
    · obtain ⟨f, hf⟩ := hstate.inv.collided _ (List.mem_map_of_mem hth) hcollided
      exact ⟨_, hstate.complete hf⟩
    · have hcall : th.phase.call ∈ calls := by
        rw [← hstate.calls]
        exact List.mem_map_of_mem (List.mem_map_of_mem hth)
      rw [herrors _ hcall e he] at hcollision
      cases hcollision
  refine ⟨hnone, fun th hth bytes hres => ?_, fun ⟨th, hth, hres⟩ _ => ?_⟩
  · obtain ⟨f, hf, rfl⟩ := (hstate.inv.reads _ (List.mem_map_of_mem hth)).wholly bytes
      (hend th hth _ hres)
    exact hstate.complete hf
  · obtain ⟨bytes, hstored, i, call, hcall, _, hcontent, _⟩ := hnone th hth hres
    exact ⟨bytes, hstored, call, List.mem_of_getElem? hcall, hcontent⟩

end Runs

def sampleConditional : KeyCall := .putBlobIfNotExists ⟨[.ok [1], .ok [2, 3]], none⟩

/-- A write completes; then another one finds the key taken, and a read collects it. -/
theorem conditional_create_publishes_complete_in_turn : ∃ s pool,
    KeyRuns sampleConfig "k".toList (Server.empty, [sampleConditional, sampleConditional, .getBlob].map
      (keyThread Digest.sha256 sampleConfig "k".toList)) (s, pool) ∧
    (∃ th ∈ pool, th.prog.result? = some (.wrote (.ok none))) ∧
    (∃ th ∈ pool, th.prog.result? = some (.read (.ok [1, 2, 3]))) ∧
    HoldsComplete sampleConfig "k".toList [sampleConditional, sampleConditional, .getBlob] (s, pool)
      [1, 2, 3] := by
  have hreach := sampleRun_reach Undisturbed [sampleConditional, sampleConditional, .getBlob]
    (List.replicate 10 0 ++ List.replicate 4 1 ++ List.replicate 8 2) (by decide +kernel)
  have hend : (∃ th ∈ (sampleRun [sampleConditional, sampleConditional, .getBlob]
        (List.replicate 10 0 ++ List.replicate 4 1 ++ List.replicate 8 2)).2,
        th.prog.result? = some (.wrote (.ok none))) ∧
      ∃ th ∈ (sampleRun [sampleConditional, sampleConditional, .getBlob]
        (List.replicate 10 0 ++ List.replicate 4 1 ++ List.replicate 8 2)).2,
        th.prog.result? = some (.read (.ok [1, 2, 3])) := by
    decide +kernel
  generalize sampleRun [sampleConditional, sampleConditional, .getBlob]
    (List.replicate 10 0 ++ List.replicate 4 1 ++ List.replicate 8 2) = x at hreach hend
  obtain ⟨s, pool⟩ := x
  obtain ⟨hnone, th, hth, hread⟩ := hend
  have hno : ∀ call ∈ [sampleConditional, sampleConditional, KeyCall.getBlob], ∀ e,
      call.content ≠ .error e := by
    intro call hcall e
    fin_cases hcall <;> exact fun he => by cases he
  have hall := conditional_create_publishes_complete Digest.sha256 sampleConfig "k".toList
    [sampleConditional, sampleConditional, .getBlob] Server.empty s pool (begins_empty (by decide))
    rfl (by decide) (fun call hcall e he => absurd he (hno call hcall e)) hreach
  exact ⟨s, pool, hreach, hnone, ⟨th, hth, hread⟩, hall.2.1 th hth _ (eq_ret_of_result? hread)⟩

/-- The second write meets the key that the first one has only created: it is told that the blob
exists, and the first one, whose body fails, then removes the key. -/
theorem conditional_create_loses_key : ∃ s pool,
    Reach (keyDiscipline sampleConfig "k".toList).next Serves (fun _ _ _ => True)
      (Server.empty, [sampleFailing, sampleConditional].map
        (keyThread Digest.sha256 sampleConfig "k".toList)) (s, pool) ∧
    Begins sampleConfig "k".toList Server.empty [sampleFailing, sampleConditional] ∧
    (∃ th ∈ pool, th.prog.result? = some (.wrote (.ok none))) ∧
    (∀ th ∈ pool, th.prog.result? ≠ none) ∧
    s.stored (keyPath sampleConfig "k".toList) = none := by
  have hreach := sampleRun_reach (fun _ _ _ => True) [sampleFailing, sampleConditional]
    (List.replicate 2 0 ++ List.replicate 4 1 ++ List.replicate 8 0) (by decide +kernel)
  have hend : (∃ th ∈ (sampleRun [sampleFailing, sampleConditional]
        (List.replicate 2 0 ++ List.replicate 4 1 ++ List.replicate 8 0)).2,
        th.prog.result? = some (.wrote (.ok none))) ∧
      (∀ th ∈ (sampleRun [sampleFailing, sampleConditional]
        (List.replicate 2 0 ++ List.replicate 4 1 ++ List.replicate 8 0)).2,
        th.prog.result? ≠ none) ∧
      (sampleRun [sampleFailing, sampleConditional]
        (List.replicate 2 0 ++ List.replicate 4 1 ++ List.replicate 8 0)).1.stored
          (keyPath sampleConfig "k".toList) = none := by
    decide +kernel
  generalize sampleRun [sampleFailing, sampleConditional]
    (List.replicate 2 0 ++ List.replicate 4 1 ++ List.replicate 8 0) = x at hreach hend
  obtain ⟨s, pool⟩ := x
  exact ⟨s, pool, hreach, begins_empty (by decide), hend⟩

end GraphqlOrmStorage.Smb
