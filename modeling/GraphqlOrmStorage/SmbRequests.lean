import GraphqlOrmStorage.SmbHolds

/-!
# Requests on one key, one by one

Every request that a call issues in its stage keeps the invariant over all calls.
The server's answer is computed, the stage it leads to is named, and what the call
then has is compared with what it had before.
-/
namespace GraphqlOrmStorage.Smb

open Text Program Program.Prog

section Requests

variable {config : SmbStorageConfig} {key : Str} {s s' : Server} {q : KeyPhase}
  {others : List KeyPhase}


variable {call : KeyCall} {o : Choice}

theorem KeyCall.target_ne (hput : call.isPut = true) :
    call.target config key ≠ keyPath config key := by
  cases call with
  | putBlob uuid body => exact tempPath_ne config uuid key
  | putBlobIfNotExists body => cases hput
  | getBlob => cases hput

theorem KeyCall.target_eq (hput : call.isPut = false) :
    call.target config key = keyPath config key := by
  cases call with
  | putBlob uuid body => cases hput
  | putBlobIfNotExists body => rfl
  | getBlob => rfl

/-- The invariant after a step of the first call. -/
abbrev Next (config : SmbStorageConfig) (key : Str) (s : Server) (o : Choice) (q : KeyPhase)
    (others : List KeyPhase) (c : SmbCall) : Prop :=
  KeyInv config key (s.answer o c).2 (q.advance c (s.answer o c).1 :: others)

theorem next_of_eq {c : SmbCall} {r : SmbCall.Reply c} {stage : KeyStage} (stage' : KeyStage)
    (hans : s.answer o c = (r, s')) (hstage : stage ≠ .lost) (hafter : stage.after c r = stage')
    (hi : KeyInv config key s' (⟨call, stage'⟩ :: others)) :
    Next config key s o ⟨call, stage⟩ others c := by
  have hadv : KeyPhase.advance ⟨call, stage⟩ c r = ⟨call, stage'⟩ := by
    rw [← hafter]
    exact if_neg hstage
  rw [Next, hans, hadv]
  exact hi

theorem KeyInv.next_createFile (hi : KeyInv config key s (⟨call, .idle⟩ :: others))
    (hget : call.isGet = false) :
    Next config key s o ⟨call, .idle⟩ others
      (.createFile (call.target config key) call.isConditional) := by
  have hself := hi.holds _ List.mem_cons_self
  cases hn : s.names (call.target config key) with
  | none =>
    refine next_of_eq (.writing s.handles.length []) (Server.answer_create_absent hn _) (by simp)
      rfl ?_
    have hfresh : ∀ k, (s.create (call.target config key)).file k = some s.handles.length ↔
        some s.handles.length = some k := by
      intro k
      rw [Server.file_create]
      split_ifs with hk
      · simp [hk]
      · constructor
        · exact fun hf => absurd (hi.sound.open_lt k _ hf) (lt_irrefl _)
        · exact fun he => absurd (Option.some.inj he).symm hk
    refine hi.replace rfl (hi.sound.create _) ?_ (fun p hp => ?_) ?_ ?_ (Or.inr ⟨rfl, ?_⟩)
    · refine Holds.of_own rfl (by simp) ?_ (by simp [Server.names_create]) hfresh ?_ ?_
      · simp [Server.create, KeyStage.isMarked]
      · rintro g w he
        cases he
        simp [Server.create]
      · intro g hg
        cases hg
    · refine (hi.holds p (List.mem_cons_of_mem _ hp)).frame_create hn fun hput => ?_
      exact ((List.pairwise_cons.mp hi.apart).1 p hp).targets (Or.inr hput)
    · exact fun f hf => Or.inr (Option.some.inj hf).symm
    · exact fun h hh => Or.inr (Option.some.inj hh).symm
    · intro f _ hkey
      rw [Server.names_create, if_neg, hkey]
      rintro he
      rw [he, hn] at hkey
      cases hkey
  | some f =>
    cases call with
    | getBlob => cases hget
    | putBlob uuid body =>
      rw [hself.bare rfl (Or.inl rfl)] at hn
      cases hn
    | putBlobIfNotExists body =>
      exact next_of_eq .collided (Server.answer_create_taken hn) (by simp) rfl
        (hi.rest rfl rfl rfl rfl (by simp))

/-- What the other calls have is not the mover's file. -/
theorem KeyInv.others_file {f : Handle} (hi : KeyInv config key s (q :: others))
    (hf : q.stage.file? = some f) : ∀ p ∈ others, p.stage.file? ≠ some f :=
  fun p hp => ((List.pairwise_cons.mp hi.apart).1 p hp).files f hf

theorem KeyInv.others_handle {h : Handle} (hi : KeyInv config key s (q :: others))
    (hh : q.stage.handle? = some h) : ∀ p ∈ others, p.stage.handle? ≠ some h :=
  fun p hp => ((List.pairwise_cons.mp hi.apart).1 p hp).handles h hh

/-- One more handle on a file that the call has to itself. -/
theorem KeyInv.reopen {stage stage' : KeyStage} {f : Handle}
    (hi : KeyInv config key s (⟨call, stage⟩ :: others)) (hown : KeyPhase.own? ⟨call, stage⟩ = some f)
    (hhandle : stage.handle? = none) (hown' : KeyPhase.own? ⟨call, stage'⟩ = some f)
    (hmarked : stage'.isMarked = stage.isMarked)
    (hhandle' : stage'.handle? = some s.handles.length)
    (hwriting : ∀ g w, stage' ≠ .writing g w)
    (hwhole : ∀ g, stage'.whole? = some g → stage.whole? = some g) :
    KeyInv config key (s.openOn f) (⟨call, stage'⟩ :: others) := by
  have hself := hi.holds _ List.mem_cons_self
  have hfile := KeyPhase.file?_of_own? hown
  obtain ⟨hpending, hname, hheld⟩ := hself.own hown
  refine hi.replace rfl (hi.sound.openOn hname) ?_ (fun p hp => ?_) ?_ ?_ (Or.inr ⟨?_, ?_⟩)
  · refine Holds.of_own hown' ?_ (hpending.trans hmarked.symm) hname (fun k => ?_) ?_ ?_
    · exact (hself.made f hfile).1.trans_le (by simp)
    · simp only [hhandle']
      rw [Server.file_openOn]
      split_ifs with hk
      · simp [hk]
      · have hno : s.file k ≠ some f := by
          intro hf
          have hk' := (hheld k).mp hf
          rw [hhandle] at hk'
          cases hk'
        simp [hno, Ne.symm hk]
    · exact fun g w hw => absurd hw (hwriting g w)
    · exact fun g hg => hself.whole g (hwhole g hg)
  · refine (hi.holds p (List.mem_cons_of_mem _ hp)).frame_openOn fun hp' => ?_
    exact hi.others_file hfile p hp (KeyPhase.file?_of_own? hp')
  · intro g hg
    rw [KeyPhase.file?_of_own? hown'] at hg
    exact Or.inl (hfile.trans hg)
  · intro k hk
    rw [hhandle'] at hk
    exact Or.inr (Option.some.inj hk).symm
  · rw [(KeyPhase.of_own? config key hown').2.1, (KeyPhase.of_own? config key hown).2.1]
  · exact fun _ _ hn => hn

theorem answer_open_own {access : Access} {f : Handle} (h : Holds config key s q)
    (hown : q.own? = some f) (hmarked : q.stage.isMarked = false) :
    s.answer o (.openExisting (q.call.target config key) access) =
      (.ok (.file s.handles.length), s.openOn f) := by
  obtain ⟨hpending, hname, _⟩ := h.own hown
  exact Server.answer_open_file hname (hpending.trans hmarked) access

theorem KeyInv.next_openExisting {q : KeyPhase} {access : Access}
    (hi : KeyInv config key s (q :: others)) (hopens : q.opens = some access)
    (hread : q.call.isGet = true → q.stage = .idle → ∀ p ∈ others, p.own? = none) :
    Next config key s o q others (.openExisting (q.call.target config key) access) := by
  obtain ⟨call, stage⟩ := q
  have hself := hi.holds _ List.mem_cons_self
  cases stage with
  | window f =>
    refine next_of_eq (.deleting f s.handles.length) (answer_open_own hself rfl rfl) (by simp) rfl ?_
    exact hi.reopen rfl rfl rfl rfl rfl (by simp) (by intro g hg; cases hg)
  | closed f =>
    cases call with
    | putBlob uuid body =>
      refine next_of_eq (.opened f s.handles.length) (answer_open_own hself rfl rfl) (by simp) rfl ?_
      exact hi.reopen rfl rfl rfl rfl rfl (by simp) (fun g hg => hg)
    | putBlobIfNotExists body => cases hopens
    | getBlob => cases hopens
  | removed =>
    cases call with
    | putBlob uuid body =>
      have hn := hself.bare rfl (Or.inr rfl)
      exact next_of_eq .removed (Server.answer_open_absent hn access) (by simp) rfl hi
    | putBlobIfNotExists body => cases hopens
    | getBlob => cases hopens
  | idle =>
    cases call with
    | putBlob uuid body => cases hopens
    | putBlobIfNotExists body => cases hopens
    | getBlob =>
      have hmissing : KeyInv config key s (⟨.getBlob, .missing⟩ :: others) :=
        hi.rest rfl rfl rfl rfl (by simp)
      cases hn : s.names (KeyCall.getBlob.target config key) with
      | none =>
        exact next_of_eq .missing (Server.answer_open_absent hn access) (by simp) rfl hmissing
      | some g =>
        cases hpending : s.pending g with
        | true =>
          exact next_of_eq .missing (Server.answer_open_marked hn hpending access) (by simp) rfl
            hmissing
        | false =>
          refine next_of_eq (.viewing s.handles.length) (Server.answer_open_file hn hpending access)
            (by simp) rfl ?_
          refine hi.replace rfl (hi.sound.openOn hn) ?_ (fun p hp => ?_) ?_ ?_ (Or.inr ⟨rfl, ?_⟩)
          · refine Holds.of_none rfl (by simp) ?_ ?_
            · intro k hk
              obtain rfl := Option.some.inj hk
              exact ⟨g, by rw [Server.file_openOn, if_pos rfl]⟩
            · intro hput
              cases hput
          · refine (hi.holds p (List.mem_cons_of_mem _ hp)).frame_openOn ?_
            rw [hread rfl rfl p hp]
            simp
          · intro f hf
            cases hf
          · exact fun h hh => Or.inr (Option.some.inj hh).symm
          · exact fun _ _ hn => hn
  | _ => cases hopens

theorem KeyPhase.own?_of_isMarked {f : Handle} (hm : q.stage.isMarked = true)
    (hf : q.stage.file? = some f) : q.own? = some f := by
  obtain ⟨call, stage⟩ := q
  cases stage <;> first | exact hf | cases hm

theorem KeyPhase.isMarked_of_published? {f : Handle} (h : q.published? = some f) :
    q.stage.isMarked = false := by
  obtain ⟨call, stage⟩ := q
  cases stage <;> first | rfl | cases h

theorem KeyInv.published_kept {f : Handle} (hi : KeyInv config key s (q :: others))
    (hf : ∃ p ∈ q :: others, p.published? = some f) : s.pending f = false := by
  obtain ⟨p, hp, hpub⟩ := hf
  rw [((hi.holds p hp).made f (KeyPhase.file?_of_published? hpub)).2]
  exact KeyPhase.isMarked_of_published? hpub

/-- Closing the handle that a call holds. -/
theorem KeyInv.shut {stage stage' : KeyStage} {k g : Handle}
    (hi : KeyInv config key s (⟨call, stage⟩ :: others)) (hh : stage.handle? = some k)
    (hk : s.file k = some g) (hq : Holds config key (s.close k) ⟨call, stage'⟩)
    (hfile : ∀ f, stage'.file? = some f → stage.file? = some f) (hhandle : stage'.handle? = none)
    (hpub : KeyPhase.published? ⟨call, stage'⟩ = KeyPhase.published? ⟨call, stage⟩) :
    KeyInv config key (s.close k) (⟨call, stage'⟩ :: others) := by
  refine hi.replace rfl (hi.sound.close hk) hq (fun p hp => ?_) (fun f hf => Or.inl (hfile f hf))
    (by simp [hhandle]) (Or.inr ⟨hpub, fun f hf hn => s.names_close hk hn (hi.published_kept hf)⟩)
  have hold := hi.holds p (List.mem_cons_of_mem _ hp)
  refine hold.frame_close hk (hi.others_handle hh p hp) fun hg => ?_
  rw [(hold.made g hg).2]
  -- A file that another call has marked is open for that call alone.
  by_contra hm
  have hown := KeyPhase.own?_of_isMarked (Bool.not_eq_false _ ▸ hm) hg
  exact hi.others_handle hh p hp (hold.sole g hown k hk)

/-- Closing a file that the call has to itself and keeps. -/
theorem KeyInv.shut_own {stage stage' : KeyStage} {f k : Handle}
    (hi : KeyInv config key s (⟨call, stage⟩ :: others)) (hown : KeyPhase.own? ⟨call, stage⟩ = some f)
    (hh : stage.handle? = some k) (hmarked : stage.isMarked = false)
    (hown' : KeyPhase.own? ⟨call, stage'⟩ = some f) (hmarked' : stage'.isMarked = false)
    (hhandle : stage'.handle? = none) (hwriting : ∀ g w, stage' ≠ .writing g w)
    (hwhole : ∀ g, stage'.whole? = some g → stage.whole? = some g) :
    KeyInv config key (s.close k) (⟨call, stage'⟩ :: others) := by
  have hself := hi.holds _ List.mem_cons_self
  have hfile := KeyPhase.file?_of_own? hown
  obtain ⟨hpending, hname, hheld⟩ := hself.own hown
  have hk : s.file k = some f := (hheld k).mpr hh
  have hpend : s.pending f = false := hpending.trans hmarked
  obtain ⟨hcontent, hpend', _⟩ := s.contents_close hk
  refine hi.shut hh hk ?_ ?_ hhandle ?_
  · refine Holds.of_own hown' ?_ ?_ (s.names_close hk hname hpend) (fun k' => ?_) ?_ ?_
    · rw [s.length_close]
      exact (hself.made f hfile).1
    · rw [hpend']
      exact hpend.trans hmarked'.symm
    · simp only [hhandle]
      rw [s.file_close hk]
      split_ifs with he
      · simp
      · have hno : s.file k' ≠ some f := by
          intro hf
          exact he (Option.some.inj (((hheld k').mp hf).symm.trans hh))
        simp [hno]
    · exact fun g w hw => absurd hw (hwriting g w)
    · intro g hg
      rw [hcontent]
      exact hself.whole g (hwhole g hg)
  · intro g hg
    rw [KeyPhase.file?_of_own? hown'] at hg
    exact hfile.trans hg
  · rw [(KeyPhase.of_own? config key hown').2.1, (KeyPhase.of_own? config key hown).2.1]

theorem KeyStage.isMarked_of_whole? {stage : KeyStage} {f : Handle} (h : stage.whole? = some f) :
    stage.isMarked = false := by
  cases stage <;> first | rfl | cases h

/-- Closing a complete file that the call no longer answers for. -/
theorem KeyInv.shut_whole {stage stage' : KeyStage} {f k : Handle}
    (hi : KeyInv config key s (⟨call, stage⟩ :: others)) (hh : stage.handle? = some k)
    (hwhole : stage.whole? = some f) (hwhole' : stage'.whole? = some f)
    (hpub : KeyPhase.published? ⟨call, stage'⟩ = KeyPhase.published? ⟨call, stage⟩)
    (hhandle : stage'.handle? = none) (hown : KeyPhase.own? ⟨call, stage'⟩ = none)
    (hnamed : KeyPhase.named? config key ⟨call, stage'⟩ = none)
    (hstage : stage' ≠ .lost ∧ stage' ≠ .idle ∧ stage' ≠ .removed ∧ ∀ g w, stage' ≠ .writing g w) :
    KeyInv config key (s.close k) (⟨call, stage'⟩ :: others) := by
  have hself := hi.holds _ List.mem_cons_self
  have hfile := KeyStage.file?_of_whole? hwhole
  have hfile' := KeyStage.file?_of_whole? hwhole'
  obtain ⟨g, hk, hg⟩ := hself.held k hh
  obtain rfl := hg f hfile
  obtain ⟨hcontent, hpend, hhist⟩ := s.contents_close hk
  obtain ⟨hlost, hidle, hremoved, hwriting⟩ := hstage
  refine hi.shut hh hk ⟨hlost, fun g hg => ?_, ?_, ?_, fun _ hs => ?_, ?_, ?_, fun g hg => ?_,
    fun g hg => ?_⟩ (fun g hg => ?_) hhandle hpub
  · obtain rfl := Option.some.inj (hfile'.symm.trans hg)
    obtain ⟨hlt, hp⟩ := hself.made _ hfile
    rw [s.length_close, hpend, hp, KeyStage.isMarked_of_whole? hwhole,
      KeyStage.isMarked_of_whole? hwhole']
    exact ⟨hlt, rfl⟩
  · simp [hhandle]
  · simp [hnamed]
  · exact (hs.elim hidle hremoved).elim
  · simp [hown]
  · exact fun g w hw => absurd hw (hwriting g w)
  · obtain rfl := Option.some.inj (hwhole'.symm.trans hg)
    rw [hcontent]
    exact hself.whole _ hwhole
  · rw [hpub] at hg
    rw [hhist]
    exact hself.noted _ hg
  · obtain rfl := Option.some.inj (hfile'.symm.trans hg)
    exact hfile

theorem KeyInv.next_close {q : KeyPhase} {k : Handle} (hi : KeyInv config key s (q :: others))
    (hcloses : q.closes = some k) : Next config key s o q others (.close k) := by
  obtain ⟨call, stage⟩ := q
  have hself := hi.holds _ List.mem_cons_self
  have hans : s.answer o (.close k) = (.ok (), s.close k) := rfl
  cases stage with
  | writing f | failing f | refused f =>
    obtain rfl := Option.some.inj hcloses
    refine next_of_eq (.window f) hans (by simp) rfl ?_
    exact hi.shut_own rfl rfl rfl rfl rfl rfl (by simp) (by intro g hg; cases hg)
  | flushed f =>
    obtain rfl := Option.some.inj hcloses
    refine next_of_eq (.closed f) hans (by simp) rfl ?_
    cases call with
    | putBlob uuid body =>
      exact hi.shut_own rfl rfl rfl rfl rfl rfl (by simp) (fun g hg => hg)
    | putBlobIfNotExists body => exact hi.shut_whole rfl rfl rfl rfl rfl rfl rfl (by simp)
    | getBlob => exact hi.shut_whole rfl rfl rfl rfl rfl rfl rfl (by simp)
  | renamed f h =>
    obtain rfl := Option.some.inj hcloses
    refine next_of_eq (.stored f) hans (by simp) rfl ?_
    exact hi.shut_whole rfl rfl rfl rfl rfl rfl rfl (by simp)
  | marked f h =>
    obtain rfl := Option.some.inj hcloses
    refine next_of_eq .removed hans (by simp) rfl ?_
    obtain ⟨hpending, hname, hheld⟩ := hself.own rfl
    have hk : s.file h = some f := (hheld h).mpr rfl
    refine hi.shut rfl hk (Holds.of_none rfl (by simp) (by intro g hg; cases hg) fun _ _ => ?_)
      (by intro g hg; cases hg) rfl rfl
    -- The last handle of the marked file goes, and with it the name.
    exact Server.names_close_last hk hpending
      (fun k hk' => Option.some.inj ((hheld k).mp hk').symm) hname
  | reading h size got =>
    simp only [KeyPhase.closes] at hcloses
    split_ifs at hcloses
    obtain rfl := Option.some.inj hcloses
    refine next_of_eq (.collected got) hans (by simp) rfl ?_
    obtain ⟨g, hk, _⟩ := hself.held h rfl
    exact hi.shut rfl hk (Holds.of_none rfl (by simp) (by intro g hg; cases hg) (by simp))
      (by intro g hg; cases hg) rfl rfl
  | _ => cases hcloses

theorem KeyInv.next_dropFile {h : Handle} (hi : KeyInv config key s (⟨call, .stalled h⟩ :: others)) :
    Next config key s o ⟨call, .stalled h⟩ others (.dropFile h) := by
  have hans : s.answer o (.dropFile h) = ((), s.close h) := rfl
  refine next_of_eq .missing hans (by simp) rfl ?_
  obtain ⟨g, hk, _⟩ := (hi.holds _ List.mem_cons_self).held h rfl
  exact hi.shut rfl hk (Holds.of_none rfl (by simp) (by intro g hg; cases hg) (by simp))
    (by intro g hg; cases hg) rfl rfl

/-- A step on a file that the call has to itself and holds open. -/
theorem KeyInv.touch_own {stage stage' : KeyStage} {f : Handle}
    (hi : KeyInv config key s (⟨call, stage⟩ :: others)) (hown : KeyPhase.own? ⟨call, stage⟩ = some f)
    (hown' : KeyPhase.own? ⟨call, stage'⟩ = some f) (hhandle : stage'.handle? = stage.handle?)
    (hsound : Sound s') (hframe : ∀ p ∈ others, Frame config key s s' p)
    (hnames : s'.names = s.names) (hhandles : s'.handles = s.handles)
    (hpending : s'.pending f = stage'.isMarked)
    (hwrote : ∀ g w, stage' = .writing g w → s'.content g = w)
    (hwhole : ∀ g, stage'.whole? = some g → call.content = .ok (s'.content g)) :
    KeyInv config key s' (⟨call, stage'⟩ :: others) := by
  have hself := hi.holds _ List.mem_cons_self
  have hfile := KeyPhase.file?_of_own? hown
  obtain ⟨_, hname, hheld⟩ := hself.own hown
  have hsame : ∀ k, s'.file k = s.file k := by
    intro k
    rw [Server.file, Server.file, hhandles]
  refine hi.replace rfl hsound ?_ hframe (fun g hg => ?_) (fun k hk => ?_) (Or.inr ⟨?_, ?_⟩)
  · refine Holds.of_own hown' ?_ hpending (by rw [hnames]; exact hname) (fun k => ?_) hwrote hwhole
    · rw [hhandles]
      exact (hself.made f hfile).1
    · rw [hsame, hheld]
      simp only [hhandle]
  · rw [KeyPhase.file?_of_own? hown'] at hg
    exact Or.inl (hfile.trans hg)
  · exact Or.inl (hhandle ▸ hk)
  · rw [(KeyPhase.of_own? config key hown').2.1, (KeyPhase.of_own? config key hown).2.1]
  · intro f _ hn
    rw [hnames]
    exact hn

theorem KeyInv.next_setDelete {f h : Handle}
    (hi : KeyInv config key s (⟨call, .deleting f h⟩ :: others)) :
    Next config key s o ⟨call, .deleting f h⟩ others (.setDelete h) := by
  obtain ⟨_, _, hheld⟩ := (hi.holds _ List.mem_cons_self).own rfl
  refine next_of_eq (.marked f h) (Server.answer_setDelete ((hheld h).mpr rfl)) (by simp) rfl ?_
  refine hi.touch_own rfl rfl rfl (hi.sound.mark f) (fun p hp => ?_) rfl rfl ?_ ?_ ?_
  · exact (hi.holds p (List.mem_cons_of_mem _ hp)).frame_mark (hi.others_file rfl p hp)
  · simp [Server.mark, KeyStage.isMarked]
  · intro g w hw
    cases hw
  · intro g hg
    cases hg

theorem KeyInv.fail {f : Handle} {w : Bytes} (hi : KeyInv config key s (⟨call, .writing f w⟩ :: others))
    (hsound : Sound s') (hframe : ∀ p ∈ others, Frame config key s s' p)
    (hnames : s'.names = s.names) (hhandles : s'.handles = s.handles)
    (hpending : s'.pending = s.pending) :
    KeyInv config key s' (⟨call, .failing f⟩ :: others) := by
  refine hi.touch_own rfl rfl rfl hsound hframe hnames hhandles ?_ ?_ ?_
  · rw [hpending]
    exact ((hi.holds _ List.mem_cons_self).own rfl).1
  · intro g w hw
    cases hw
  · intro g hg
    cases hg

theorem KeyInv.next_writeBlock {f : Handle} {w bytes : Bytes}
    (hi : KeyInv config key s (⟨call, .writing f w⟩ :: others)) :
    Next config key s o ⟨call, .writing f w⟩ others (.writeBlock f bytes w.length) := by
  have hself := hi.holds _ List.mem_cons_self
  obtain ⟨hpending, hname, hheld⟩ := hself.own rfl
  have hfile : s.file f = some f := (hheld f).mpr rfl
  have hcontent : writeAt (s.content f) w.length (bytes.take o.count) = w ++ bytes.take o.count := by
    rw [hself.wrote f w rfl, writeAt_end]
  have hframe : ∀ b, ∀ p ∈ others, Frame config key s (s.setContent f b) p := fun b p hp =>
    (hi.holds p (List.mem_cons_of_mem _ hp)).frame_setContent (hi.others_file rfl p hp) b
  by_cases hbig : maxOffset < w.length + (bytes.take o.count).length
  · have hans : s.answer o (.writeBlock f bytes w.length) =
        (.error (.failed ⟨.fileTooLarge, o.text⟩), s) := by
      simp only [Server.answer, hfile, hbig, if_true]
    refine next_of_eq (.failing f) hans (by simp) rfl (hi.fail hi.sound ?_ rfl rfl rfl)
    exact fun p hp => (hi.holds p (List.mem_cons_of_mem _ hp)).frame_self
  · have hsound : Sound (s.setContent f (w ++ bytes.take o.count)) :=
      hi.sound.setContent f (by rw [List.length_append]; omega)
    have hfail := hi.fail hsound (hframe _) rfl rfl rfl
    cases hfault : o.fault with
    | some e =>
      have hans : s.answer o (.writeBlock f bytes w.length) =
          (.error e, s.setContent f (w ++ bytes.take o.count)) := by
        simp only [Server.answer, hfile, hbig, if_false, hfault, hcontent]
      exact next_of_eq (.failing f) hans (by simp) rfl hfail
    | none =>
      have hans : s.answer o (.writeBlock f bytes w.length) =
          (.ok (bytes.take o.count).length, s.setContent f (w ++ bytes.take o.count)) := by
        simp only [Server.answer, hfile, hbig, if_false, hfault, hcontent]
      by_cases hzero : (bytes.take o.count).length = 0
      · refine next_of_eq (.failing f) hans (by simp) ?_ hfail
        simp only [KeyStage.after, hzero, if_true]
      · have hle : (bytes.take o.count).length ≤ bytes.length := List.length_take_le' _ _
        have htake : bytes.take (bytes.take o.count).length = bytes.take o.count := by
          rw [List.length_take, List.take_eq_take_iff]
          omega
        refine next_of_eq (.writing f (w ++ bytes.take o.count)) hans (by simp) ?_ ?_
        · simp only [KeyStage.after, hzero, if_false, htake]
          exact if_pos ⟨hle, not_lt.mp hbig⟩
        · refine hi.touch_own rfl rfl rfl hsound (hframe _) rfl rfl hpending ?_ ?_
          · intro g w' hw
            cases hw
            simp [Server.setContent]
          · intro g hg
            cases hg

/-- A named file is in the history. -/
theorem Sound.mem_history (h : Sound s) {p : Str} {f : Handle} (hn : s.names p = some f) :
    (p, f) ∈ s.history := by
  obtain ⟨⟨p', f'⟩, hfind, rfl⟩ := Option.map_eq_some_iff.mp (h.latest p f hn)
  have hp := List.find?_some hfind
  simp only [decide_eq_true_eq] at hp
  exact hp ▸ List.mem_of_find?_eq_some hfind

theorem KeyInv.next_flush {f : Handle} {w : Bytes}
    (hi : KeyInv config key s (⟨call, .writing f w⟩ :: others)) (hc : call.content = .ok w) :
    Next config key s o ⟨call, .writing f w⟩ others (.flush f) := by
  have hself := hi.holds _ List.mem_cons_self
  obtain ⟨hpending, hname, hheld⟩ := hself.own rfl
  have hfile : s.file f = some f := (hheld f).mpr rfl
  have hframe : ∀ p ∈ others, Frame config key s s p := fun p hp =>
    (hi.holds p (List.mem_cons_of_mem _ hp)).frame_self
  cases hfault : o.fault with
  | some e =>
    exact next_of_eq (.failing f) (Server.answer_flush_fault hfile hfault) (by simp) rfl
      (hi.fail hi.sound hframe rfl rfl rfl)
  | none =>
    refine next_of_eq (.flushed f) (Server.answer_flush hfile hfault) (by simp) rfl ?_
    have hcontent : call.content = .ok (s.content f) := by rw [hc, hself.wrote f w rfl]
    have hwhole : ∀ g, (KeyStage.flushed f).whole? = some g → call.content = .ok (s.content g) := by
      intro g hg
      obtain rfl := Option.some.inj hg
      exact hcontent
    cases hput : call.isPut with
    | true =>
      have hown : KeyPhase.own? ⟨call, .flushed f⟩ = some f := if_pos hput
      exact hi.touch_own rfl hown rfl hi.sound hframe rfl rfl hpending (by simp) hwhole
    | false =>
      have hkey : s.names (keyPath config key) = some f := by
        rw [← KeyCall.target_eq hput]
        exact hname
      have hpub : KeyPhase.published? ⟨call, .flushed f⟩ = some f := by simp [KeyPhase.published?, hput]
      have hown : KeyPhase.own? ⟨call, .flushed f⟩ = none := by simp [KeyPhase.own?, hput]
      refine hi.restage rfl ⟨by simp, fun g hg => ?_, fun k hk => ?_, fun p g hg => ?_, by simp,
        by simp [hown], by simp, hwhole, fun g hg => ?_⟩ (fun g hg => hg) (fun k hk => hk)
        (Or.inl ⟨f, hpub, hkey⟩)
      · exact hself.made g hg
      · exact hself.held k hk
      · exact hself.named p g hg
      · obtain rfl := Option.some.inj (hpub.symm.trans hg)
        exact hi.sound.mem_history hkey

/-- Whoever counts on the name of the key has its file open, or is in the window. -/
theorem Holds.key_open {f : Handle} (h : Holds config key s q)
    (hn : q.named? config key = some (keyPath config key, f)) (hw : q.inWindow = false) :
    some f ∈ s.handles := by
  have hfile := KeyPhase.file?_of_named? hn
  have hhandle : q.stage.handle? ≠ none := by
    obtain ⟨call, stage⟩ := q
    cases stage with
    | window g =>
      have hput : call.isPut = true := by simpa [KeyPhase.inWindow] using hw
      exact absurd (Prod.mk.inj (Option.some.inj hn)).1 (KeyCall.target_ne hput)
    | closed g =>
      simp only [KeyPhase.named?] at hn
      split_ifs at hn with hput
      exact absurd (Prod.mk.inj (Option.some.inj hn)).1 (KeyCall.target_ne hput)
    | _ => first | exact Option.some_ne_none _ | cases hn
  obtain ⟨k, hk⟩ := Option.ne_none_iff_exists'.mp hhandle
  obtain ⟨g, hg, he⟩ := h.held k hk
  exact Server.mem_handles.mpr ⟨k, he f hfile ▸ hg⟩

theorem KeyInv.next_setRename {f h : Handle}
    (hi : KeyInv config key s (⟨call, .opened f h⟩ :: others))
    (hwindow : ∀ p ∈ others, p.inWindow = false) :
    Next config key s o ⟨call, .opened f h⟩ others (.setRename h (keyPath config key) true) := by
  have hself := hi.holds _ List.mem_cons_self
  obtain ⟨hpending, hname, hheld⟩ := hself.own rfl
  have hfile : s.file h = some f := (hheld h).mpr rfl
  -- A rename goes through when nobody has the old file open.
  have hrename : (∀ g, s.names (keyPath config key) = some g → some g ∉ s.handles) →
      KeyInv config key (s.rename f (keyPath config key)) (⟨call, .renamed f h⟩ :: others) := by
    intro hfree
    have hkey : (s.rename f (keyPath config key)).names (keyPath config key) = some f := by
      simp [Server.names_rename]
    refine hi.replace rfl (hi.sound.rename hfile _) ⟨by simp, hself.made, hself.held, ?_, by simp,
      by simp [KeyPhase.own?], by simp, hself.whole, ?_⟩ (fun p hp => ?_) (fun g hg => Or.inl hg)
      (fun k hk => Or.inl hk) (Or.inl ⟨f, rfl, hkey⟩)
    · intro p g hg
      obtain ⟨rfl, rfl⟩ := Prod.mk.inj (Option.some.inj hg)
      exact hkey
    · intro g hg
      obtain rfl := Option.some.inj hg
      exact List.mem_cons_self
    · have hold := hi.holds p (List.mem_cons_of_mem _ hp)
      refine hold.frame_rename (hi.others_file rfl p hp) (fun g hg => ?_) fun hp' => ?_
      · exact hfree g (hold.named _ _ hg) (hold.key_open hg (hwindow p hp))
      · exact (KeyCall.target_ne hp').symm
  cases hn : s.names (keyPath config key) with
  | none =>
    have hans : s.answer o (.setRename h (keyPath config key) true) =
        (.ok (), s.rename f (keyPath config key)) := by
      simp only [Server.answer, hfile, hn]
    exact next_of_eq (.renamed f h) hans (by simp) rfl (hrename (by simp [hn]))
  | some g =>
    by_cases hopen : some g ∈ s.handles
    · have hans : s.answer o (.setRename h (keyPath config key) true) =
          (.error (statusError o .accessDenied), s) := by
        simp only [Server.answer, hfile, hn, hopen, if_true]
        rfl
      refine next_of_eq (.refused f h) hans (by simp) rfl ?_
      refine hi.touch_own rfl rfl rfl hi.sound (fun p hp => ?_) rfl rfl hpending (by simp) hself.whole
      exact (hi.holds p (List.mem_cons_of_mem _ hp)).frame_self
    · have hans : s.answer o (.setRename h (keyPath config key) true) =
          (.ok (), s.rename f (keyPath config key)) := by
        simp only [Server.answer, hfile, hn, hopen, if_false]
        rfl
      refine next_of_eq (.renamed f h) hans (by simp) rfl (hrename fun g' hg' => ?_)
      obtain rfl := Option.some.inj (hn.symm.trans hg')
      exact hopen

theorem KeyInv.look {stage stage' : KeyStage} {h : Handle}
    (hi : KeyInv config key s (⟨call, stage⟩ :: others)) (hfile : stage.file? = none)
    (hhandle : stage.handle? = some h) (hfile' : stage'.file? = none)
    (hhandle' : stage'.handle? = some h) :
    KeyInv config key s (⟨call, stage'⟩ :: others) := by
  have hself := hi.holds _ List.mem_cons_self
  have hnone : ∀ st : KeyStage, st.file? = none → KeyPhase.published? ⟨call, st⟩ = none := by
    intro st hst
    by_contra hne
    obtain ⟨f, hf⟩ := Option.ne_none_iff_exists'.mp hne
    exact absurd (hst.symm.trans (KeyPhase.file?_of_published? hf)) (by simp)
  refine hi.restage rfl (Holds.of_none hfile' ?_ ?_ ?_) (by simp [hfile']) ?_
    (Or.inr ((hnone _ hfile').trans (hnone _ hfile).symm))
  · rintro rfl
    cases hhandle'
  · intro k hk
    obtain rfl := Option.some.inj (hhandle'.symm.trans hk)
    obtain ⟨g, hg, _⟩ := hself.held h hhandle
    exact ⟨g, hg⟩
  · rintro _ (rfl | rfl) <;> cases hhandle'
  · intro k hk
    exact hhandle.trans (hhandle'.symm.trans hk)

theorem KeyInv.next_queryInfo {h : Handle} (hi : KeyInv config key s (⟨call, .viewing h⟩ :: others)) :
    Next config key s o ⟨call, .viewing h⟩ others (.queryInfo h) := by
  obtain ⟨g, hg, _⟩ := (hi.holds _ List.mem_cons_self).held h rfl
  exact next_of_eq (.reading h (s.content g).length []) (Server.answer_queryInfo hg) (by simp)
    (if_pos (hi.sound.short g)) (hi.look rfl rfl rfl rfl)

theorem KeyInv.next_readBlock {h : Handle} {size length : ℕ} {got : Bytes}
    (hi : KeyInv config key s (⟨call, .reading h size got⟩ :: others)) :
    Next config key s o ⟨call, .reading h size got⟩ others (.readBlock h length got.length) := by
  obtain ⟨g, hg, _⟩ := (hi.holds _ List.mem_cons_self).held h rfl
  have hans := Server.answer_readBlock (o := o) hg length got.length
  by_cases hnil : ((s.content g).drop got.length).take (min o.count length) = []
  · refine next_of_eq (.stalled h) hans (by simp) ?_ (hi.look rfl rfl rfl rfl)
    simp only [KeyStage.after, hnil, if_true]
  · refine next_of_eq
      (.reading h size (got ++ ((s.content g).drop got.length).take (min o.count length))) hans
      (by simp) ?_ (hi.look rfl rfl rfl rfl)
    simp only [KeyStage.after, hnil, if_false]
    refine if_pos ?_
    rw [List.length_take]
    omega

/-- Any request of any call keeps the invariant, as long as no rename goes over the name that a
failed write still counts on, and no read opens a file that a call has to itself. -/
theorem KeyInv.step {c : SmbCall} {r : SmbCall.Reply c} (hi : KeyInv config key s (q :: others))
    (hissues : (keyDiscipline config key).allowed q c) (hserves : Serves s c r s')
    (hrename : (∃ h path replace, c = .setRename h path replace) → ∀ p ∈ others, p.inWindow = false)
    (hread : q.call.isGet = true → q.stage = .idle → (∃ path access, c = .openExisting path access) →
      ∀ p ∈ others, p.own? = none) :
    KeyInv config key s' (q.advance c r :: others) := by
  obtain ⟨o, rfl, rfl⟩ := hserves
  have hissues : q.Issues config key c :=
    hissues.resolve_left (hi.holds q List.mem_cons_self).known
  obtain ⟨call, stage⟩ := q
  have hsame : KeyPhase.advance ⟨call, stage⟩ = fun c r => ⟨call, stage.after c r⟩ := by
    funext c r
    exact if_neg (hi.holds _ List.mem_cons_self).known
  cases c with
  | acquirePermit => rw [hsame]; exact hi
  | releasePermit => rw [hsame]; exact hi
  | createDirectory path => rw [hsame]; exact hi
  | closeResource h => rw [hsame]; exact hi
  | reconnect => rw [hsame]; exact hi
  | createFile path exclusive =>
    obtain ⟨rfl, rfl, hget, rfl⟩ := hissues
    exact hi.next_createFile hget
  | openExisting path access =>
    obtain ⟨rfl, hopens⟩ := hissues
    exact hi.next_openExisting hopens fun hg hs => hread hg hs ⟨_, _, rfl⟩
  | close h => exact hi.next_close hissues
  | dropFile h =>
    obtain rfl : stage = .stalled h := hissues
    exact hi.next_dropFile
  | queryInfo h =>
    obtain rfl : stage = .viewing h := hissues
    exact hi.next_queryInfo
  | setRename h path replace =>
    obtain ⟨rfl, rfl, _, f, hstage⟩ := hissues
    obtain rfl : stage = .opened f h := hstage
    exact hi.next_setRename (hrename ⟨_, _, _, rfl⟩)
  | setDelete h =>
    obtain ⟨f, hstage⟩ := hissues
    obtain rfl : stage = .deleting f h := hstage
    exact hi.next_setDelete
  | writeBlock h bytes offset =>
    obtain ⟨w, hstage, rfl⟩ := hissues
    obtain rfl : stage = .writing h w := hstage
    exact hi.next_writeBlock
  | flush h =>
    obtain ⟨w, hstage, hc⟩ := hissues
    obtain rfl : stage = .writing h w := hstage
    exact hi.next_flush hc
  | readBlock h length offset =>
    obtain ⟨size, got, hstage, rfl⟩ := hissues
    obtain rfl : stage = .reading h size got := hstage
    exact hi.next_readBlock

end Requests

end GraphqlOrmStorage.Smb
