import GraphqlOrmStorage.SmbStages

/-!
# What a call has on the server

Any number of calls work on one key, one request at a time in any order. Each call
answers for what it has on the server: the file it created, the handle it holds and
the name it still counts on (`Holds`). What one call does leaves what the others
hold alone (`Frame`), with one exception: a failed conditional write counts on its
name after it has closed the file, and a rename may take that name away.
-/
namespace GraphqlOrmStorage.Smb

open Text Program Program.Prog

/-! ### Paths of the calls -/

section Paths

variable (config : SmbStorageConfig)

theorem tempBeside_eq (key : Str) : ∃ front name, key.length ≤ front.length + name.length + 1 ∧
    ∀ uuid, tempBeside uuid key = front ++ tempName uuid name := by
  obtain ⟨parent, name, hs, hlen⟩ : ∃ parent name,
      (rsplitOnce '/' key).getD ([], key) = (parent, name) ∧
      key.length ≤ parent.length + name.length + 1 := by
    cases hr : rsplitOnce '/' key with
    | none => exact ⟨[], key, rfl, by simp⟩
    | some x =>
      obtain ⟨parent, name⟩ := x
      obtain ⟨rfl, _⟩ := rsplitOnce_eq_some.mp hr
      exact ⟨parent, name, rfl, by simp; omega⟩
  by_cases hp : parent = []
  · subst hp
    exact ⟨[], name, hlen, fun uuid => by simp [tempBeside, hs]⟩
  · refine ⟨parent ++ ['/'], name, by simp; omega, fun uuid => ?_⟩
    simp [tempBeside, hs, hp]

/-- A temporary file is not the key itself. -/
theorem tempPath_ne (uuid : Uuid) (key : Str) :
    keyPath config (tempBeside uuid key) ≠ keyPath config key := by
  obtain ⟨front, name, hlen, htemp⟩ := tempBeside_eq key
  intro he
  have hl := congrArg List.length he
  simp only [keyPath, replaceChar, List.length_map, htemp, belowRoot] at hl
  cases hr : config.rootPrefix with
  | none =>
    simp only [hr, tempName, List.length_append, List.length_cons, uuid.length_toStr] at hl
    omega
  | some pre =>
    simp only [hr, tempName, List.length_append, List.length_cons, uuid.length_toStr] at hl
    omega

/-- Different identifiers give different temporary files. -/
theorem tempPath_injective (key : Str) :
    Function.Injective fun uuid => keyPath config (tempBeside uuid key) := by
  obtain ⟨front, name, _, htemp⟩ := tempBeside_eq key
  have hplain : ∀ u : Uuid, u.toStr.map (fun c => if c = '/' then '\\' else c) = u.toStr := by
    intro u
    refine (List.map_congr_left fun c hc => ?_).trans (List.map_id _)
    have hne : c ≠ '/' := fun h => u.not_mem_toStr (c := '/') (by decide) (h ▸ hc)
    exact if_neg hne
  intro u u' he
  apply Uuid.toStr_injective
  cases hr : config.rootPrefix <;>
    simpa [keyPath, belowRoot, hr, htemp, tempName, replaceChar, hplain] using he

end Paths

/-! ### Files, handles and names of a stage -/

namespace KeyStage

/-- The file that the call created. -/
def file? : KeyStage → Option Handle
  | writing f _ | failing f | flushed f | closed f | window f | deleting f _ | marked f _
  | opened f _ | renamed f _ | refused f _ | stored f => some f
  | _ => none

/-- The handle that the call holds. -/
def handle? : KeyStage → Option Handle
  | writing f _ | failing f | flushed f => some f
  | deleting _ h | marked _ h | opened _ h | renamed _ h | refused _ h => some h
  | viewing h | reading h _ _ | stalled h => some h
  | _ => none

def isMarked : KeyStage → Bool
  | marked _ _ => true
  | _ => false

/-- The file holds the whole body. -/
def whole? : KeyStage → Option Handle
  | flushed f | closed f | opened f _ | renamed f _ | refused f _ | stored f => some f
  | _ => none

end KeyStage

namespace KeyPhase

/-- The file that only this call may have open. -/
def own? (q : KeyPhase) : Option Handle :=
  match q.stage with
  | .writing f _ | .failing f | .window f | .deleting f _ | .marked f _ | .opened f _
  | .refused f _ => some f
  | .flushed f | .closed f => if q.call.isPut then some f else none
  | _ => none

/-- The name that the call counts on. -/
def named? (config : SmbStorageConfig) (key : Str) (q : KeyPhase) : Option (Str × Handle) :=
  match q.stage with
  | .writing f _ | .failing f | .flushed f | .window f | .deleting f _ | .marked f _ | .opened f _
  | .refused f _ => some (q.call.target config key, f)
  | .closed f => if q.call.isPut then some (q.call.target config key, f) else none
  | .renamed f _ => some (keyPath config key, f)
  | _ => none

/-- The complete file that the call has put under the key. -/
def published? (q : KeyPhase) : Option Handle :=
  match q.stage with
  | .flushed f | .closed f => if q.call.isPut then none else some f
  | .renamed f _ | .stored f => some f
  | _ => none

/-- A call on the key itself that has created it and has neither completed nor removed it. -/
def unsettled (q : KeyPhase) : Bool := !q.call.isPut && q.own?.isSome

/-- A failed write of the key itself has closed its file, and the key is still there. -/
def inWindow (q : KeyPhase) : Bool :=
  match q.stage with
  | .window _ => !q.call.isPut
  | _ => false

end KeyPhase

section Invariant

variable (config : SmbStorageConfig) (key : Str)

/-- A consistent server. -/
structure Sound (s : Server) : Prop where
  named_lt : ∀ p f, s.names p = some f → f < s.handles.length
  open_lt : ∀ h f, s.file h = some f → f < s.handles.length
  short : ∀ f, (s.content f).length ≤ maxOffset
  latest : ∀ p f, s.names p = some f → s.latest p = some f

/-- What the server has for a call in its stage. -/
structure Holds (s : Server) (q : KeyPhase) : Prop where
  known : q.stage ≠ .lost
  made : ∀ f, q.stage.file? = some f →
    f < s.handles.length ∧ s.pending f = q.stage.isMarked
  held : ∀ h, q.stage.handle? = some h →
    ∃ g, s.file h = some g ∧ ∀ f, q.stage.file? = some f → g = f
  named : ∀ p f, q.named? config key = some (p, f) → s.names p = some f
  bare : q.call.isPut = true → q.stage = .idle ∨ q.stage = .removed →
    s.names (q.call.target config key) = none
  sole : ∀ f, q.own? = some f → ∀ h, s.file h = some f → q.stage.handle? = some h
  wrote : ∀ f w, q.stage = .writing f w → s.content f = w
  whole : ∀ f, q.stage.whole? = some f → q.call.content = .ok (s.content f)
  noted : ∀ f, q.published? = some f → (keyPath config key, f) ∈ s.history

/-- Two calls share neither files nor handles nor temporary names. -/
structure Apart (q q' : KeyPhase) : Prop where
  files : ∀ f, q.stage.file? = some f → q'.stage.file? ≠ some f
  handles : ∀ h, q.stage.handle? = some h → q'.stage.handle? ≠ some h
  targets : q.call.isPut = true ∨ q'.call.isPut = true →
    q.call.target config key ≠ q'.call.target config key

/-- The key names a complete file that one of the calls published. -/
def Current (s : Server) (phases : List KeyPhase) : Prop :=
  ∃ p ∈ phases, ∃ f, p.published? = some f ∧ s.names (keyPath config key) = some f

structure KeyInv (s : Server) (phases : List KeyPhase) : Prop where
  sound : Sound s
  holds : ∀ q ∈ phases, Holds config key s q
  apart : phases.Pairwise (Apart config key)
  current : (∃ q ∈ phases, q.published? ≠ none) → Current config key s phases

/-- A step that leaves everything alone that a call has. -/
structure Frame (s s' : Server) (q : KeyPhase) : Prop where
  grows : s.handles.length ≤ s'.handles.length
  held : ∀ h, q.stage.handle? = some h → s'.file h = s.file h
  named : ∀ p f, q.named? config key = some (p, f) → s'.names p = some f
  bare : q.call.isPut = true → q.stage = .idle ∨ q.stage = .removed →
    s'.names (q.call.target config key) = none
  kept : ∀ f, q.stage.file? = some f → s'.content f = s.content f ∧ s'.pending f = s.pending f
  sole : ∀ f, q.own? = some f → ∀ h, s'.file h = some f → s.file h = some f
  noted : ∀ x ∈ s.history, x ∈ s'.history

end Invariant

section Steps

variable {config : SmbStorageConfig} {key : Str} {s s' : Server} {q q' : KeyPhase}
  {others : List KeyPhase}

theorem Apart.symm (h : Apart config key q q') : Apart config key q' q where
  files f hf hf' := h.files f hf' hf
  handles k hk hk' := h.handles k hk' hk
  targets hp := (h.targets hp.symm).symm

theorem KeyStage.file?_of_whole? {stage : KeyStage} {f : Handle} (h : stage.whole? = some f) :
    stage.file? = some f := by
  cases stage <;> first | exact h | cases h

theorem KeyPhase.file?_of_own? {f : Handle} (h : q.own? = some f) : q.stage.file? = some f := by
  obtain ⟨call, stage⟩ := q
  cases stage <;> simp only [own?] at h <;> first | exact h | cases h | skip
  all_goals split_ifs at h; exact h

theorem KeyPhase.whole?_of_published? {f : Handle} (h : q.published? = some f) :
    q.stage.whole? = some f := by
  obtain ⟨call, stage⟩ := q
  cases stage <;> simp only [published?] at h <;> first | exact h | cases h | skip
  all_goals split_ifs at h; exact h

theorem KeyPhase.file?_of_published? {f : Handle} (h : q.published? = some f) :
    q.stage.file? = some f :=
  KeyStage.file?_of_whole? (whole?_of_published? h)

theorem KeyPhase.file?_of_named? {p : Str} {f : Handle} (h : q.named? config key = some (p, f)) :
    q.stage.file? = some f := by
  obtain ⟨call, stage⟩ := q
  have hsnd : ∀ (p' : Str) (g : Handle), some (p', g) = some (p, f) → some g = some f := by
    intro p' g he
    rw [(Prod.mk.inj (Option.some.inj he)).2]
  cases stage <;> simp only [named?] at h <;> first | exact hsnd _ _ h | cases h | skip
  split_ifs at h
  exact hsnd _ _ h

theorem Holds.frame (h : Holds config key s q) (hf : Frame config key s s' q) :
    Holds config key s' q where
  known := h.known
  made f hfile := by
    obtain ⟨hlt, hp⟩ := h.made f hfile
    exact ⟨hlt.trans_le hf.grows, (hf.kept f hfile).2.trans hp⟩
  held k hk := by
    rw [hf.held k hk]
    exact h.held k hk
  named := hf.named
  bare := hf.bare
  sole f hown k hk := h.sole f hown k (hf.sole f hown k hk)
  wrote f w hw := by
    rw [(hf.kept f (by rw [hw]; rfl)).1]
    exact h.wrote f w hw
  whole f hw := by
    rw [(hf.kept f (KeyStage.file?_of_whole? hw)).1]
    exact h.whole f hw
  noted f hp := hf.noted _ (h.noted f hp)

/-! Steps of one call leave alone what another one has. -/

theorem Holds.frame_self (h : Holds config key s q) : Frame config key s s q where
  grows := le_rfl
  held _ _ := rfl
  named := h.named
  bare := h.bare
  kept _ _ := ⟨rfl, rfl⟩
  sole _ _ _ hk := hk
  noted _ hx := hx

theorem Holds.frame_create (h : Holds config key s q) {path : Str} (hn : s.names path = none)
    (ht : q.call.isPut = true → path ≠ q.call.target config key) :
    Frame config key s (s.create path) q where
  grows := by simp
  held k hk := by
    obtain ⟨g, hg, _⟩ := h.held k hk
    rw [Server.file_create, if_neg (Server.file_lt hg).ne]
  named p f hp := by
    have hname := h.named p f hp
    have hne : p ≠ path := by
      rintro rfl
      rw [hn] at hname
      cases hname
    rw [Server.names_create, if_neg hne, hname]
  bare hput hs := by
    rw [Server.names_create, if_neg (ht hput).symm]
    exact h.bare hput hs
  kept f hf := by
    have hne := (h.made f hf).1.ne
    exact ⟨Function.update_of_ne hne _ _, Function.update_of_ne hne _ _⟩
  sole f hf k hk := by
    have hne := (h.made f (KeyPhase.file?_of_own? hf)).1.ne
    rw [Server.file_create] at hk
    split_ifs at hk
    · exact absurd (Option.some.inj hk).symm hne
    · exact hk
  noted x hx := List.mem_cons_of_mem _ hx

theorem Holds.frame_openOn (h : Holds config key s q) {g : Handle} (hg : q.own? ≠ some g) :
    Frame config key s (s.openOn g) q where
  grows := by simp
  held k hk := by
    obtain ⟨_, hf, _⟩ := h.held k hk
    rw [Server.file_openOn, if_neg (Server.file_lt hf).ne]
  named := h.named
  bare := h.bare
  kept _ _ := ⟨rfl, rfl⟩
  sole f hf k hk := by
    rw [Server.file_openOn] at hk
    split_ifs at hk
    · exact absurd (Option.some.inj hk ▸ hf) hg
    · exact hk
  noted _ hx := hx

theorem Holds.frame_close (h : Holds config key s q) {k g : Handle} (hk : s.file k = some g)
    (hh : q.stage.handle? ≠ some k) (hg : q.stage.file? = some g → s.pending g = false) :
    Frame config key s (s.close k) q := by
  have hfile := s.file_close hk
  have hrest : ∀ names', (∀ p f, q.named? config key = some (p, f) → names' p = some f) →
      (∀ p, s.names p = none → names' p = none) →
      s.close k = { s with handles := s.handles.set k none, names := names' } →
      Frame config key s (s.close k) q := by
    intro names' hn hb hc
    refine ⟨by rw [hc]; simp, fun h' hh' => ?_, fun p f hp => ?_, fun hput hs => ?_, fun f hf => ?_,
      fun f hf h' hh' => ?_, fun x hx => ?_⟩
    · rw [hfile, if_neg]
      rintro rfl
      exact hh hh'
    · rw [hc]
      exact hn p f hp
    · rw [hc]
      exact hb _ (h.bare hput hs)
    · rw [hc]
      exact ⟨rfl, rfl⟩
    · rw [hfile] at hh'
      split_ifs at hh'
      exact hh'
    · rw [hc]
      exact hx
  rcases s.close_cases hk with ⟨hp, _, hc⟩ | ⟨_, hc⟩
  · refine hrest _ (fun p f hname => ?_) (fun p hn => ?_) hc
    · have hne : f ≠ g := by
        rintro rfl
        rw [hg (KeyPhase.file?_of_named? hname)] at hp
        cases hp
      simp [Server.unname, h.named p f hname, hne]
    · simp [Server.unname, hn]
  · exact hrest _ h.named (fun _ hn => hn) hc

theorem Holds.frame_mark (h : Holds config key s q) {g : Handle} (hg : q.stage.file? ≠ some g) :
    Frame config key s (s.mark g) q where
  grows := le_rfl
  held _ _ := rfl
  named := h.named
  bare := h.bare
  kept f hf := by
    refine ⟨rfl, Function.update_of_ne ?_ _ _⟩
    rintro rfl
    exact hg hf
  sole _ _ _ hk := hk
  noted _ hx := hx

theorem Holds.frame_setContent (h : Holds config key s q) {g : Handle}
    (hg : q.stage.file? ≠ some g) (bytes : Bytes) : Frame config key s (s.setContent g bytes) q where
  grows := le_rfl
  held _ _ := rfl
  named := h.named
  bare := h.bare
  kept f hf := by
    refine ⟨Function.update_of_ne ?_ _ _, rfl⟩
    rintro rfl
    exact hg hf
  sole _ _ _ hk := hk
  noted _ hx := hx

theorem Holds.frame_rename (h : Holds config key s q) {g : Handle} (hg : q.stage.file? ≠ some g)
    {path : Str} (hn : ∀ f, q.named? config key ≠ some (path, f))
    (ht : q.call.isPut = true → path ≠ q.call.target config key) :
    Frame config key s (s.rename g path) q where
  grows := le_rfl
  held _ _ := rfl
  named p f hp := by
    have hpath : p ≠ path := by
      rintro rfl
      exact hn f hp
    have hfile : f ≠ g := by
      rintro rfl
      exact hg (KeyPhase.file?_of_named? hp)
    simp [Server.names_rename, hpath, h.named p f hp, hfile]
  bare hput hs := by
    simp [Server.names_rename, (ht hput).symm, h.bare hput hs]
  kept _ _ := ⟨rfl, rfl⟩
  sole _ _ _ hk := hk
  noted x hx := List.mem_cons_of_mem _ hx

/-! The server stays consistent. -/

theorem Server.latest_cons (path : Str) (f : Handle) (p : Str) (hs : s'.history = (path, f) :: s.history) :
    s'.latest p = if path = p then some f else s.latest p := by
  unfold Server.latest
  rw [hs, List.find?_cons]
  by_cases hp : path = p <;> simp [hp]

theorem Sound.create (h : Sound s) (path : Str) : Sound (s.create path) where
  named_lt p f hp := by
    rw [Server.names_create] at hp
    rw [Server.length_create]
    split_ifs at hp
    · obtain rfl := Option.some.inj hp
      exact Nat.lt_succ_self _
    · exact Nat.lt_succ_of_lt (h.named_lt p f hp)
  open_lt k f hk := by
    rw [Server.file_create] at hk
    rw [Server.length_create]
    split_ifs at hk
    · obtain rfl := Option.some.inj hk
      exact Nat.lt_succ_self _
    · exact Nat.lt_succ_of_lt (h.open_lt k f hk)
  short f := by
    by_cases he : f = s.handles.length
    · simp [Server.create, he]
    · simp [Server.create, he, h.short f]
  latest p f hp := by
    rw [Server.latest_cons path s.handles.length p rfl]
    rw [Server.names_create] at hp
    split_ifs at hp with he
    · rw [if_pos he.symm, hp]
    · rw [if_neg (Ne.symm he)]
      exact h.latest p f hp

theorem Sound.openOn (h : Sound s) {p : Str} {g : Handle} (hg : s.names p = some g) :
    Sound (s.openOn g) where
  named_lt p f hp := (h.named_lt p f hp).trans_le (by simp)
  open_lt k f hk := by
    have hlen : s.handles.length ≤ (s.openOn g).handles.length := by simp
    rw [Server.file_openOn] at hk
    split_ifs at hk
    · obtain rfl := Option.some.inj hk
      exact (h.named_lt p g hg).trans_le hlen
    · exact (h.open_lt k f hk).trans_le hlen
  short := h.short
  latest := h.latest

theorem Sound.close (h : Sound s) {k g : Handle} (hk : s.file k = some g) : Sound (s.close k) := by
  have hrest : ∀ names', (∀ p f, names' p = some f → s.names p = some f) →
      s.close k = { s with handles := s.handles.set k none, names := names' } →
      Sound (s.close k) := by
    intro names' hn hc
    refine ⟨fun p f hp => ?_, fun h' f hf => ?_, ?_, fun p f hp => ?_⟩
    · rw [hc] at hp ⊢
      simpa using h.named_lt p f (hn p f hp)
    · rw [Server.file_close s hk] at hf
      split_ifs at hf
      rw [hc]
      simpa using h.open_lt h' f hf
    · rw [hc]
      exact h.short
    · rw [hc] at hp ⊢
      exact h.latest p f (hn p f hp)
  rcases s.close_cases hk with ⟨_, _, hc⟩ | ⟨_, hc⟩
  · refine hrest _ (fun p f hp => ?_) hc
    simp only [Server.unname] at hp
    split_ifs at hp
    exact hp
  · exact hrest _ (fun _ _ hp => hp) hc

theorem Sound.mark (h : Sound s) (g : Handle) : Sound (s.mark g) :=
  ⟨h.named_lt, h.open_lt, h.short, h.latest⟩

theorem Sound.setContent (h : Sound s) (g : Handle) {bytes : Bytes} (hb : bytes.length ≤ maxOffset) :
    Sound (s.setContent g bytes) where
  named_lt := h.named_lt
  open_lt := h.open_lt
  short f := by
    by_cases he : f = g
    · simpa [Server.setContent, he] using hb
    · simpa [Server.setContent, he] using h.short f
  latest := h.latest

theorem Sound.rename (h : Sound s) {k g : Handle} (hk : s.file k = some g) (path : Str) :
    Sound (s.rename g path) where
  named_lt p f hp := by
    rw [Server.names_rename] at hp
    split_ifs at hp
    · exact Option.some.inj hp ▸ h.open_lt k g hk
    · exact h.named_lt p f hp
  open_lt := h.open_lt
  short := h.short
  latest p f hp := by
    rw [Server.latest_cons path g p rfl]
    rw [Server.names_rename] at hp
    split_ifs at hp with he
    · rw [if_pos he.symm, hp]
    · rw [if_neg (Ne.symm he)]
      exact h.latest p f hp

/-! A call after its own step. -/

theorem KeyPhase.of_own? (config : SmbStorageConfig) (key : Str) {f : Handle}
    (h : q.own? = some f) :
    q.named? config key = some (q.call.target config key, f) ∧ q.published? = none ∧
      q.stage ≠ .lost ∧ q.stage ≠ .idle ∧ q.stage ≠ .removed := by
  obtain ⟨call, stage⟩ := q
  cases stage <;> simp only [own?] at h <;> first
    | (obtain rfl := Option.some.inj h; exact ⟨rfl, rfl, by simp, by simp, by simp⟩)
    | cases h
    | skip
  all_goals
    split_ifs at h with hput
    obtain rfl := Option.some.inj h
    cases call with
    | putBlob uuid body => exact ⟨rfl, rfl, by simp, by simp, by simp⟩
    | putBlobIfNotExists body => cases hput
    | getBlob => cases hput

/-- A call that has its file to itself. -/
theorem Holds.of_own {f : Handle} (hown : q.own? = some f) (hlt : f < s.handles.length)
    (hpending : s.pending f = q.stage.isMarked)
    (hname : s.names (q.call.target config key) = some f)
    (hheld : ∀ h, s.file h = some f ↔ q.stage.handle? = some h)
    (hwrote : ∀ g w, q.stage = .writing g w → s.content g = w)
    (hwhole : ∀ g, q.stage.whole? = some g → q.call.content = .ok (s.content g)) :
    Holds config key s q := by
  have hfile := KeyPhase.file?_of_own? hown
  obtain ⟨hnamed, hpub, hlost, hidle, hremoved⟩ :=
    KeyPhase.of_own? config key hown
  refine ⟨hlost, fun g hg => ?_, fun k hk => ?_, fun p g hg => ?_, fun _ hs => ?_, fun g hg k hk => ?_,
    hwrote, hwhole, fun g hg => ?_⟩
  · obtain rfl : f = g := Option.some.inj (hfile.symm.trans hg)
    exact ⟨hlt, hpending⟩
  · exact ⟨f, (hheld k).mpr hk, fun g hg => Option.some.inj (hfile.symm.trans hg)⟩
  · obtain ⟨rfl, rfl⟩ := Prod.mk.inj (Option.some.inj (hnamed.symm.trans hg))
    exact hname
  · exact (hs.elim hidle hremoved).elim
  · obtain rfl : f = g := Option.some.inj (hown.symm.trans hg)
    exact (hheld k).mp hk
  · rw [hpub] at hg
    cases hg

/-- A call without a file of its own. -/
theorem Holds.of_none (hfile : q.stage.file? = none) (hlost : q.stage ≠ .lost)
    (hheld : ∀ h, q.stage.handle? = some h → ∃ g, s.file h = some g)
    (hbare : q.call.isPut = true → q.stage = .idle ∨ q.stage = .removed →
      s.names (q.call.target config key) = none) : Holds config key s q := by
  have hno : ∀ {f : Handle}, q.stage.file? ≠ some f := by
    intro f hf
    rw [hfile] at hf
    cases hf
  refine ⟨hlost, fun g hg => (hno hg).elim, fun k hk => ?_, fun p g hg => ?_, hbare,
    fun g hg _ _ => ?_, fun g w hg => ?_, fun g hg => ?_, fun g hg => ?_⟩
  · obtain ⟨g, hg⟩ := hheld k hk
    exact ⟨g, hg, fun f hf => (hno hf).elim⟩
  · exact (hno (KeyPhase.file?_of_named? hg)).elim
  · exact (hno (KeyPhase.file?_of_own? hg)).elim
  · rw [hg] at hfile
    cases hfile
  · exact (hno (KeyStage.file?_of_whole? hg)).elim
  · exact (hno (KeyPhase.file?_of_published? hg)).elim

/-- What a call with a file to itself has. -/
theorem Holds.own {f : Handle} (h : Holds config key s q) (hown : q.own? = some f) :
    s.pending f = q.stage.isMarked ∧ s.names (q.call.target config key) = some f ∧
      ∀ k, s.file k = some f ↔ q.stage.handle? = some k := by
  have hfile := KeyPhase.file?_of_own? hown
  refine ⟨(h.made f hfile).2, h.named _ _ (KeyPhase.of_own? config key hown).1,
    fun k => ⟨h.sole f hown k, ?_⟩⟩
  intro hk
  obtain ⟨g, hg, he⟩ := h.held k hk
  rw [hg, he f hfile]

theorem KeyInv.perm {phases phases' : List KeyPhase} (h : KeyInv config key s phases)
    (hp : phases.Perm phases') : KeyInv config key s phases' where
  sound := h.sound
  holds q hq := h.holds q (hp.mem_iff.mpr hq)
  apart := (hp.pairwise_iff Apart.symm).mp h.apart
  current := by
    rintro ⟨q, hq, hpub⟩
    obtain ⟨p, hpm, f, hf⟩ := h.current ⟨q, hp.mem_iff.mpr hq, hpub⟩
    exact ⟨p, hp.mem_iff.mp hpm, f, hf⟩

/-- One call moves on and the others are left alone. -/
theorem KeyInv.replace (hi : KeyInv config key s (q :: others)) (hcall : q'.call = q.call)
    (hsound : Sound s') (hq : Holds config key s' q')
    (hframe : ∀ o ∈ others, Frame config key s s' o)
    (hfile : ∀ f, q'.stage.file? = some f → q.stage.file? = some f ∨ f = s.handles.length)
    (hhandle : ∀ h, q'.stage.handle? = some h → q.stage.handle? = some h ∨ h = s.handles.length)
    (hcurrent : (∃ f, q'.published? = some f ∧ s'.names (keyPath config key) = some f) ∨
      q'.published? = q.published? ∧ ∀ f, (∃ p ∈ q :: others, p.published? = some f) →
        s.names (keyPath config key) = some f → s'.names (keyPath config key) = some f) :
    KeyInv config key s' (q' :: others) := by
  obtain ⟨hq₀, hothers⟩ := List.pairwise_cons.mp hi.apart
  refine ⟨hsound, fun o ho => ?_, List.pairwise_cons.mpr ⟨fun o ho => ?_, hothers⟩, fun hpub => ?_⟩
  · rcases List.mem_cons.mp ho with rfl | ho
    · exact hq
    · exact (hi.holds o (List.mem_cons_of_mem _ ho)).frame (hframe o ho)
  · have hapart := hq₀ o ho
    have hold := hi.holds o (List.mem_cons_of_mem _ ho)
    refine ⟨fun f hf hof => ?_, fun h hh hoh => ?_, by rw [hcall]; exact hapart.targets⟩
    · rcases hfile f hf with hf | rfl
      · exact hapart.files f hf hof
      · exact absurd (hold.made _ hof).1 (lt_irrefl _)
    · rcases hhandle h hh with hh | rfl
      · exact hapart.handles h hh hoh
      · obtain ⟨g, hg, _⟩ := hold.held _ hoh
        exact absurd (Server.file_lt hg) (lt_irrefl _)
  · rcases hcurrent with ⟨f, hf, hname⟩ | ⟨hsame, hname⟩
    · exact ⟨q', List.mem_cons_self, f, hf, hname⟩
    · -- Whoever is published now was so before, and its file keeps the name.
      have hbefore : ∃ p ∈ q :: others, p.published? ≠ none := by
        obtain ⟨p, hp, hne⟩ := hpub
        rcases List.mem_cons.mp hp with rfl | hp
        · exact ⟨q, List.mem_cons_self, hsame ▸ hne⟩
        · exact ⟨p, List.mem_cons_of_mem _ hp, hne⟩
      obtain ⟨p, hp, f, hf, hn⟩ := hi.current hbefore
      have hn' := hname f ⟨p, hp, hf⟩ hn
      rcases List.mem_cons.mp hp with rfl | hp
      · exact ⟨q', List.mem_cons_self, f, hsame.trans hf, hn'⟩
      · exact ⟨p, List.mem_cons_of_mem _ hp, f, hf, hn'⟩

/-- The server did nothing. -/
theorem KeyInv.restage (hi : KeyInv config key s (q :: others)) (hcall : q'.call = q.call)
    (hq : Holds config key s q')
    (hfile : ∀ f, q'.stage.file? = some f → q.stage.file? = some f)
    (hhandle : ∀ h, q'.stage.handle? = some h → q.stage.handle? = some h)
    (hcurrent : (∃ f, q'.published? = some f ∧ s.names (keyPath config key) = some f) ∨
      q'.published? = q.published?) : KeyInv config key s (q' :: others) :=
  hi.replace hcall hi.sound hq (fun o ho => (hi.holds o (List.mem_cons_of_mem _ ho)).frame_self)
    (fun f hf => Or.inl (hfile f hf)) (fun h hh => Or.inl (hhandle h hh))
    (hcurrent.imp id fun hsame => ⟨hsame, fun _ _ hn => hn⟩)

/-- A call on the key that is left with nothing. -/
theorem KeyInv.rest {stage : KeyStage} (hi : KeyInv config key s (q :: others))
    (hput : q.call.isPut = false) (hpub : q.published? = none) (hfile : stage.file? = none)
    (hhandle : stage.handle? = none) (hlost : stage ≠ .lost) :
    KeyInv config key s (⟨q.call, stage⟩ :: others) := by
  have hpub' : KeyPhase.published? ⟨q.call, stage⟩ = none := by
    by_contra hne
    obtain ⟨f, hf⟩ := Option.ne_none_iff_exists'.mp hne
    exact absurd (hfile.symm.trans (KeyPhase.file?_of_published? hf)) (by simp)
  refine hi.restage rfl (Holds.of_none hfile hlost ?_ ?_) ?_ ?_ (Or.inr (hpub'.trans hpub.symm))
  · simp [hhandle]
  · simp [hput]
  · simp [hfile]
  · simp [hhandle]

end Steps

end GraphqlOrmStorage.Smb
