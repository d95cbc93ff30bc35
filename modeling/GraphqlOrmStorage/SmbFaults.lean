import GraphqlOrmStorage.SmbServer

/-!
# A file server whose requests fail

Any request may fail with any error, before or after it took effect, and the handles of
a connection that broke are closed whenever the server notices it. What a file keeps
through all of this is collected here: its name while nothing is marked for deletion,
its content while nobody writes through a handle to it.
-/
namespace GraphqlOrmStorage.Smb

open Text Program

/-- A reply that reports a failure, or none that could report one. -/
def Fails : (c : SmbCall) → SmbCall.Reply c → Prop
  | .acquirePermit, r => r = false
  | .releasePermit, _ | .dropFile _, _ => True
  | .createDirectory _, r | .createFile _ _, r | .openExisting _ _, r => ∃ e, r = .error e
  | .closeResource _, r => ∃ e, r = .error e
  | .close _, r | .setRename _ _ _, r | .setDelete _, r => ∃ e, r = .error e
  | .queryInfo _, r => ∃ e, r = .error e
  | .writeBlock _ _ _, r => ∃ e, r = .error e
  | .flush _, r => ∃ e, r = .error e
  | .readBlock _ _ _, r => ∃ e, r = .error e
  | .reconnect, r => ∃ e, r = .error e

/-- Handles are lost. -/
def Server.lose (s : Server) (hs : List Handle) : Server := hs.foldl Server.close s

/-- One request to a server that may fail: what it answers, a failure without the effect or one
with it; then handles may be lost. -/
def Faulty (s : Server) (c : SmbCall) (r : SmbCall.Reply c) (s' : Server) : Prop :=
  ∃ t hs, s' = t.lose hs ∧
    (Serves s c r t ∨ (Fails c r ∧ (t = s ∨ ∃ o, t = (s.answer o c).2)))

/-- Files and handles are known to the server, and no file has two names. -/
structure Orderly (s : Server) : Prop where
  named_lt : ∀ p f, s.names p = some f → f < s.handles.length
  open_lt : ∀ h f, s.file h = some f → f < s.handles.length
  sole_name : ∀ p p' f, s.names p = some f → s.names p' = some f → p = p'

/-- The path names this file, which has this content and is not about to be deleted. -/
structure Stored (s : Server) (path : Str) (f : Handle) (b : Bytes) : Prop where
  named : s.names path = some f
  content : s.content f = b
  kept : s.pending f = false

/-- What a path holds. -/
def KeyHolds (s : Server) (path : Str) : Option Bytes → Prop
  | none => s.names path = none
  | some b => ∃ f, Stored s path f b

/-- The handle is open on this file at most. -/
def OpenOnly (s : Server) (h f : Handle) : Prop :=
  h < s.handles.length ∧ ∀ f', s.file h = some f' → f' = f

/-- The handle is not open on the file that the path names. -/
def OpenOff (s : Server) (h : Handle) (path : Str) : Prop :=
  h < s.handles.length ∧ ∀ f, s.file h = some f → s.names path ≠ some f

section Operations

variable {s : Server} {p path : Str} {f g h k : Handle} {b : Bytes} {old : Option Bytes}

namespace Server

theorem names_of_close (hn : (s.close h).names p = some f) : s.names p = some f := by
  cases hf : s.file h with
  | none => simpa [close, hf] using hn
  | some g =>
    rcases s.close_cases hf with ⟨_, _, hc⟩ | ⟨_, hc⟩
    · rw [hc] at hn
      simp only [unname] at hn
      split_ifs at hn
      exact hn
    · rwa [hc] at hn

theorem file_of_close (hk : (s.close h).file k = some f) : s.file k = some f := by
  by_cases he : k = h
  · subst he
    cases hf : s.file k with
    | none => simp [close, hf] at hk
    | some g =>
      rw [s.file_close hf, if_pos rfl] at hk
      cases hk
  · rwa [s.file_close_of_ne he] at hk

theorem close_same (s : Server) (h : Handle) :
    (s.close h).content = s.content ∧ (s.close h).pending = s.pending := by
  cases hf : s.file h with
  | none => simp [close, hf]
  | some g => exact ⟨(s.contents_close hf).1, (s.contents_close hf).2.1⟩

end Server

/-! ### Closing -/

theorem Orderly.close (hs : Orderly s) (h : Handle) : Orderly (s.close h) where
  named_lt p f hp := by
    rw [Server.length_close]
    exact hs.named_lt p f (Server.names_of_close hp)
  open_lt k f hk := by
    rw [Server.length_close]
    exact hs.open_lt k f (Server.file_of_close hk)
  sole_name p p' f hp hp' :=
    hs.sole_name p p' f (Server.names_of_close hp) (Server.names_of_close hp')

/-- A file that is not marked keeps its name when a handle is closed. -/
theorem Stored.close (hf : Stored s p f b) (h : Handle) : Stored (s.close h) p f b := by
  obtain ⟨hcontent, hpending⟩ := s.close_same h
  refine ⟨?_, by rw [hcontent, hf.content], by rw [hpending, hf.kept]⟩
  cases hh : s.file h with
  | none => simpa [Server.close, hh] using hf.named
  | some g => exact s.names_close hh hf.named hf.kept

theorem names_none_close (hn : s.names p = none) (h : Handle) : (s.close h).names p = none := by
  rw [Option.eq_none_iff_forall_ne_some]
  intro f hf
  rw [Server.names_of_close hf] at hn
  cases hn

theorem KeyHolds.close (hold : KeyHolds s p old) (h : Handle) : KeyHolds (s.close h) p old := by
  cases old with
  | none => exact names_none_close hold h
  | some b =>
    obtain ⟨f, hf⟩ := hold
    exact ⟨f, hf.close h⟩

theorem OpenOnly.close (ho : OpenOnly s k f) (h : Handle) : OpenOnly (s.close h) k f :=
  ⟨by rw [Server.length_close]; exact ho.1, fun f' hf => ho.2 f' (Server.file_of_close hf)⟩

theorem OpenOff.close (ho : OpenOff s k p) (h : Handle) : OpenOff (s.close h) k p :=
  ⟨by rw [Server.length_close]; exact ho.1,
    fun f hf hn => ho.2 f (Server.file_of_close hf) (Server.names_of_close hn)⟩

/-- What closing any handle preserves survives the loss of handles. -/
theorem lose_invariant {P : Server → Prop} (hclose : ∀ s h, P s → P (s.close h)) (hs : List Handle)
    (h : P s) : P (s.lose hs) := by
  induction hs generalizing s with
  | nil => exact h
  | cons k hs ih => exact ih (hclose s k h)

/-! ### Creating and opening -/

theorem Orderly.create (hs : Orderly s) (path : Str) : Orderly (s.create path) where
  named_lt p f hp := by
    rw [Server.names_create] at hp
    rw [Server.length_create]
    split_ifs at hp
    · rw [← Option.some.inj hp]
      exact Nat.lt_succ_self _
    · exact Nat.lt_succ_of_lt (hs.named_lt p f hp)
  open_lt k f hk := by
    rw [Server.file_create] at hk
    rw [Server.length_create]
    split_ifs at hk
    · rw [← Option.some.inj hk]
      exact Nat.lt_succ_self _
    · exact Nat.lt_succ_of_lt (hs.open_lt k f hk)
  sole_name p p' f hp hp' := by
    rw [Server.names_create] at hp hp'
    split_ifs at hp hp' with hpath hpath' hpath'
    · rw [hpath, hpath']
    · exact absurd (Option.some.inj hp).symm (hs.named_lt p' f hp').ne
    · exact absurd (Option.some.inj hp').symm (hs.named_lt p f hp).ne
    · exact hs.sole_name p p' f hp hp'

theorem Stored.create (hs : Orderly s) (hf : Stored s p f b) (hne : p ≠ path) :
    Stored (s.create path) p f b := by
  have hlt : f ≠ s.handles.length := (hs.named_lt p f hf.named).ne
  refine ⟨?_, ?_, ?_⟩
  · rw [Server.names_create, if_neg hne]
    exact hf.named
  · exact (Function.update_of_ne hlt _ _).trans hf.content
  · exact (Function.update_of_ne hlt _ _).trans hf.kept

/-- The file that is created is empty, and its handle is open on it. -/
theorem stored_create (s : Server) (path : Str) :
    Stored (s.create path) path s.handles.length [] ∧
      OpenOnly (s.create path) s.handles.length s.handles.length := by
  refine ⟨⟨?_, Function.update_self .., Function.update_self ..⟩, by simp, fun f' hf => ?_⟩
  · rw [Server.names_create, if_pos rfl]
  · rw [Server.file_create, if_pos rfl] at hf
    exact (Option.some.inj hf).symm

theorem Orderly.openOn (hs : Orderly s) (hf : f < s.handles.length) : Orderly (s.openOn f) where
  named_lt p g hp := by
    rw [Server.length_openOn]
    exact Nat.lt_succ_of_lt (hs.named_lt p g hp)
  open_lt k g hk := by
    rw [Server.file_openOn] at hk
    rw [Server.length_openOn]
    split_ifs at hk
    · rw [← Option.some.inj hk]
      exact Nat.lt_succ_of_lt hf
    · exact Nat.lt_succ_of_lt (hs.open_lt k g hk)
  sole_name := hs.sole_name

theorem Stored.openOn (hf : Stored s p f b) (g : Handle) : Stored (s.openOn g) p f b :=
  ⟨hf.named, hf.content, hf.kept⟩

/-- The new handle is open on the file. -/
theorem openOnly_openOn (s : Server) (f : Handle) : OpenOnly (s.openOn f) s.handles.length f := by
  refine ⟨by simp, fun f' hf => ?_⟩
  rw [Server.file_openOn, if_pos rfl] at hf
  exact (Option.some.inj hf).symm

theorem OpenOnly.openOn (ho : OpenOnly s h f) (g : Handle) : OpenOnly (s.openOn g) h f := by
  refine ⟨by rw [Server.length_openOn]; exact Nat.lt_succ_of_lt ho.1, fun f' hf => ?_⟩
  rw [Server.file_openOn, if_neg ho.1.ne] at hf
  exact ho.2 f' hf

/-! ### Writing, marking and renaming -/

theorem Orderly.setContent (hs : Orderly s) (f : Handle) (b : Bytes) : Orderly (s.setContent f b) :=
  ⟨hs.named_lt, hs.open_lt, hs.sole_name⟩

theorem Stored.setContent_self (hf : Stored s p f b) (b' : Bytes) :
    Stored (s.setContent f b') p f b' :=
  ⟨hf.named, Function.update_self .., hf.kept⟩

theorem Stored.setContent (hf : Stored s p f b) (hne : f ≠ g) (b' : Bytes) :
    Stored (s.setContent g b') p f b :=
  ⟨hf.named, (Function.update_of_ne hne _ _).trans hf.content, hf.kept⟩

theorem Orderly.mark (hs : Orderly s) (f : Handle) : Orderly (s.mark f) :=
  ⟨hs.named_lt, hs.open_lt, hs.sole_name⟩

theorem Stored.mark (hf : Stored s p f b) (hne : f ≠ g) : Stored (s.mark g) p f b :=
  ⟨hf.named, hf.content, (Function.update_of_ne hne _ _).trans hf.kept⟩

theorem Orderly.rename (hs : Orderly s) (hf : f < s.handles.length) (path : Str) :
    Orderly (s.rename f path) where
  named_lt p g hp := by
    rw [Server.names_rename] at hp
    split_ifs at hp
    · exact Option.some.inj hp ▸ hf
    · exact hs.named_lt p g hp
  open_lt := hs.open_lt
  sole_name p p' g hp hp' := by
    rw [Server.names_rename] at hp hp'
    split_ifs at hp hp' with hpath hpath' hold' hold hpath' hold'
    · rw [hpath, hpath']
    · rw [← Option.some.inj hp] at hp'
      exact absurd hp' hold'
    · rw [← Option.some.inj hp'] at hp
      exact absurd hp hold
    · exact hs.sole_name p p' g hp hp'

/-- A rename takes the file from its name to the other one. -/
theorem Stored.rename (hf : Stored s p f b) (hne : p ≠ path) :
    Stored (s.rename f path) path f b ∧ (s.rename f path).names p = none := by
  refine ⟨⟨?_, hf.content, hf.kept⟩, ?_⟩
  · rw [Server.names_rename, if_pos rfl]
  · rw [Server.names_rename, if_neg hne, if_pos hf.named]

end Operations

end GraphqlOrmStorage.Smb
