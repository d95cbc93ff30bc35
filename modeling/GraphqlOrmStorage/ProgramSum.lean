import GraphqlOrmStorage.Program

/-!
# Programs over two interfaces

Two interfaces side by side make one whose calls are those of both. A program
over one of them is a program over the sum, with the same runs. A run is
determined by its log: no log of a program is a proper beginning of another, so
the part of a log that belongs to the first of two programs can be recovered.
-/
namespace GraphqlOrmStorage.Program

/-- The calls of two interfaces, each answered as before. -/
def Interface.sum (I J : Interface) : Interface where
  Call := I.Call ⊕ J.Call
  Reply := Sum.elim I.Reply J.Reply

namespace Prog

variable {I J : Interface} {α β S : Type}

/-- A program over the first interface. -/
def left : Prog I α → Prog (I.sum J) α
  | ret a => ret a
  | call c k => call (I := I.sum J) (.inl c) fun r => (k r).left

/-- A program over the second interface. -/
def right : Prog J α → Prog (I.sum J) α
  | ret a => ret a
  | call c k => call (I := I.sum J) (.inr c) fun r => (k r).right

def leftEntry (e : Sigma I.Reply) : Sigma (I.sum J).Reply := ⟨.inl e.1, e.2⟩

def rightEntry (e : Sigma J.Reply) : Sigma (I.sum J).Reply := ⟨.inr e.1, e.2⟩

theorem runsTo_left {p : Prog I α} {log : List (Sigma (I.sum J).Reply)} {a : α} :
    RunsTo p.left log a ↔ ∃ own, RunsTo p own a ∧ log = own.map leftEntry := by
  induction p generalizing log with
  | ret b =>
    simp only [left, runsTo_ret]
    constructor
    · intro h
      exact ⟨[], ⟨rfl, h.2⟩, h.1⟩
    · intro h
      obtain ⟨own, ⟨hown, hb⟩, hlog⟩ := h
      exact ⟨by rw [hlog, hown]; rfl, hb⟩
  | call c k ih =>
    constructor
    · intro h
      obtain ⟨r, rest, hlog, h⟩ := runsTo_call.mp h
      obtain ⟨own, hrun, hrest⟩ := (ih r).mp h
      exact ⟨⟨c, r⟩ :: own, .call c k r hrun, by rw [hlog, hrest]; rfl⟩
    · intro h
      obtain ⟨own, h, hlog⟩ := h
      obtain ⟨r, rest, hown, hrun⟩ := runsTo_call.mp h
      exact runsTo_call.mpr ⟨r, rest.map leftEntry, by rw [hlog, hown]; rfl,
        (ih r).mpr ⟨rest, hrun, rfl⟩⟩

theorem runsTo_right {p : Prog J α} {log : List (Sigma (I.sum J).Reply)} {a : α} :
    RunsTo p.right log a ↔ ∃ own, RunsTo p own a ∧ log = own.map rightEntry := by
  induction p generalizing log with
  | ret b =>
    simp only [right, runsTo_ret]
    constructor
    · intro h
      exact ⟨[], ⟨rfl, h.2⟩, h.1⟩
    · intro h
      obtain ⟨own, ⟨hown, hb⟩, hlog⟩ := h
      exact ⟨by rw [hlog, hown]; rfl, hb⟩
  | call c k ih =>
    constructor
    · intro h
      obtain ⟨r, rest, hlog, h⟩ := runsTo_call.mp h
      obtain ⟨own, hrun, hrest⟩ := (ih r).mp h
      exact ⟨⟨c, r⟩ :: own, .call c k r hrun, by rw [hlog, hrest]; rfl⟩
    · intro h
      obtain ⟨own, h, hlog⟩ := h
      obtain ⟨r, rest, hown, hrun⟩ := runsTo_call.mp h
      exact runsTo_call.mpr ⟨r, rest.map rightEntry, by rw [hlog, hown]; rfl,
        (ih r).mpr ⟨rest, hrun, rfl⟩⟩

/-- Two runs whose logs begin alike are one. -/
theorem RunsTo.unique {p : Prog I α} {first second more more' : List (Sigma I.Reply)} {a b : α}
    (h : RunsTo p first a) (h' : RunsTo p second b) (hlog : first ++ more = second ++ more') :
    first = second ∧ a = b ∧ more = more' := by
  induction h generalizing second with
  | ret a =>
    obtain ⟨hsecond, hb⟩ := runsTo_ret.mp h'
    subst hsecond hb
    exact ⟨rfl, rfl, hlog⟩
  | call c k r h ih =>
    obtain ⟨r', rest, hsecond, hrest⟩ := runsTo_call.mp h'
    subst hsecond
    obtain ⟨hentry, htail⟩ := List.cons.inj hlog
    obtain rfl : r = r' := by simpa using hentry
    obtain ⟨hfirst, hresult, hmore⟩ := ih hrest htail
    exact ⟨by rw [hfirst], hresult, hmore⟩

section Environment

variable {answer : S → (c : (I.sum J).Call) → (I.sum J).Reply c → S → Prop} {s s' : S}
  {log : List (Sigma (I.sum J).Reply)} {a : α}

/-- Against an environment, a program over the first interface meets only its own calls. -/
theorem runsIn_left {p : Prog I α} (h : RunsIn answer s p.left log s' a) :
    ∃ own, RunsIn (fun s c r s' => answer s (.inl c) r s') s p own s' a := by
  induction p generalizing s log with
  | ret b =>
    obtain ⟨-, hs, ha⟩ := runsIn_ret.mp h
    subst hs ha
    exact ⟨[], .ret s' a⟩
  | call c k ih =>
    obtain ⟨r, s₁, rest, -, ha, hrun⟩ := runsIn_call.mp h
    obtain ⟨own, hown⟩ := ih r hrun
    exact ⟨_, .call c k r ha hown⟩

theorem runsIn_right {p : Prog J α} (h : RunsIn answer s p.right log s' a) :
    ∃ own, RunsIn (fun s c r s' => answer s (.inr c) r s') s p own s' a := by
  induction p generalizing s log with
  | ret b =>
    obtain ⟨-, hs, ha⟩ := runsIn_ret.mp h
    subst hs ha
    exact ⟨[], .ret s' a⟩
  | call c k ih =>
    obtain ⟨r, s₁, rest, -, ha, hrun⟩ := runsIn_call.mp h
    obtain ⟨own, hown⟩ := ih r hrun
    exact ⟨_, .call c k r ha hown⟩

end Environment

end Prog

end GraphqlOrmStorage.Program
