import Mathlib

/-!
# Programs that call an environment

A program either returns or issues one call and continues with the reply. The
same program is run in two ways: alone, by a handler that answers every call
(`exec`), and together with others, one call at a time in any order (`Step`).
The sequential meaning and every interleaving are therefore about one text.

Interleavings are reasoned about through phases. A phase is a ghost record of
what a thread has done so far; a discipline says which calls a thread may issue
in which phase. An invariant of the shared state and the phases, preserved by
every allowed call, holds in every state that a pool of disciplined threads
can reach (`Reach.invariant`).
-/
namespace GraphqlOrmStorage.Program

/-- The calls an environment answers, and the type of the answer to each. -/
structure Interface where
  Call : Type
  Reply : Call → Type

inductive Prog (I : Interface) (α : Type) where
  | ret (a : α)
  | call (c : I.Call) (k : I.Reply c → Prog I α)

namespace Prog

variable {I : Interface} {α β γ S Q : Type}

/-- Run the first program, then the one its result selects. -/
def bind : Prog I α → (α → Prog I β) → Prog I β
  | ret a, f => f a
  | call c k, f => call c (fun r => (k r).bind f)

instance : Monad (Prog I) where
  pure := ret
  bind := bind

/-- A single call, returning its reply. -/
def perform (c : I.Call) : Prog I (I.Reply c) := call c ret

@[simp] theorem pure_eq_ret (a : α) : (pure a : Prog I α) = ret a := rfl

@[simp] theorem bind_eq_bind (p : Prog I α) (f : α → Prog I β) : p >>= f = p.bind f := rfl

@[simp] theorem ret_bind (a : α) (f : α → Prog I β) : (ret a : Prog I α).bind f = f a := rfl

@[simp] theorem call_bind (c : I.Call) (k : I.Reply c → Prog I α) (f : α → Prog I β) :
    (call c k).bind f = call c (fun r => (k r).bind f) := rfl

@[simp] theorem perform_bind (c : I.Call) (f : I.Reply c → Prog I β) :
    (perform c).bind f = call c f := rfl

theorem bind_assoc (p : Prog I α) (f : α → Prog I β) (g : β → Prog I γ) :
    (p.bind f).bind g = p.bind (fun a => (f a).bind g) := by
  induction p with
  | ret a => rfl
  | call c k ih => simp only [call_bind, ih]

/-- The sequential run: `h` answers each call and updates the state. -/
def exec (h : (c : I.Call) → S → I.Reply c × S) : Prog I α → S → α × S
  | ret a, s => (a, s)
  | call c k, s => (k (h c s).1).exec h (h c s).2

variable {h : (c : I.Call) → S → I.Reply c × S}

@[simp] theorem exec_ret (a : α) (s : S) : (ret a : Prog I α).exec h s = (a, s) := rfl

@[simp] theorem exec_call (c : I.Call) (k : I.Reply c → Prog I α) (s : S) :
    (call c k).exec h s = (k (h c s).1).exec h (h c s).2 := rfl

@[simp] theorem exec_bind (p : Prog I α) (f : α → Prog I β) (s : S) :
    (p.bind f).exec h s = (f (p.exec h s).1).exec h (p.exec h s).2 := by
  induction p generalizing s with
  | ret a => rfl
  | call c k ih => simp only [call_bind, exec_call, ih]

/-- The result of a program that has returned. -/
def result? : Prog I α → Option α
  | ret a => some a
  | call _ _ => none

theorem eq_ret_of_result? {p : Prog I α} {a : α} (h : p.result? = some a) : p = ret a := by
  cases p with
  | ret b => rw [Option.some.inj h]
  | call c k => cases h

/-- The call that is issued next. -/
def next? : Prog I α → Option I.Call
  | ret _ => none
  | call c _ => some c

/-- A run in which the environment replies as it likes, with the log of calls and replies. -/
inductive RunsTo : Prog I α → List (Sigma I.Reply) → α → Prop
  | ret (a : α) : RunsTo (ret a) [] a
  | call (c : I.Call) (k : I.Reply c → Prog I α) (r : I.Reply c) {log : List (Sigma I.Reply)}
      {a : α} :
      RunsTo (k r) log a → RunsTo (call c k) (⟨c, r⟩ :: log) a

@[simp] theorem runsTo_ret {a b : α} {log : List (Sigma I.Reply)} :
    RunsTo (ret a : Prog I α) log b ↔ log = [] ∧ b = a := by
  constructor
  · intro h
    cases h
    exact ⟨rfl, rfl⟩
  · intro h
    obtain ⟨hlog, hb⟩ := h
    subst hlog hb
    exact .ret b

@[simp] theorem runsTo_call {c : I.Call} {k : I.Reply c → Prog I α} {log : List (Sigma I.Reply)}
    {b : α} :
    RunsTo (call c k) log b ↔ ∃ r rest, log = ⟨c, r⟩ :: rest ∧ RunsTo (k r) rest b := by
  constructor
  · intro h
    cases h with
    | call c k r h => exact ⟨r, _, rfl, h⟩
  · intro h
    obtain ⟨r, rest, hlog, h⟩ := h
    subst hlog
    exact .call c k r h

/-- The log of a sequence is the log of the first program and then that of the second. -/
theorem runsTo_bind {p : Prog I α} {f : α → Prog I β} {log : List (Sigma I.Reply)} {b : β} :
    RunsTo (p.bind f) log b ↔
      ∃ first a second, log = first ++ second ∧ RunsTo p first a ∧ RunsTo (f a) second b := by
  induction p generalizing log with
  | ret a => simp
  | call c k ih =>
    simp only [call_bind, runsTo_call, ih]
    constructor
    · intro h
      obtain ⟨r, _, hlog, first, a, second, hrest, hp, hf⟩ := h
      subst hlog hrest
      exact ⟨⟨c, r⟩ :: first, a, second, rfl, ⟨r, first, rfl, hp⟩, hf⟩
    · intro h
      obtain ⟨_, a, second, hlog, ⟨r, first, hfirst, hp⟩, hf⟩ := h
      subst hlog hfirst
      exact ⟨r, first ++ second, rfl, first, a, second, rfl, hp, hf⟩

theorem RunsTo.bind {p : Prog I α} {f : α → Prog I β} {first second : List (Sigma I.Reply)} {a : α}
    {b : β} (hp : RunsTo p first a) (hf : RunsTo (f a) second b) :
    RunsTo (p.bind f) (first ++ second) b :=
  runsTo_bind.mpr ⟨first, a, second, rfl, hp, hf⟩

theorem runsTo_map {p : Prog I α} {f : α → β} {log : List (Sigma I.Reply)} {b : β} :
    RunsTo (p.bind fun a => ret (f a)) log b ↔ ∃ a, RunsTo p log a ∧ b = f a := by
  simp only [runsTo_bind, runsTo_ret]
  constructor
  · intro h
    obtain ⟨first, a, second, hlog, hp, hsecond, hb⟩ := h
    subst hlog hsecond
    exact ⟨a, by rwa [List.append_nil], hb⟩
  · intro h
    obtain ⟨a, hp, hb⟩ := h
    exact ⟨log, a, [], (List.append_nil log).symm, hp, rfl, hb⟩

/-- A sequential run is one of these, with replies of the handler. -/
theorem exec_runsTo (h : (c : I.Call) → S → I.Reply c × S) (p : Prog I α) (s : S) :
    ∃ log, RunsTo p log (p.exec h s).1 ∧ ∀ e ∈ log, ∃ s', e.2 = (h e.1 s').1 := by
  induction p generalizing s with
  | ret a => exact ⟨[], .ret a, by simp⟩
  | call c k ih =>
    obtain ⟨log, hrun, hlog⟩ := ih (h c s).1 (h c s).2
    refine ⟨⟨c, (h c s).1⟩ :: log, .call c k _ hrun, fun e he => ?_⟩
    cases List.mem_cons.mp he with
    | inl he => exact ⟨s, by rw [he]⟩
    | inr he => exact hlog e he

/-- The calls a thread may issue in a phase, and the phase each reply leads to. -/
structure Discipline (I : Interface) (Q : Type) where
  allowed : Q → I.Call → Prop
  next : Q → (c : I.Call) → I.Reply c → Q

/-- The program keeps to the discipline from phase `q` on, whatever the replies,
and returns only in a phase and with a result that `post` admits. -/
def Follows (D : Discipline I Q) (post : Q → α → Prop) : Q → Prog I α → Prop
  | q, ret a => post q a
  | q, call c k => D.allowed q c ∧ ∀ r, Follows D post (D.next q c r) (k r)

variable {D : Discipline I Q} {post : Q → α → Prop}

@[simp] theorem follows_ret {q : Q} {a : α} : Follows D post q (ret a) ↔ post q a := Iff.rfl

@[simp] theorem follows_call {q : Q} {c : I.Call} {k : I.Reply c → Prog I α} :
    Follows D post q (call c k) ↔
      D.allowed q c ∧ ∀ r, Follows D post (D.next q c r) (k r) := Iff.rfl

theorem follows_perform {q : Q} {c : I.Call} {g : I.Reply c → Prog I α} (ha : D.allowed q c)
    (hg : ∀ r, Follows D post (D.next q c r) (g r)) : Follows D post q ((perform c).bind g) :=
  ⟨ha, hg⟩

/-- Sequencing: the second program starts in whatever phase the first one left. -/
theorem Follows.bind {mid : Q → α → Prop} {post : Q → β → Prop} {q : Q} {p : Prog I α}
    {f : α → Prog I β} (hp : Follows D mid q p)
    (hf : ∀ q' a, mid q' a → Follows D post q' (f a)) : Follows D post q (p.bind f) := by
  induction p generalizing q with
  | ret a => exact hf q a hp
  | call c k ih => exact ⟨hp.1, fun r => ih r (hp.2 r)⟩

theorem Follows.mono {post' : Q → α → Prop} {q : Q} {p : Prog I α} (hp : Follows D post q p)
    (h : ∀ q' a, post q' a → post' q' a) : Follows D post' q p := by
  induction p generalizing q with
  | ret a => exact h q a hp
  | call c k ih => exact ⟨hp.1, fun r => ih r (hp.2 r)⟩

/-- Programs of two kinds, each with a discipline of its own. -/
def Discipline.sum {Q' : Type} (D : Discipline I Q) (D' : Discipline I Q') :
    Discipline I (Q ⊕ Q') where
  allowed
    | .inl q => D.allowed q
    | .inr q => D'.allowed q
  next
    | .inl q, c, r => .inl (D.next q c r)
    | .inr q, c, r => .inr (D'.next q c r)

/-- The postcondition of a sum: that of the program's own kind. -/
def sumPost {Q' : Type} (post : Q → α → Prop) (post' : Q' → β → Prop) : Q ⊕ Q' → α ⊕ β → Prop
  | .inl q, .inl a => post q a
  | .inr q, .inr b => post' q b
  | _, _ => False

theorem Follows.inl {Q' : Type} {D' : Discipline I Q'} {post' : Q' → β → Prop} {q : Q}
    {p : Prog I α} (h : Follows D post q p) :
    Follows (D.sum D') (sumPost post post') (.inl q) (p.bind fun a => ret (.inl a)) := by
  induction p generalizing q with
  | ret a => exact h
  | call c k ih => exact ⟨h.1, fun r => ih r (h.2 r)⟩

theorem Follows.inr {Q' : Type} {D' : Discipline I Q'} {post' : Q' → β → Prop} {q : Q'}
    {p : Prog I β} (h : Follows D' post' q p) :
    Follows (D.sum D') (sumPost post post') (.inr q) (p.bind fun b => ret (.inr b)) := by
  induction p generalizing q with
  | ret b => exact h
  | call c k ih => exact ⟨h.1, fun r => ih r (h.2 r)⟩

theorem follows_of_eq {q q' : Q} {p : Prog I α} (h : q = q') (hf : Follows D post q' p) :
    Follows D post q p :=
  h ▸ hf

/-- Every call in the log of a disciplined program was allowed in some phase. -/
theorem Follows.allowed_of_mem {q : Q} {p : Prog I α} (hf : Follows D post q p)
    {log : List (Sigma I.Reply)} {a : α} (h : RunsTo p log a) :
    ∀ e ∈ log, ∃ q, D.allowed q e.1 := by
  induction h generalizing q with
  | ret a => exact fun e he => absurd he List.not_mem_nil
  | call c k r _ ih =>
    intro e he
    rcases List.mem_cons.mp he with he | he
    · exact he ▸ ⟨q, hf.1⟩
    · exact ih (hf.2 r) e he

/-- A run of one program against an environment with a state, with its log. -/
inductive RunsIn (answer : S → (c : I.Call) → I.Reply c → S → Prop) :
    S → Prog I α → List (Sigma I.Reply) → S → α → Prop
  | ret (s : S) (a : α) : RunsIn answer s (ret a) [] s a
  | call {s s' s'' : S} (c : I.Call) (k : I.Reply c → Prog I α) (r : I.Reply c)
      {log : List (Sigma I.Reply)} {a : α} : answer s c r s' → RunsIn answer s' (k r) log s'' a →
      RunsIn answer s (call c k) (⟨c, r⟩ :: log) s'' a

variable {answer : S → (c : I.Call) → I.Reply c → S → Prop} {s s' : S} {p : Prog I α}
  {log : List (Sigma I.Reply)} {a : α}

theorem RunsIn.runsTo (h : RunsIn answer s p log s' a) : RunsTo p log a := by
  induction h with
  | ret s a => exact .ret a
  | call c k r _ _ ih => exact .call c k r ih

theorem runsIn_ret {b : α} : RunsIn answer s (ret b) log s' a ↔ log = [] ∧ s' = s ∧ a = b := by
  constructor
  · intro h
    cases h
    exact ⟨rfl, rfl, rfl⟩
  · intro h
    obtain ⟨hlog, hs, ha⟩ := h
    subst hlog hs ha
    exact .ret s' a

theorem runsIn_call {c : I.Call} {k : I.Reply c → Prog I α} :
    RunsIn answer s (call c k) log s' a ↔ ∃ r s₁ rest, log = ⟨c, r⟩ :: rest ∧
      answer s c r s₁ ∧ RunsIn answer s₁ (k r) rest s' a := by
  constructor
  · intro h
    cases h with
    | call c k r ha h => exact ⟨r, _, _, rfl, ha, h⟩
  · intro h
    obtain ⟨r, s₁, rest, hlog, ha, h⟩ := h
    subst hlog
    exact .call c k r ha h

/-- Sequencing against an environment. -/
theorem runsIn_bind {f : α → Prog I β} {b : β} :
    RunsIn answer s (p.bind f) log s' b ↔ ∃ first s₁ a second, log = first ++ second ∧
      RunsIn answer s p first s₁ a ∧ RunsIn answer s₁ (f a) second s' b := by
  induction p generalizing s log with
  | ret a =>
    constructor
    · intro h
      exact ⟨[], s, a, log, rfl, .ret s a, h⟩
    · intro h
      obtain ⟨first, s₁, a', second, hlog, hfirst, hsecond⟩ := h
      obtain ⟨hnil, hs, ha⟩ := runsIn_ret.mp hfirst
      subst hlog hnil hs ha
      exact hsecond
  | call c k ih =>
    constructor
    · intro h
      obtain ⟨r, s₁, rest, hlog, ha, hrest⟩ := runsIn_call.mp h
      obtain ⟨first, s₂, a, second, hrest', hfirst, hsecond⟩ := (ih r).mp hrest
      exact ⟨⟨c, r⟩ :: first, s₂, a, second, by rw [hlog, hrest']; rfl, .call c k r ha hfirst,
        hsecond⟩
    · intro h
      obtain ⟨first, s₂, a, second, hlog, hfirst, hsecond⟩ := h
      obtain ⟨r, s₁, rest, hrest, ha, hfirst⟩ := runsIn_call.mp hfirst
      exact runsIn_call.mpr ⟨r, s₁, rest ++ second, by rw [hlog, hrest]; rfl, ha,
        (ih r).mpr ⟨rest, s₂, a, second, rfl, hfirst, hsecond⟩⟩

/-- An environment that no call changes. -/
theorem RunsIn.unchanged (h : RunsIn answer s p log s' a)
    (hsame : ∀ s c r s', answer s c r s' → s' = s) : s' = s := by
  induction h with
  | ret s a => rfl
  | call c k r ha _ ih => exact ih.trans (hsame _ _ _ _ ha)

/-- A sequential run against a handler that gives admitted answers. -/
theorem exec_runsIn (ha : ∀ s c, answer s c (h c s).1 (h c s).2) (p : Prog I α) (s : S) :
    ∃ log, RunsIn answer s p log (p.exec h s).2 (p.exec h s).1 := by
  induction p generalizing s with
  | ret a => exact ⟨[], .ret s a⟩
  | call c k ih =>
    obtain ⟨log, hlog⟩ := ih (h c s).1 (h c s).2
    exact ⟨_, .call c k _ (ha s c) hlog⟩

/-- What every allowed call preserves holds when a disciplined program returns. -/
theorem RunsIn.invariant (Inv : S → Q → Prop)
    (hstep : ∀ (s s' : S) (q : Q) (c : I.Call) (r : I.Reply c),
      Inv s q → D.allowed q c → answer s c r s' → Inv s' (D.next q c r))
    (h : RunsIn answer s p log s' a) {q : Q} (hf : Follows D post q p) (hi : Inv s q) :
    ∃ q', post q' a ∧ Inv s' q' := by
  induction h generalizing q with
  | ret s a => exact ⟨q, hf, hi⟩
  | call c k r ha _ ih => exact ih (hf.2 r) (hstep _ _ q c r hi hf.1 ha)

/-- What an invariant says of every reply holds of all entries of the log. -/
theorem RunsIn.log_forall (Inv : S → Q → Prop) {P : Sigma I.Reply → Prop}
    (hstep : ∀ (s s' : S) (q : Q) (c : I.Call) (r : I.Reply c),
      Inv s q → D.allowed q c → answer s c r s' → Inv s' (D.next q c r) ∧ P ⟨c, r⟩)
    (h : RunsIn answer s p log s' a) {q : Q} (hf : Follows D post q p) (hi : Inv s q) :
    ∀ e ∈ log, P e := by
  induction h generalizing q with
  | ret s a => exact fun e he => absurd he List.not_mem_nil
  | call c k r ha _ ih =>
    obtain ⟨hi', hp⟩ := hstep _ _ q c r hi hf.1 ha
    intro e he
    rcases List.mem_cons.mp he with he | he
    · exact he ▸ hp
    · exact ih (hf.2 r) hi' e he

end Prog

open Prog

/-- A running call with the ghost record of what it has done. -/
structure Thread (I : Interface) (Q α : Type) where
  phase : Q
  prog : Prog I α

section Interleaving

variable {I : Interface} {Q S α : Type}

/-- One call of one thread. `answer` relates the state before, the call, its reply
and the state after; `guard` may restrict which steps are considered, looking at
the state, at the other threads and at the thread about to move. -/
inductive Step (next : Q → (c : I.Call) → I.Reply c → Q)
    (answer : S → (c : I.Call) → I.Reply c → S → Prop)
    (guard : S → List (Thread I Q α) → Thread I Q α → Prop) :
    S × List (Thread I Q α) → S × List (Thread I Q α) → Prop
  | call {s s' : S} (before after : List (Thread I Q α)) (q : Q) (c : I.Call)
      (k : I.Reply c → Prog I α) (r : I.Reply c) :
      guard s (before ++ after) ⟨q, .call c k⟩ → answer s c r s' →
      Step next answer guard (s, before ++ ⟨q, .call c k⟩ :: after)
        (s', before ++ ⟨next q c r, k r⟩ :: after)

/-- Every state some interleaving leads to. -/
abbrev Reach (next : Q → (c : I.Call) → I.Reply c → Q)
    (answer : S → (c : I.Call) → I.Reply c → S → Prop)
    (guard : S → List (Thread I Q α) → Thread I Q α → Prop) :
    S × List (Thread I Q α) → S × List (Thread I Q α) → Prop :=
  Relation.ReflTransGen (Step next answer guard)

variable {D : Discipline I Q} {answer : S → (c : I.Call) → I.Reply c → S → Prop}
  {guard : S → List (Thread I Q α) → Thread I Q α → Prop} {post : Q → α → Prop}

/-- All threads of a pool keep to the discipline. -/
def Disciplined (D : Discipline I Q) (post : Q → α → Prop) (ts : List (Thread I Q α)) : Prop :=
  ∀ t ∈ ts, Follows D post t.phase t.prog

theorem Step.disciplined {x y : S × List (Thread I Q α)} (h : Step D.next answer guard x y)
    (hx : Disciplined D post x.2) : Disciplined D post y.2 := by
  obtain ⟨before, after, q, c, k, r, _, _⟩ := h
  intro t ht
  rcases List.mem_append.mp ht with ht | ht
  · exact hx t (List.mem_append_left _ ht)
  · rcases List.mem_cons.mp ht with rfl | ht
    · exact (hx ⟨q, .call c k⟩ (by simp)).2 r
    · exact hx t (List.mem_append_right _ (List.mem_cons_of_mem _ ht))

/-- The invariant rule: what every allowed call preserves holds in every reachable
state of a disciplined pool. -/
theorem Reach.invariant (Inv : S → List Q → Prop)
    (hstep : ∀ (s s' : S) (before after : List (Thread I Q α)) (q : Q) (c : I.Call)
      (k : I.Reply c → Prog I α) (r : I.Reply c),
      Inv s (before.map Thread.phase ++ q :: after.map Thread.phase) → D.allowed q c →
      guard s (before ++ after) ⟨q, .call c k⟩ → answer s c r s' →
      Inv s' (before.map Thread.phase ++ D.next q c r :: after.map Thread.phase))
    {x y : S × List (Thread I Q α)} (hr : Reach D.next answer guard x y)
    (hd : Disciplined D post x.2) (hi : Inv x.1 (x.2.map Thread.phase)) :
    Disciplined D post y.2 ∧ Inv y.1 (y.2.map Thread.phase) := by
  induction hr with
  | refl => exact ⟨hd, hi⟩
  | tail _ hs ih =>
    obtain ⟨hd, hi⟩ := ih
    refine ⟨hs.disciplined hd, ?_⟩
    obtain ⟨before, after, q, c, k, r, ha, hc⟩ := hs
    have hallowed : D.allowed q c := (hd ⟨q, .call c k⟩ (by simp)).1
    simpa using hstep _ _ before after q c k r (by simpa using hi) hallowed ha hc

/-- The rule for invariants that speak of one thread at a time: the thread that moves reaches
what it needs, and every other thread keeps it. -/
theorem Reach.each (P : S → Q → Prop)
    (hstep : ∀ (s s' : S) (others : List (Thread I Q α)) (q : Q) (c : I.Call)
      (k : I.Reply c → Prog I α) (r : I.Reply c), P s q → D.allowed q c →
      guard s others ⟨q, .call c k⟩ → answer s c r s' →
      P s' (D.next q c r) ∧ ∀ o ∈ others, P s o.phase → P s' o.phase)
    {x y : S × List (Thread I Q α)} (hr : Reach D.next answer guard x y)
    (hd : Disciplined D post x.2) (hi : ∀ th ∈ x.2, P x.1 th.phase) :
    Disciplined D post y.2 ∧ ∀ th ∈ y.2, P y.1 th.phase := by
  induction hr with
  | refl => exact ⟨hd, hi⟩
  | tail _ hs ih =>
    obtain ⟨hd, hi⟩ := ih
    refine ⟨hs.disciplined hd, ?_⟩
    obtain ⟨before, after, q, c, k, r, hg, ha⟩ := hs
    have hallowed : D.allowed q c := (hd ⟨q, .call c k⟩ (by simp)).1
    obtain ⟨hown, hother⟩ := hstep _ _ (before ++ after) q c k r (hi ⟨q, .call c k⟩ (by simp))
      hallowed hg ha
    intro th hth
    simp only [List.mem_append, List.mem_cons] at hth
    rcases hth with hth | rfl | hth
    · exact hother th (List.mem_append_left _ hth) (hi th (by simp [hth]))
    · exact hown
    · exact hother th (List.mem_append_right _ hth) (hi th (by simp [hth]))

/-! Concrete interleavings are executed rather than derived: a schedule names, step by
step, the thread that moves. -/

/-- The thread at position `i` issues its next call, which `h` answers. -/
def runStep (next : Q → (c : I.Call) → I.Reply c → Q) (h : (c : I.Call) → S → I.Reply c × S)
    (x : S × List (Thread I Q α)) (i : ℕ) : S × List (Thread I Q α) :=
  match x.2[i]? with
  | some ⟨q, .call c k⟩ => ((h c x.1).2, x.2.set i ⟨next q c (h c x.1).1, k (h c x.1).1⟩)
  | _ => x

def runSchedule (next : Q → (c : I.Call) → I.Reply c → Q)
    (h : (c : I.Call) → S → I.Reply c × S) (x : S × List (Thread I Q α)) (schedule : List ℕ) :
    S × List (Thread I Q α) :=
  schedule.foldl (runStep next h) x

/-- Every step of the schedule passes the guard. -/
def ScheduleAllowed (next : Q → (c : I.Call) → I.Reply c → Q)
    (h : (c : I.Call) → S → I.Reply c × S)
    (guard : S → List (Thread I Q α) → Thread I Q α → Prop) :
    List ℕ → S × List (Thread I Q α) → Prop
  | [], _ => True
  | i :: rest, x => (∀ th ∈ x.2[i]?, guard x.1 (x.2.eraseIdx i) th) ∧
      ScheduleAllowed next h guard rest (runStep next h x i)

instance (next : Q → (c : I.Call) → I.Reply c → Q) (h : (c : I.Call) → S → I.Reply c × S)
    (guard : S → List (Thread I Q α) → Thread I Q α → Prop)
    [∀ s others th, Decidable (guard s others th)] :
    (schedule : List ℕ) → (x : S × List (Thread I Q α)) →
      Decidable (ScheduleAllowed next h guard schedule x)
  | [], _ => isTrue trivial
  | i :: rest, x =>
    have : Decidable (ScheduleAllowed next h guard rest (runStep next h x i)) :=
      instDecidableScheduleAllowed next h guard rest _
    inferInstanceAs (Decidable (_ ∧ _))

theorem runStep_reach {next : Q → (c : I.Call) → I.Reply c → Q}
    {h : (c : I.Call) → S → I.Reply c × S} (ha : ∀ s c, answer s c (h c s).1 (h c s).2)
    {x : S × List (Thread I Q α)} {i : ℕ}
    (hg : ∀ th ∈ x.2[i]?, guard x.1 (x.2.eraseIdx i) th) :
    Reach next answer guard x (runStep next h x i) := by
  unfold runStep
  split
  · rename_i q c k hi
    obtain ⟨s, ts⟩ := x
    simp only at hi hg ⊢
    obtain ⟨hl, hget⟩ := List.getElem?_eq_some_iff.mp hi
    have hsplit : ts = ts.take i ++ ⟨q, .call c k⟩ :: ts.drop (i + 1) := by
      rw [← hget, List.getElem_cons_drop, List.take_append_drop]
    rw [List.set_eq_take_append_cons_drop, if_pos hl]
    apply Relation.ReflTransGen.single
    have hguard := hg _ hi
    rw [List.eraseIdx_eq_take_drop_succ] at hguard
    have hstep : Step next answer guard (s, ts.take i ++ ⟨q, .call c k⟩ :: ts.drop (i + 1)) _ :=
      Step.call (ts.take i) (ts.drop (i + 1)) q c k _ hguard (ha s c)
    rwa [← hsplit] at hstep
  · exact Relation.ReflTransGen.refl

/-- What a schedule executes is an interleaving. -/
theorem runSchedule_reach {next : Q → (c : I.Call) → I.Reply c → Q}
    {h : (c : I.Call) → S → I.Reply c × S} (ha : ∀ s c, answer s c (h c s).1 (h c s).2)
    {schedule : List ℕ} {x : S × List (Thread I Q α)}
    (hg : ScheduleAllowed next h guard schedule x) :
    Reach next answer guard x (runSchedule next h x schedule) := by
  induction schedule generalizing x with
  | nil => exact Relation.ReflTransGen.refl
  | cons i rest ih => exact (runStep_reach ha hg.1).trans (ih hg.2)

end Interleaving

end GraphqlOrmStorage.Program
