import GraphqlOrmStorage.Program

/-!
# Rules of postconditions, and services that implementations refine

A program ensures a postcondition when each of its runs against an environment ends with
it; the rules follow the constructors. A service answers calls out of a state of its own.
An implementation refines it through a view of its states: then whole sessions are
answered alike, and any two implementations of one service agree.
-/
namespace GraphqlOrmStorage.Program

namespace Prog

variable {I : Interface} {S α β : Type} {answer : S → (c : I.Call) → I.Reply c → S → Prop}
  {s : S} {post post' : S → α → Prop}

/-- Every run from this state ends as the postcondition says. -/
def Ensures (answer : S → (c : I.Call) → I.Reply c → S → Prop) (s : S) (p : Prog I α)
    (post : S → α → Prop) : Prop :=
  ∀ log s' a, RunsIn answer s p log s' a → post s' a

@[simp] theorem ensures_ret {a : α} : Ensures answer s (ret a) post ↔ post s a := by
  constructor
  · exact fun h => h [] s a (.ret s a)
  · intro h log s' a' hrun
    obtain ⟨_, hs, ha⟩ := runsIn_ret.mp hrun
    exact hs ▸ ha ▸ h

theorem ensures_call {c : I.Call} {k : I.Reply c → Prog I α} :
    Ensures answer s (call c k) post ↔
      ∀ r s', answer s c r s' → Ensures answer s' (k r) post := by
  constructor
  · exact fun h r s' ha log s'' a hrun => h _ s'' a (.call c k r ha hrun)
  · intro h log s' a hrun
    obtain ⟨r, s₁, rest, _, ha, hrest⟩ := runsIn_call.mp hrun
    exact h r s₁ ha rest s' a hrest

/-- What the first part ensures must be enough for the second. -/
theorem ensures_bind {p : Prog I α} {f : α → Prog I β} {post : S → β → Prop} :
    Ensures answer s (p.bind f) post ↔
      Ensures answer s p fun s' a => Ensures answer s' (f a) post := by
  constructor
  · exact fun h first s₁ a hfirst second s' b hsecond =>
      h _ s' b (runsIn_bind.mpr ⟨first, s₁, a, second, rfl, hfirst, hsecond⟩)
  · intro h log s' b hrun
    obtain ⟨first, s₁, a, second, _, hfirst, hsecond⟩ := runsIn_bind.mp hrun
    exact h first s₁ a hfirst second s' b hsecond

theorem Ensures.mono {p : Prog I α} (h : Ensures answer s p post)
    (himp : ∀ s' a, post s' a → post' s' a) : Ensures answer s p post' :=
  fun log s' a hrun => himp s' a (h log s' a hrun)

/-- A part whose result is known. -/
theorem Ensures.bind {p : Prog I α} {f : α → Prog I β} {post' : S → β → Prop}
    (h : Ensures answer s p post) (hf : ∀ s' a, post s' a → Ensures answer s' (f a) post') :
    Ensures answer s (p.bind f) post' :=
  ensures_bind.mpr (h.mono hf)

/-- A run against an environment is one against any that allows more. -/
theorem RunsIn.weaken {answer' : S → (c : I.Call) → I.Reply c → S → Prop} {s' : S}
    {p : Prog I α} {log : List (Sigma I.Reply)} {a : α} (h : RunsIn answer s p log s' a)
    (himp : ∀ s c r s', answer s c r s' → answer' s c r s') : RunsIn answer' s p log s' a := by
  induction h with
  | ret s a => exact .ret s a
  | call c k r ha _ ih => exact .call c k r (himp _ _ _ _ ha) ih

/-- Where every call is answered, every program has a run. -/
theorem exists_run (htotal : ∀ s c, ∃ r s', answer s c r s') (p : Prog I α) (s : S) :
    ∃ log s' a, RunsIn answer s p log s' a := by
  induction p generalizing s with
  | ret a => exact ⟨[], s, a, .ret s a⟩
  | call c k ih =>
    obtain ⟨r, s₁, ha⟩ := htotal s c
    obtain ⟨log, s', a, hrun⟩ := ih r s₁
    exact ⟨_, s', a, .call c k r ha hrun⟩

end Prog

/-! ### Services -/

section Services

variable {S T M Q A A' B : Type}

/-- The answers to calls one after another. -/
def answers (service : M → Q → B × M) : M → List Q → List B
  | _, [] => []
  | M, q :: rest => (service M q).1 :: answers service (service M q).2 rest

/-- What the calls leave behind. -/
def final (service : M → Q → B × M) : M → List Q → M
  | M, [] => M
  | M, q :: rest => final service (service M q).2 rest

/-- The condition holds of each call when its turn has come. -/
def AllWithin (service : M → Q → B × M) (within : M → Q → Prop) : M → List Q → Prop
  | _, [] => True
  | M, q :: rest => within M q ∧ AllWithin service within (service M q).2 rest

instance AllWithin.decidable (service : M → Q → B × M) (within : M → Q → Prop)
    [∀ M q, Decidable (within M q)] : (M : M) → (calls : List Q) →
      Decidable (AllWithin service within M calls)
  | _, [] => inferInstanceAs (Decidable True)
  | M, q :: rest =>
    have := AllWithin.decidable service within (service M q).2 rest
    inferInstanceAs (Decidable (within M q ∧ AllWithin service within (service M q).2 rest))

theorem AllWithin.mono {service : M → Q → B × M} {within within' : M → Q → Prop}
    (himp : ∀ M q, within M q → within' M q) {M : M} {calls : List Q}
    (h : AllWithin service within M calls) : AllWithin service within' M calls := by
  induction calls generalizing M with
  | nil => trivial
  | cons q rest ih => exact ⟨himp _ _ h.1, ih h.2⟩

theorem allWithin_of_forall {service : M → Q → B × M} {within : M → Q → Prop} {calls : List Q}
    (h : ∀ q ∈ calls, ∀ M, within M q) (M : M) : AllWithin service within M calls := by
  induction calls generalizing M with
  | nil => trivial
  | cons q rest ih =>
    exact ⟨h q List.mem_cons_self M, ih (fun q hq => h q (List.mem_cons_of_mem _ hq)) _⟩

/-- Calls on an implementation, one after another. -/
inductive Session (does : S → Q → A → S → Prop) : S → List Q → List A → S → Prop
  | nil (s : S) : Session does s [] [] s
  | cons {s s₁ s' : S} {q : Q} {a : A} {rest : List Q} {answered : List A} : does s q a s₁ →
      Session does s₁ rest answered s' → Session does s (q :: rest) (a :: answered) s'

/-- Each call within the limits is answered as by the service, and the view is kept. -/
def Refines (does : S → Q → A → S → Prop) (view : S → M → Prop) (within : M → Q → Prop)
    (service : M → Q → B × M) (alike : A → B → Prop) : Prop :=
  ∀ s M q a s', view s M → within M q → does s q a s' →
    alike a (service M q).1 ∧ view s' (service M q).2

variable {does : S → Q → A → S → Prop} {view : S → M → Prop} {within : M → Q → Prop}
  {service : M → Q → B × M} {alike : A → B → Prop}

/-- Whole sessions are answered as by the service. -/
theorem Refines.session (h : Refines does view within service alike) {s s' : S} {M : M}
    {calls : List Q} {answered : List A} (hs : view s M)
    (hwithin : AllWithin service within M calls) (hsession : Session does s calls answered s') :
    List.Forall₂ alike answered (answers service M calls) ∧
      view s' (final service M calls) := by
  induction hsession generalizing M with
  | nil s => exact ⟨.nil, hs⟩
  | cons hdoes _ ih =>
    obtain ⟨ha, hs₁⟩ := h _ M _ _ _ hs hwithin.1 hdoes
    obtain ⟨hrest, hs'⟩ := ih hs₁ hwithin.2
    exact ⟨.cons ha hrest, hs'⟩

/-- Where each call is answered, a session goes on to its end. -/
theorem Refines.exists_session (h : Refines does view within service alike)
    (hanswered : ∀ s M q, view s M → within M q → ∃ a s', does s q a s') {s : S} {M : M}
    {calls : List Q} (hs : view s M) (hwithin : AllWithin service within M calls) :
    ∃ answered s', Session does s calls answered s' := by
  induction calls generalizing s M with
  | nil => exact ⟨[], s, .nil s⟩
  | cons q rest ih =>
    obtain ⟨a, s₁, hdoes⟩ := hanswered s M q hs hwithin.1
    obtain ⟨answered, s', hrest⟩ := ih (h _ M _ _ _ hs hwithin.1 hdoes).2 hwithin.2
    exact ⟨_, s', .cons hdoes hrest⟩

/-- A service on top, each call of which makes one call below. -/
theorem Refines.adapt {N Q' A' B' : Type} {does' : S → Q' → A' → S → Prop} {below : Q' → Q}
    {gives : Q' → A → A' → Prop} {keeps : M → N → Prop} {within' : N → Q' → Prop}
    {service' : N → Q' → B' × N} {alike' : A' → B' → Prop}
    (h : Refines does view within service alike)
    (hdoes : ∀ s q a' s', does' s q a' s' → ∃ a, does s (below q) a s' ∧ gives q a a')
    (hup : ∀ M N q, keeps M N → within' N q → within M (below q) ∧
      keeps (service M (below q)).2 (service' N q).2 ∧
        ∀ a a', alike a (service M (below q)).1 → gives q a a' → alike' a' (service' N q).1) :
    Refines does' (fun s N => ∃ M, view s M ∧ keeps M N) within' service' alike' := by
  intro s N q a' s' hview hwithin' hd
  obtain ⟨M, hs, hkeeps⟩ := hview
  obtain ⟨a, hda, hgives⟩ := hdoes s q a' s' hd
  obtain ⟨hwithin, hkeeps', halike⟩ := hup M N q hkeeps hwithin'
  obtain ⟨ha, hs'⟩ := h s M (below q) a s' hs hwithin hda
  exact ⟨halike a a' ha hgives, _, hs', hkeeps'⟩

/-- Calls that are run one after another are a session. -/
theorem session_of_run (run : S → Q → A × S) (ready : S → Q → Prop)
    (h : ∀ s q, ready s q → does s q (run s q).1 (run s q).2) {s : S} {calls : List Q}
    (hready : AllWithin run ready s calls) :
    Session does s calls (answers run s calls) (final run s calls) := by
  induction calls generalizing s with
  | nil => exact .nil s
  | cons q rest ih => exact .cons (h s q hready.1) (ih hready.2)

end Services

end GraphqlOrmStorage.Program
