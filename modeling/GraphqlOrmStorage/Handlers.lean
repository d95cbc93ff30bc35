import GraphqlOrmStorage.Program

/-!
# Calls carried out by programs

A program over one interface is carried out over a finer one, where each of its calls is a
program of its own. A state goes along from call to call, for what the caller keeps in
between. The runs of the whole are the runs of the program with every entry of the log
replaced by a run of its call, so what holds of all runs of the program still holds. A
discipline that the calls are carried out in is kept to all along a run.
-/
namespace GraphqlOrmStorage.Program.Prog

variable {I J : Interface} {σ α β Q : Type} {h : σ → (c : I.Call) → Prog J (I.Reply c × σ)}

def carryOut (h : σ → (c : I.Call) → Prog J (I.Reply c × σ)) : Prog I α → σ → Prog J (α × σ)
  | ret a, x => ret (a, x)
  | call c k, x => (h x c).bind fun r => (k r.1).carryOut h r.2

@[simp] theorem carryOut_ret (a : α) (x : σ) :
    (ret a : Prog I α).carryOut h x = ret (a, x) := rfl

@[simp] theorem carryOut_call (c : I.Call) (k : I.Reply c → Prog I α) (x : σ) :
    (call c k).carryOut h x = (h x c).bind fun r => (k r.1).carryOut h r.2 := rfl

/-- The second log has something that reads as it for each entry of the first. -/
inductive Expands (reads : σ → (c : I.Call) → I.Reply c → List (Sigma J.Reply) → σ → Prop) :
    σ → List (Sigma I.Reply) → List (Sigma J.Reply) → σ → Prop
  | nil (x : σ) : Expands reads x [] [] x
  | cons {x x₁ x' : σ} {c : I.Call} {r : I.Reply c} {piece : List (Sigma J.Reply)}
      {log : List (Sigma I.Reply)} {log' : List (Sigma J.Reply)} :
      reads x c r piece x₁ → Expands reads x₁ log log' x' →
      Expands reads x (⟨c, r⟩ :: log) (piece ++ log') x'

/-- The runs of a program that is carried out, by what the runs of its calls are. -/
theorem runsTo_carryOut {reads : σ → (c : I.Call) → I.Reply c → List (Sigma J.Reply) → σ → Prop}
    (hreads : ∀ x c r piece x', RunsTo (h x c) piece (r, x') ↔ reads x c r piece x')
    {p : Prog I α} {x x' : σ} {log' : List (Sigma J.Reply)} {a : α} :
    RunsTo (p.carryOut h x) log' (a, x') ↔
      ∃ log, RunsTo p log a ∧ Expands reads x log log' x' := by
  induction p generalizing x log' with
  | ret b =>
    simp only [carryOut_ret, runsTo_ret, Prod.mk.injEq]
    constructor
    · rintro ⟨rfl, rfl, rfl⟩
      exact ⟨[], ⟨rfl, rfl⟩, .nil x'⟩
    · rintro ⟨log, ⟨rfl, rfl⟩, hexpands⟩
      cases hexpands
      exact ⟨rfl, rfl, rfl⟩
  | call c k ih =>
    simp only [carryOut_call, runsTo_bind]
    constructor
    · rintro ⟨piece, ⟨r, x₁⟩, rest, rfl, hpiece, hrest⟩
      obtain ⟨log, hrun, hexpands⟩ := (ih r).mp hrest
      exact ⟨⟨c, r⟩ :: log, .call c k r hrun, .cons ((hreads ..).mp hpiece) hexpands⟩
    · rintro ⟨log, hrun, hexpands⟩
      cases hrun with
      | call _ _ r hrun =>
        cases hexpands with
        | cons hpiece hexpands =>
          exact ⟨_, (r, _), _, rfl, (hreads ..).mpr hpiece, (ih r).mpr ⟨_, hrun, hexpands⟩⟩

/-- A discipline that every call is carried out in, from one resting phase to the next. -/
theorem Follows.carryOut {D : Discipline J Q} {rests : Q → σ → Prop}
    (hcalls : ∀ q x c, rests q x → Follows D (fun q' r => rests q' r.2) q (h x c)) (p : Prog I α)
    {q : Q} {x : σ} (hq : rests q x) :
    Follows D (fun q' r => rests q' r.2) q (p.carryOut h x) := by
  induction p generalizing q x with
  | ret a => exact hq
  | call c k ih => exact (hcalls q x c hq).bind fun q' r hq' => ih r.1 hq'

/-- The phase that the entries of a log lead to. -/
def Discipline.after (D : Discipline I Q) (q : Q) (log : List (Sigma I.Reply)) : Q :=
  log.foldl (fun q e => D.next q e.1 e.2) q

/-- A disciplined program keeps to the discipline all along each of its runs. -/
theorem Follows.along {D : Discipline I Q} {post : Q → α → Prop} {q : Q} {p : Prog I α}
    (hf : Follows D post q p) {log : List (Sigma I.Reply)} {a : α} (h : RunsTo p log a) :
    (∀ before e after, log = before ++ e :: after → D.allowed (D.after q before) e.1) ∧
      post (D.after q log) a := by
  induction h generalizing q with
  | ret a => exact ⟨fun before e after heq => by simp at heq, hf⟩
  | call c k r _ ih =>
    obtain ⟨hallowed, hend⟩ := ih (hf.2 r)
    refine ⟨fun before e after heq => ?_, hend⟩
    cases before with
    | nil =>
      obtain ⟨rfl, rfl⟩ := List.cons.inj heq
      exact hf.1
    | cons e' before =>
      obtain ⟨rfl, hrest⟩ := List.cons.inj heq
      exact hallowed before e after hrest

end GraphqlOrmStorage.Program.Prog
