import GraphqlOrmStorage.Program

/-!
# Two runs side by side

Two programs are related when they issue the same calls as long as they get related
replies, and return related results. Handlers that keep related states related and
reply alike in them then give related results. A program is related to itself when it
makes no use of what tells related replies apart.
-/
namespace GraphqlOrmStorage.Program

namespace Prog

variable {I : Interface} {α β γ δ S T : Type} {ρ : (c : I.Call) → I.Reply c → I.Reply c → Prop}

/-- The programs go the same way on related replies, to related results. -/
inductive Related (ρ : (c : I.Call) → I.Reply c → I.Reply c → Prop) (R : α → β → Prop) :
    Prog I α → Prog I β → Prop
  | ret {a : α} {b : β} : R a b → Related ρ R (ret a) (ret b)
  | call (c : I.Call) {k : I.Reply c → Prog I α} {k' : I.Reply c → Prog I β} :
      (∀ r r', ρ c r r' → Related ρ R (k r) (k' r')) → Related ρ R (call c k) (call c k')

theorem Related.bind {R : α → β → Prop} {Q : γ → δ → Prop} {p : Prog I α} {p' : Prog I β}
    {f : α → Prog I γ} {f' : β → Prog I δ} (hp : Related ρ R p p')
    (hf : ∀ a b, R a b → Related ρ Q (f a) (f' b)) : Related ρ Q (p.bind f) (p'.bind f') := by
  induction hp with
  | ret hr => exact hf _ _ hr
  | call c _ ih => exact .call c ih

/-- A program that is related to itself by equality, followed by related ones. -/
theorem Related.bind_eq {Q : γ → δ → Prop} {p : Prog I α} {f : α → Prog I γ} {f' : α → Prog I δ}
    (hp : Related ρ Eq p p) (hf : ∀ a, Related ρ Q (f a) (f' a)) :
    Related ρ Q (p.bind f) (p.bind f') := by
  apply hp.bind
  intro a b hab
  subst hab
  exact hf a

theorem Related.perform (c : I.Call) : Related ρ (ρ c) (perform c) (perform c) :=
  .call c fun _ _ hr => .ret hr

/-- A call whose related replies are equal. -/
theorem Related.perform_eq {c : I.Call} (h : ∀ r r', ρ c r r' → r = r') :
    Related ρ Eq (Prog.perform c) (Prog.perform c) :=
  .call c fun r r' hr => .ret (h r r' hr)

/-- Related programs return related results from related states. -/
theorem Related.exec {R : α → β → Prop} {p : Prog I α} {p' : Prog I β} (hp : Related ρ R p p')
    {h : (c : I.Call) → S → I.Reply c × S} {h' : (c : I.Call) → T → I.Reply c × T}
    {Q : S → T → Prop}
    (hh : ∀ c s t, Q s t → ρ c (h c s).1 (h' c t).1 ∧ Q (h c s).2 (h' c t).2) {s : S} {t : T}
    (hst : Q s t) : R (p.exec h s).1 (p'.exec h' t).1 ∧ Q (p.exec h s).2 (p'.exec h' t).2 := by
  induction hp generalizing s t with
  | ret hr => exact ⟨hr, hst⟩
  | call c _ ih =>
    obtain ⟨hreply, hnext⟩ := hh c s t hst
    exact ih _ _ hreply hnext

end Prog

end GraphqlOrmStorage.Program
