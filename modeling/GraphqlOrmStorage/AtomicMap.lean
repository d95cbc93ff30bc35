import GraphqlOrmStorage.Linearization

/-!
# A map changed one event at a time

The object that a store of contents under keys stands for. An event writes, copies or
erases the content of one key, or sees what one holds. A key that is created twice has
been erased in between, and events that keep to one set of keys do not depend on the
events that keep out of it.
-/
namespace GraphqlOrmStorage.Program

inductive MapEvent (K V : Type) where
  | wrote (k : K) (v : V)
  | created (k : K) (v : V)
  | copied (src dst : K)
  | erased (k : K)
  | saw (k : K) (content : Option V)

namespace MapEvent

variable {K V : Type}

/-- What a map holds under some of the keys. -/
def only (S : K → Prop) [DecidablePred S] (M : K → Option V) : K → Option V :=
  fun k => if S k then M k else none

theorem only_congr {S : K → Prop} [DecidablePred S] {M M' : K → Option V}
    (h : ∀ k, S k → M' k = M k) : only S M' = only S M := by
  funext k
  simp only [only]
  split_ifs with hk
  · exact h k hk
  · rfl

variable [DecidableEq K]

/-- What an event finds and leaves behind. -/
def Effect : MapEvent K V → (K → Option V) → (K → Option V) → Prop
  | .wrote k v, M, M' => M' = Function.update M k (some v)
  | .created k v, M, M' => M k = none ∧ M' = Function.update M k (some v)
  | .copied src dst, M, M' => ∃ v, M src = some v ∧ M' = Function.update M dst (some v)
  | .erased k, M, M' => M' = Function.update M k none
  | .saw k content, M, M' => M k = content ∧ M' = M

/-- The keys that an event names. -/
def keys : MapEvent K V → List K
  | .wrote k _ | .created k _ | .erased k | .saw k _ => [k]
  | .copied src dst => [src, dst]

/-- The key that an event gives a content. -/
def filled : MapEvent K V → Option K
  | .wrote k _ | .created k _ | .copied _ k => some k
  | .erased _ | .saw _ _ => none

/-- An event changes no key that it does not name. -/
theorem Effect.other {e : MapEvent K V} {M M' : K → Option V} (h : e.Effect M M') {k : K}
    (hk : k ∉ e.keys) : M' k = M k := by
  cases e with
  | wrote k' v | erased k' =>
    have hne : k ≠ k' := by simpa [keys] using hk
    rw [show M' = _ from h, Function.update_of_ne hne]
  | created k' v =>
    have hne : k ≠ k' := by simpa [keys] using hk
    rw [h.2, Function.update_of_ne hne]
  | copied src dst =>
    obtain ⟨v, _, hM⟩ := h
    have hne : k ≠ dst := by
      simp only [keys, List.mem_cons, List.not_mem_nil, or_false, not_or] at hk
      exact hk.2
    rw [hM, Function.update_of_ne hne]
  | saw k' content => rw [h.2]

/-- Only an erasure empties a key. -/
theorem Effect.holds {e : MapEvent K V} {M M' : K → Option V} (h : e.Effect M M') {k : K}
    (he : e ≠ .erased k) (hk : M k ≠ none) : M' k ≠ none := by
  cases e with
  | wrote k' v =>
    rw [show M' = _ from h, Function.update_apply]
    split_ifs
    · simp
    · exact hk
  | created k' v =>
    rw [h.2, Function.update_apply]
    split_ifs
    · simp
    · exact hk
  | copied src dst =>
    obtain ⟨v, _, hM⟩ := h
    rw [hM, Function.update_apply]
    split_ifs
    · simp
    · exact hk
  | erased k' =>
    have hne : k ≠ k' := fun heq => he (by rw [heq])
    rw [show M' = _ from h, Function.update_of_ne hne]
    exact hk
  | saw k' content => rwa [h.2]

/-- Between two creations of a key it is erased. -/
theorem erased_between {before between after : List (MapEvent K V)} {k : K} {v v' : V}
    {M M' : K → Option V}
    (h : Replays Effect M (before ++ .created k v :: (between ++ .created k v' :: after)) M') :
    .erased k ∈ between := by
  obtain ⟨M₁, _, h⟩ := replays_append.mp h
  obtain ⟨M₂, hfirst, h⟩ := replays_cons.mp h
  obtain ⟨M₃, hbetween, h⟩ := replays_append.mp h
  obtain ⟨M₄, hsecond, _⟩ := replays_cons.mp h
  by_contra hnot
  have hstart : M₂ k ≠ none := by
    rw [hfirst.2, Function.update_self]
    simp
  have hend : M₃ k ≠ none := hbetween.invariant hstart fun e he N N' heff hN =>
    heff.holds (fun heq => hnot (heq ▸ he)) hN
  exact hend hsecond.1

/-- The content that an event brings in. -/
def value : MapEvent K V → Option V
  | .wrote _ v | .created _ v => some v
  | _ => none

/-- Contents come from the start of a run or were brought in by an event. -/
theorem contents_from {P : V → Prop} {events : List (MapEvent K V)} {M M' : K → Option V}
    (h : Replays Effect M events M') (hstart : ∀ k v, M k = some v → P v)
    (hvalue : ∀ e ∈ events, ∀ v, e.value = some v → P v) : ∀ k v, M' k = some v → P v := by
  refine Replays.invariant (P := fun N => ∀ k v, N k = some v → P v) h hstart
    fun e he N N' heff hN => ?_
  have hupdate : ∀ k' v', P v' → ∀ k v, Function.update N k' (some v') k = some v → P v := by
    intro k' v' hv' k v hk
    rw [Function.update_apply] at hk
    split_ifs at hk
    · exact Option.some.inj hk ▸ hv'
    · exact hN k v hk
  cases e with
  | wrote k' v' =>
    rw [show N' = _ from heff]
    exact hupdate k' v' (hvalue _ he v' rfl)
  | created k' v' =>
    rw [heff.2]
    exact hupdate k' v' (hvalue _ he v' rfl)
  | copied src dst =>
    obtain ⟨v', hsrc, hN'⟩ := heff
    rw [hN']
    exact hupdate dst v' (hN src v' hsrc)
  | erased k' =>
    intro k v hk
    rw [show N' = _ from heff, Function.update_apply] at hk
    split_ifs at hk
    exact hN k v hk
  | saw k' content =>
    rw [heff.2]
    exact hN

/-! ### A part of the keys -/

section Parts

variable {S : K → Prop} [DecidablePred S]

theorem only_update {M : K → Option V} {k : K} (hk : S k) (content : Option V) :
    only S (Function.update M k content) = Function.update (only S M) k content := by
  funext k'
  simp only [only, Function.update_apply]
  split_ifs with h₁ h₂ <;> first | rfl | exact absurd (‹k' = k› ▸ hk) h₁

theorem Effect.only {e : MapEvent K V} {M M' : K → Option V} (h : e.Effect M M')
    (hkeys : ∀ k ∈ e.keys, S k) : e.Effect (only S M) (only S M') := by
  have hself : ∀ {k : K}, S k → MapEvent.only S M k = M k := fun hk => if_pos hk
  cases e with
  | wrote k v | erased k =>
    rw [show M' = _ from h, only_update (hkeys k (by simp [keys]))]
    rfl
  | created k v =>
    have hk := hkeys k (by simp [keys])
    rw [h.2, only_update hk]
    exact ⟨(hself hk).trans h.1, rfl⟩
  | copied src dst =>
    obtain ⟨v, hsrc, hM⟩ := h
    rw [hM, only_update (hkeys dst (by simp [keys]))]
    exact ⟨v, (hself (hkeys src (by simp [keys]))).trans hsrc, rfl⟩
  | saw k content =>
    rw [h.2]
    exact ⟨(hself (hkeys k (by simp [keys]))).trans h.1, rfl⟩

/-- Events that keep to some keys do not depend on events that keep out of them. -/
theorem replays_only {T : Type} {order : List (T × MapEvent K V)} (inside : T → Bool)
    {M M' : K → Option V} (h : Replays Effect M (order.map Prod.snd) M')
    (hin : ∀ e ∈ order, inside e.1 = true → ∀ k ∈ e.2.keys, S k)
    (hout : ∀ e ∈ order, inside e.1 = false → ∀ k ∈ e.2.keys, ¬ S k) :
    Replays Effect (only S M) ((order.filter fun e => inside e.1).map Prod.snd) (only S M') := by
  induction order using List.reverseRecOn generalizing M' with
  | nil =>
    rw [replays_nil.mp h]
    exact .nil
  | append_singleton order e ih =>
    rw [List.map_append, List.map_singleton] at h
    obtain ⟨N, h, he⟩ := replays_snoc.mp h
    have hrest := ih h (fun e' he' => hin e' (List.mem_append_left _ he'))
      fun e' he' => hout e' (List.mem_append_left _ he')
    rw [List.filter_append, List.map_append]
    cases hinside : inside e.1 with
    | true =>
      rw [List.filter_singleton, hinside]
      exact hrest.snoc (he.only (hin e (by simp) hinside))
    | false =>
      have hsame : only S M' = only S N :=
        only_congr fun k hk => he.other fun hmem => hout e (by simp) hinside k hmem hk
      rw [List.filter_singleton, hinside, hsame]
      simpa using hrest

end Parts

end MapEvent

end GraphqlOrmStorage.Program
