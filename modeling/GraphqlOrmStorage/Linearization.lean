import GraphqlOrmStorage.Program

/-!
# The order in which calls take effect

Some steps of a pool change what an abstract object holds, or read it. Such a step is
an event of the call that makes it, and between two events the object stays as it is.
So the events, each noted with the position of its call, lead from the object at the
start to the object reached (`Reach.linearized`). The order of the events grows at its
end only: a call that has returned comes before every call that begins afterwards.
-/
namespace GraphqlOrmStorage.Program

open Prog

section Events

variable {E A : Type}

/-- The events lead from one state of the object to another. -/
inductive Replays (effect : E → A → A → Prop) : A → List E → A → Prop
  | nil {a : A} : Replays effect a [] a
  | snoc {a a' a'' : A} {events : List E} {e : E} : Replays effect a events a' →
      effect e a' a'' → Replays effect a (events ++ [e]) a''

variable {effect : E → A → A → Prop}

theorem replays_nil {a a' : A} : Replays effect a [] a' ↔ a' = a := by
  constructor
  · intro h
    generalize hevents : ([] : List E) = events at h
    cases h with
    | nil => rfl
    | snoc _ _ => simp at hevents
  · rintro rfl
    exact .nil

theorem replays_snoc {a a'' : A} {events : List E} {e : E} :
    Replays effect a (events ++ [e]) a'' ↔ ∃ a', Replays effect a events a' ∧ effect e a' a'' := by
  constructor
  · intro h
    generalize hall : events ++ [e] = all at h
    cases h with
    | nil => simp at hall
    | snoc h he =>
      obtain ⟨hevents, hlast⟩ := List.append_inj' hall rfl
      exact ⟨_, hevents ▸ h, (List.cons.inj hlast).1 ▸ he⟩
  · rintro ⟨a', h, he⟩
    exact h.snoc he

theorem replays_append {a a'' : A} {first second : List E} :
    Replays effect a (first ++ second) a'' ↔
      ∃ a', Replays effect a first a' ∧ Replays effect a' second a'' := by
  induction second using List.reverseRecOn generalizing a'' with
  | nil => simp [replays_nil]
  | append_singleton second e ih =>
    simp only [← List.append_assoc, replays_snoc, ih]
    tauto

theorem replays_cons {a a'' : A} {e : E} {rest : List E} :
    Replays effect a (e :: rest) a'' ↔ ∃ a', effect e a a' ∧ Replays effect a' rest a'' := by
  have hone : ∀ a', Replays effect a [e] a' ↔ effect e a a' := fun a' => by
    rw [← List.nil_append [e], replays_snoc]
    simp only [replays_nil, exists_eq_left]
  rw [← List.singleton_append, replays_append]
  simp only [hone]

/-- What every event of a run preserves holds at its end. -/
theorem Replays.invariant {P : A → Prop} {a a' : A} {events : List E}
    (h : Replays effect a events a') (hp : P a)
    (hstep : ∀ e ∈ events, ∀ b b', effect e b b' → P b → P b') : P a' := by
  induction h with
  | nil => exact hp
  | snoc _ he ih =>
    refine hstep _ (by simp) _ _ he (ih fun e hmem => ?_)
    exact hstep e (List.mem_append_left _ hmem)

/-- The events of the call at a position. -/
def eventsOf (i : ℕ) (order : List (ℕ × E)) : List E :=
  order.filterMap fun e => if e.1 = i then some e.2 else none

@[simp] theorem eventsOf_nil (i : ℕ) : eventsOf i ([] : List (ℕ × E)) = [] := rfl

@[simp] theorem eventsOf_append (i : ℕ) (first second : List (ℕ × E)) :
    eventsOf i (first ++ second) = eventsOf i first ++ eventsOf i second :=
  List.filterMap_append

theorem eventsOf_self (i : ℕ) (e : E) : eventsOf i [(i, e)] = [e] := by simp [eventsOf]

theorem eventsOf_other {i j : ℕ} (h : j ≠ i) (e : E) : eventsOf i [(j, e)] = [] := by
  simp [eventsOf, h]

theorem mem_eventsOf {i : ℕ} {e : E} {order : List (ℕ × E)} :
    e ∈ eventsOf i order ↔ (i, e) ∈ order := by
  simp only [eventsOf, List.mem_filterMap, Prod.exists, Option.ite_none_right_eq_some,
    Option.some.injEq]
  constructor
  · intro h
    obtain ⟨j, e', hmem, hj, he⟩ := h
    exact hj ▸ he ▸ hmem
  · intro h
    exact ⟨i, e, h, rfl, rfl⟩

end Events

section Pools

variable {I : Interface} {Q S α A E : Type}

/-- The order explains the state of a pool: its events lead to what the state stands for,
and the events of each call are some that the phase of the call admits. -/
structure Linearized (effect : E → A → A → Prop) (admits : S → Q → List E → Prop) (abs : S → A)
    (a₀ : A) (order : List (ℕ × E)) (y : S × List (Thread I Q α)) : Prop where
  replays : Replays effect a₀ (order.map Prod.snd) (abs y.1)
  own : ∀ i th, y.2[i]? = some th → admits y.1 th.phase (eventsOf i order)
  placed : ∀ e ∈ order, e.1 < y.2.length

variable {D : Discipline I Q} {answer : S → (c : I.Call) → I.Reply c → S → Prop}
  {guard : S → List (Thread I Q α) → Thread I Q α → Prop} {post : Q → α → Prop}
  {effect : E → A → A → Prop} {admits : S → Q → List E → Prop} {abs : S → A} {a₀ : A}

/-- A pool in which no call has begun. -/
theorem Linearized.start {x : S × List (Thread I Q α)}
    (h : ∀ th ∈ x.2, admits x.1 th.phase []) : Linearized effect admits abs (abs x.1) [] x where
  replays := .nil
  own _ th hth := h th (List.mem_of_getElem? hth)
  placed _ he := absurd he List.not_mem_nil

/-- The threads of a pool after the thread behind `before` has moved. -/
theorem getElem?_moved {before after : List (Thread I Q α)} (th th' : Thread I Q α) (i : ℕ) :
    (before ++ th' :: after)[i]? =
      if i = before.length then some th' else (before ++ th :: after)[i]? := by
  by_cases hi : i = before.length
  · simp [hi]
  · rw [if_neg hi]
    rcases Nat.lt_or_gt_of_ne hi with hlt | hgt
    · rw [List.getElem?_append_left hlt, List.getElem?_append_left hlt]
    · rw [List.getElem?_append_right hgt.le, List.getElem?_append_right hgt.le]
      obtain ⟨n, hn⟩ : ∃ n, i - before.length = n + 1 := ⟨i - before.length - 1, by omega⟩
      rw [hn, List.getElem?_cons_succ, List.getElem?_cons_succ]

/-- The threads that have not moved. -/
theorem mem_of_getElem?_ne {before after : List (Thread I Q α)} {th t : Thread I Q α} {i : ℕ}
    (h : (before ++ th :: after)[i]? = some t) (hi : i ≠ before.length) : t ∈ before ++ after := by
  rcases Nat.lt_or_gt_of_ne hi with hlt | hgt
  · rw [List.getElem?_append_left hlt] at h
    exact List.mem_append_left _ (List.mem_of_getElem? h)
  · rw [List.getElem?_append_right hgt.le] at h
    obtain ⟨n, hn⟩ : ∃ n, i - before.length = n + 1 := ⟨i - before.length - 1, by omega⟩
    rw [hn, List.getElem?_cons_succ] at h
    exact List.mem_append_right _ (List.mem_of_getElem? h)

/-- A step without an event. -/
theorem Linearized.still {order : List (ℕ × E)} {s s' : S} {before after : List (Thread I Q α)}
    {th th' : Thread I Q α} (h : Linearized effect admits abs a₀ order (s, before ++ th :: after))
    (habs : abs s' = abs s) (hadm : admits s' th'.phase (eventsOf before.length order))
    (hother : ∀ o ∈ before ++ after, ∀ events, admits s o.phase events →
      admits s' o.phase events) :
    Linearized effect admits abs a₀ order (s', before ++ th' :: after) where
  replays := by simpa only [habs] using h.replays
  own i t ht := by
    rw [getElem?_moved th th'] at ht
    split_ifs at ht with hi
    · rw [← Option.some.inj ht, hi]
      exact hadm
    · exact hother t (mem_of_getElem?_ne ht hi) _ (h.own i t ht)
  placed e he := by simpa using h.placed e he

/-- A step that is an event of the thread that moves. -/
theorem Linearized.event {order : List (ℕ × E)} {s s' : S} {before after : List (Thread I Q α)}
    {th th' : Thread I Q α} (h : Linearized effect admits abs a₀ order (s, before ++ th :: after))
    {e : E} (heff : effect e (abs s) (abs s'))
    (hadm : admits s' th'.phase (eventsOf before.length order ++ [e]))
    (hother : ∀ o ∈ before ++ after, ∀ events, admits s o.phase events →
      admits s' o.phase events) :
    Linearized effect admits abs a₀ (order ++ [(before.length, e)])
      (s', before ++ th' :: after) where
  replays := by
    rw [List.map_append]
    exact h.replays.snoc heff
  own i t ht := by
    rw [getElem?_moved th th'] at ht
    rw [eventsOf_append]
    split_ifs at ht with hi
    · rw [← Option.some.inj ht, hi, eventsOf_self]
      exact hadm
    · rw [eventsOf_other (Ne.symm hi), List.append_nil]
      exact hother t (mem_of_getElem?_ne ht hi) _ (h.own i t ht)
  placed e he := by
    rcases List.mem_append.mp he with he | he
    · simpa using h.placed e he
    · rw [List.mem_singleton.mp he]
      simp

/-- An order that explains one state of a pool is continued to one that explains any state
the pool reaches from it, if each allowed step is no event or one event, and leaves what the
other calls have to account for. -/
theorem Reach.linearized (Inv : S → List Q → Prop)
    (hinv : ∀ (s s' : S) (before after : List (Thread I Q α)) (q : Q) (c : I.Call)
      (k : I.Reply c → Prog I α) (r : I.Reply c),
      Inv s (before.map Thread.phase ++ q :: after.map Thread.phase) → D.allowed q c →
      guard s (before ++ after) ⟨q, .call c k⟩ → answer s c r s' →
      Inv s' (before.map Thread.phase ++ D.next q c r :: after.map Thread.phase))
    (hevent : ∀ (s s' : S) (before after : List Q) (q : Q) (c : I.Call) (r : I.Reply c),
      Inv s (before ++ q :: after) → D.allowed q c → answer s c r s' →
      ∀ events, admits s q events →
      (abs s' = abs s ∧ admits s' (D.next q c r) events) ∨
        ∃ e, effect e (abs s) (abs s') ∧ admits s' (D.next q c r) (events ++ [e]))
    (hother : ∀ (s s' : S) (before after : List Q) (q : Q) (c : I.Call) (r : I.Reply c),
      Inv s (before ++ q :: after) → D.allowed q c → answer s c r s' →
      ∀ o ∈ before ++ after, ∀ events, admits s o events → admits s' o events)
    {x y : S × List (Thread I Q α)} (hr : Reach D.next answer guard x y)
    (hd : Disciplined D post x.2) (hi : Inv x.1 (x.2.map Thread.phase)) {order : List (ℕ × E)}
    (hl : Linearized effect admits abs a₀ order x) :
    ∃ later, Linearized effect admits abs a₀ (order ++ later) y := by
  induction hr with
  | refl => exact ⟨[], by rwa [List.append_nil]⟩
  | tail hr hs ih =>
    obtain ⟨later, hlin⟩ := ih
    obtain ⟨hdisc, hinvariant⟩ := Reach.invariant Inv hinv hr hd hi
    obtain ⟨before, after, q, c, k, r, _, ha⟩ := hs
    rw [List.map_append, List.map_cons] at hinvariant
    have hallowed : D.allowed q c := (hdisc ⟨q, .call c k⟩ (by simp)).1
    have hown := hlin.own before.length ⟨q, .call c k⟩ (by simp)
    have hkept : ∀ o ∈ before ++ after, ∀ events, admits _ o.phase events →
        admits _ o.phase events := fun o ho =>
      hother _ _ _ _ q c r hinvariant hallowed ha o.phase
        (List.map_append ▸ List.mem_map_of_mem ho)
    rcases hevent _ _ _ _ q c r hinvariant hallowed ha _ hown with ⟨habs, hadm⟩ | ⟨e, heff, hadm⟩
    · exact ⟨later, hlin.still habs hadm hkept⟩
    · refine ⟨later ++ [(before.length, e)], ?_⟩
      rw [← List.append_assoc]
      exact hlin.event heff hadm hkept

/-- What no reply changes in a phase, such as the call it belongs to, stays at its position. -/
theorem Reach.labels {L : Type} (label : Q → L)
    (hlabel : ∀ q c r, label (D.next q c r) = label q) {x y : S × List (Thread I Q α)}
    (hr : Reach D.next answer guard x y) :
    y.2.map (label ·.phase) = x.2.map (label ·.phase) := by
  induction hr with
  | refl => rfl
  | tail _ hs ih =>
    obtain ⟨before, after, q, c, k, r, _, _⟩ := hs
    rw [← ih]
    simp [hlabel]

end Pools

/-! ### Calls that their events explain -/

section Calls

variable {I : Interface} {Q S R A E C : Type}

/-- What a pool of calls does to an abstract object: the call that a phase belongs to, the
events that a call can have, and those that explain what it returns. -/
structure Explanation (Q S R A E C : Type) where
  callOf : Q → C
  abs : S → A
  effect : E → A → A → Prop
  fits : C → List E → Prop
  explains : C → R → List E → Prop

/-- The order of events explains what the calls of a pool have done: it leads to the object of
the state, the events of each call are some that the call can have, a call that has not
begun has none, and what a call returned is explained by its own. -/
structure OrderedAs (X : Explanation Q S R A E C) (start : C → Thread I Q R) (calls : List C)
    (a₀ : A) (order : List (ℕ × E)) (y : S × List (Thread I Q R)) : Prop where
  replays : Replays X.effect a₀ (order.map Prod.snd) (X.abs y.1)
  placed : ∀ e ∈ order, e.1 < calls.length
  fits : ∀ (i : ℕ) (call : C), calls[i]? = some call → X.fits call (eventsOf i order)
  notBegun : ∀ (i : ℕ) (call : C), calls[i]? = some call → y.2[i]? = some (start call) →
    eventsOf i order = []
  returned : ∀ (i : ℕ) (call : C) (q : Q) (result : R), calls[i]? = some call →
    y.2[i]? = some ⟨q, .ret result⟩ → X.explains call result (eventsOf i order)

variable {X : Explanation Q S R A E C} {D : Discipline I Q}
  {answer : S → (c : I.Call) → I.Reply c → S → Prop} {Inv : S → List Q → Prop}
  {admits : S → Q → List E → Prop} {post : Q → R → Prop} {start : C → Thread I Q R}
  {calls : List C} {a₀ : A} {order : List (ℕ × E)} {y z : S × List (Thread I Q R)}

/-- An event belongs to a call that can have it. -/
theorem OrderedAs.of_mem (h : OrderedAs X start calls a₀ order y) {e : ℕ × E} (he : e ∈ order) :
    ∃ call events, calls[e.1]? = some call ∧ X.fits call events ∧ e.2 ∈ events := by
  have hcall := List.getElem?_eq_getElem (h.placed e he)
  exact ⟨_, _, hcall, h.fits _ _ hcall, mem_eventsOf.mpr he⟩

/-- Why there is an order: an invariant is kept, each step is no event or one event that the
phase after it admits, no step touches what another phase admits, and what a phase admits
explains what its call returns. -/
structure Explanation.Sound (X : Explanation Q S R A E C) (D : Discipline I Q)
    (answer : S → (c : I.Call) → I.Reply c → S → Prop) (Inv : S → List Q → Prop)
    (admits : S → Q → List E → Prop) (post : Q → R → Prop) : Prop where
  label : ∀ q c r, X.callOf (D.next q c r) = X.callOf q
  keeps : ∀ (s s' : S) (before after : List Q) (q : Q) (c : I.Call) (r : I.Reply c),
    Inv s (before ++ q :: after) → D.allowed q c → answer s c r s' →
    Inv s' (before ++ D.next q c r :: after)
  event : ∀ (s s' : S) (before after : List Q) (q : Q) (c : I.Call) (r : I.Reply c),
    Inv s (before ++ q :: after) → D.allowed q c → answer s c r s' →
    ∀ events, admits s q events →
    (X.abs s' = X.abs s ∧ admits s' (D.next q c r) events) ∨
      ∃ e, X.effect e (X.abs s) (X.abs s') ∧ admits s' (D.next q c r) (events ++ [e])
  others : ∀ (s s' : S) (before after : List Q) (q : Q) (c : I.Call) (r : I.Reply c),
    Inv s (before ++ q :: after) → D.allowed q c → answer s c r s' →
    ∀ o ∈ before ++ after, ∀ events, admits s o events → admits s' o events
  fits : ∀ s q events, admits s q events → X.fits (X.callOf q) events
  explains : ∀ s q result events, post q result → admits s q events →
    X.explains (X.callOf q) result events

/-- How the calls begin: in phases of their own, without events, and keeping to the
discipline. -/
structure Explanation.Starts (X : Explanation Q S R A E C) (D : Discipline I Q)
    (admits : S → Q → List E → Prop) (post : Q → R → Prop) (start : C → Thread I Q R)
    (calls : List C) : Prop where
  callOf : ∀ call, X.callOf (start call).phase = call
  admits_iff : ∀ s call events, admits s (start call).phase events ↔ events = []
  follows : ∀ call ∈ calls, Follows D post (start call).phase (start call).prog

/-- What every step of a pool keeps. -/
structure Tracked (X : Explanation Q S R A E C) (D : Discipline I Q) (Inv : S → List Q → Prop)
    (admits : S → Q → List E → Prop) (post : Q → R → Prop) (calls : List C) (a₀ : A)
    (order : List (ℕ × E)) (y : S × List (Thread I Q R)) : Prop where
  disciplined : Disciplined D post y.2
  invariant : Inv y.1 (y.2.map Thread.phase)
  linearized : Linearized X.effect admits X.abs a₀ order y
  labels : y.2.map (X.callOf ·.phase) = calls

theorem Explanation.Starts.tracked (h : X.Starts D admits post start calls) {s : S}
    (hinv : Inv s (calls.map fun call => (start call).phase)) :
    Tracked X D Inv admits post calls (X.abs s) [] (s, calls.map start) where
  disciplined th hth := by
    obtain ⟨call, hcall, rfl⟩ := List.mem_map.mp hth
    exact h.follows call hcall
  invariant := by
    rw [List.map_map]
    exact hinv
  linearized := by
    refine Linearized.start (x := (s, calls.map start)) fun th hth => ?_
    obtain ⟨call, _, rfl⟩ := List.mem_map.mp hth
    exact (h.admits_iff s call []).mpr rfl
  labels := by simp [Function.comp_def, h.callOf]

theorem Tracked.continued (hX : X.Sound D answer Inv admits post)
    (h : Tracked X D Inv admits post calls a₀ order y)
    (hz : Reach D.next answer (fun _ _ _ => True) y z) :
    ∃ later, Tracked X D Inv admits post calls a₀ (order ++ later) z := by
  have hkeeps := fun (s s' : S) (before after : List (Thread I Q R)) (q : Q) (c : I.Call)
    (k : I.Reply c → Prog I R) (r : I.Reply c)
    (hi : Inv s (before.map Thread.phase ++ q :: after.map Thread.phase)) (hq : D.allowed q c)
    (_ : True) (ha : answer s c r s') => hX.keeps s s' _ _ q c r hi hq ha
  obtain ⟨hd, hi⟩ := Reach.invariant Inv hkeeps hz h.disciplined h.invariant
  obtain ⟨later, hl⟩ := Reach.linearized Inv hkeeps hX.event hX.others hz h.disciplined
    h.invariant h.linearized
  exact ⟨later, hd, hi, hl, (Reach.labels X.callOf hX.label hz).trans h.labels⟩

theorem Tracked.orderedAs (hX : X.Sound D answer Inv admits post)
    (hb : X.Starts D admits post start calls)
    (h : Tracked X D Inv admits post calls a₀ order y) : OrderedAs X start calls a₀ order y := by
  obtain ⟨hd, _, ⟨hreplays, hown, hplaced⟩, hlabels⟩ := h
  have hlength : y.2.length = calls.length := by simpa using congrArg List.length hlabels
  have hcall : ∀ (i : ℕ) (th : Thread I Q R), y.2[i]? = some th →
      calls[i]? = some (X.callOf th.phase) := by
    intro i th hth
    rw [← hlabels, List.getElem?_map, hth]
    rfl
  refine ⟨hreplays, fun e he => hlength ▸ hplaced e he, fun i call hi => ?_,
    fun i call hi hth => ?_, fun i call q result hi hth => ?_⟩
  · have hlt : i < y.2.length := hlength ▸ (List.getElem?_eq_some_iff.mp hi).1
    have hth := List.getElem?_eq_getElem hlt
    obtain rfl := Option.some.inj (hi.symm.trans (hcall i _ hth))
    exact hX.fits _ _ _ (hown i _ hth)
  · exact (hb.admits_iff _ call _).mp (hown i _ hth)
  · obtain rfl := Option.some.inj (hi.symm.trans (hcall i _ hth))
    exact hX.explains _ _ _ _ (hd ⟨q, .ret result⟩ (List.mem_of_getElem? hth)) (hown i _ hth)

/-- An order for one state, and one that continues it for any later state. -/
theorem Explanation.Sound.ordered (hX : X.Sound D answer Inv admits post)
    (hb : X.Starts D admits post start calls) {s : S}
    (hinv : Inv s (calls.map fun call => (start call).phase))
    (hy : Reach D.next answer (fun _ _ _ => True) (s, calls.map start) y)
    (hz : Reach D.next answer (fun _ _ _ => True) y z) :
    ∃ order later, OrderedAs X start calls (X.abs s) order y ∧
      OrderedAs X start calls (X.abs s) (order ++ later) z := by
  obtain ⟨order, h⟩ := (hb.tracked hinv).continued hX hy
  obtain ⟨later, h'⟩ := h.continued hX hz
  exact ⟨order, later, h.orderedAs hX hb, h'.orderedAs hX hb⟩

end Calls

end GraphqlOrmStorage.Program
