import GraphqlOrmStorage.SmbSession

/-!
# Reconnecting while other calls go on

The calls of one backend share its client and the lock of `reconnect_with_backoff`. Any
number of them go on at once, one request at a time in any order, while the server accepts
and refuses connections as it likes. Each call records the clients it has sent requests
through and those it has put in place.
-/
namespace GraphqlOrmStorage.Smb

open Text Program Program.Prog

/-! ### What is shared -/

/-- The clients that have been connected are those before `made`. -/
structure Sessions where
  locked : Bool
  current : Client
  made : ℕ
  deriving DecidableEq

/-- What `connect` leaves. -/
def Sessions.start : Sessions := ⟨false, 0, 1⟩

/-- How a request is answered: a client that connects is a new one, and the lock is given to one
call at a time. -/
inductive Sessions.Answers : Sessions → (c : SessionCall) → SessionCall.Reply c → Sessions → Prop
  | lock (x : Sessions) : x.locked = false →
      Answers x .lockReconnect () { x with locked := true }
  | unlock (x : Sessions) : Answers x .unlockReconnect () { x with locked := false }
  | uuidByte (x : Sessions) (byte : UInt8) : Answers x .uuidByte byte x
  | sleep (x : Sessions) (millis : ℕ) : Answers x (.sleep millis) () x
  | connects (x : Sessions) (login : Login) :
      Answers x (.shareConnect login) (.ok x.made) { x with made := x.made + 1 }
  | refuses (x : Sessions) (login : Login) (failure : Failure SmbError) :
      Answers x (.shareConnect login) (.error failure) x
  | read (x : Sessions) : Answers x .readClient x.current x
  | write (x : Sessions) (client : Client) :
      Answers x (.writeClient client) () { x with current := client }
  | through (x : Sessions) (client : Client) (c : SmbCall) (r : SmbCall.Reply c) :
      Answers x (.through client c) r x
  | direct (x : Sessions) (c : SmbCall) (r : SmbCall.Reply c) : Answers x (.direct c) r x

/-! ### What a call has done -/

/-- Where a call is in `reconnect_with_backoff`. -/
inductive ReconnectStage where
  | idle
  | trying (attempts : ℕ)
  | connected (client : Client)
  | settled
  deriving DecidableEq

/-- A client that a call has sent a request through, or has put in place. -/
inductive Use where
  | used (client : Client)
  | installed (client : Client)
  deriving DecidableEq

def Use.client : Use → Client
  | used client | installed client => client

/-- The later of two uses goes through a client that is as new, and puts a newer one in place. -/
def Use.After (later earlier : Use) : Prop :=
  earlier.client ≤ later.client ∧
    ∀ client, later = .installed client → earlier.client < client

/-- What a call has done, with its last use first. -/
structure Turn where
  stage : ReconnectStage
  client : Option Client
  uses : List Use

/-- The call holds the lock. -/
def Turn.busy (q : Turn) : Bool := q.stage ≠ .idle

/-- What one more failed attempt leads to. -/
def ReconnectStage.failed (attempts : ℕ) (e : StorageError) : ReconnectStage :=
  if e.isRetryable = true ∧ attempts + 1 < 3 then .trying (attempts + 1) else .settled

def Turn.next (q : Turn) : (c : SessionCall) → SessionCall.Reply c → Turn
  | .lockReconnect, _ => { q with stage := .trying 0 }
  | .unlockReconnect, _ => { q with stage := .idle }
  | .shareConnect _, reply => match q.stage, Smb.connected reply with
    | .trying _, .ok client => { q with stage := .connected client }
    | .trying attempts, .error e => { q with stage := .failed attempts e }
    | _, _ => q
  | .readClient, client => { q with client := some client }
  | .writeClient client, _ => ⟨.settled, none, .installed client :: q.uses⟩
  | .through client _, _ => { q with uses := .used client :: q.uses }
  | .uuidByte, _ | .sleep _, _ | .direct _, _ => q

/-- What a call may ask for. -/
def Turn.Allows (login : Login) (q : Turn) : SessionCall → Prop
  | .lockReconnect | .readClient | .direct _ => q.stage = .idle
  | .unlockReconnect => q.stage = .settled
  | .uuidByte | .sleep _ => ∃ attempts < 3, q.stage = .trying attempts
  | .shareConnect l => l = login ∧ ∃ attempts < 3, q.stage = .trying attempts
  | .writeClient client => q.stage = .connected client
  | .through client _ => q.stage = .idle ∧ q.client = some client

def reconnecting (login : Login) : Discipline SessionRequests Turn where
  allowed := Turn.Allows login
  next := Turn.next

section Calls

variable {uncPath : UncPath} {config : SmbConnectConfig} {share : Str}

/-- One attempt, and what the rest of the loop does after an error that is worth another one. -/
theorem attempt_follows (hshare : uncPath config.server config.share = .ok share)
    (lastError : Option StorageError) (first : ℕ) (rest : List ℕ) {attempts : ℕ} {q : Turn}
    (hq : q.stage = .trying attempts) (hfew : attempts < 3)
    (hagain : ∀ e, e.isRetryable = true → Prog.Follows (reconnecting (login config share))
      (fun q' _ => q'.stage = .settled) { q with stage := .failed attempts e }
      (reconnectAttempts uncPath config (some e) rest)) :
    Prog.Follows (reconnecting (login config share)) (fun q' _ => q'.stage = .settled) q
      (reconnectAttempts uncPath config lastError (first :: rest)) := by
  rw [reconnectAttempts_cons hshare]
  have htrying : ∃ n < 3, q.stage = .trying n := ⟨attempts, hfew, hq⟩
  refine ⟨htrying, fun byte => ⟨htrying, fun _ => ⟨⟨rfl, htrying⟩, fun reply => ?_⟩⟩⟩
  simp only [reconnecting, Turn.next, hq]
  cases connected reply with
  | ok client => exact ⟨rfl, fun _ => rfl⟩
  | error e =>
    cases hretry : e.isRetryable with
    | false => simp [ReconnectStage.failed, hretry]
    | true =>
      simp only [hretry, Bool.not_true, Bool.false_eq_true, if_false]
      exact hagain e hretry

/-- The loop leaves the lock to be given back. -/
theorem reconnectAttempts_follows (hshare : uncPath config.server config.share = .ok share)
    (lastError : Option StorageError) (first : ℕ) (rest : List ℕ) {attempts : ℕ} {q : Turn}
    (hq : q.stage = .trying attempts) (hleft : attempts + rest.length = 2) :
    Prog.Follows (reconnecting (login config share)) (fun q' _ => q'.stage = .settled) q
      (reconnectAttempts uncPath config lastError (first :: rest)) := by
  induction rest generalizing lastError first attempts q with
  | nil =>
    simp only [List.length_nil] at hleft
    refine attempt_follows hshare lastError first [] hq (by omega) fun e hretry => ?_
    have hlast : ¬ attempts + 1 < 3 := by omega
    simp [ReconnectStage.failed, reconnectAttempts, hlast]
  | cons second rest ih =>
    simp only [List.length_cons] at hleft
    refine attempt_follows hshare lastError first (second :: rest) hq (by omega)
      fun e hretry => ih (some e) second ?_ (show attempts + 1 + rest.length = 2 by omega)
    have hmore : attempts + 1 < 3 := by omega
    simp [ReconnectStage.failed, hretry, hmore]

theorem reconnectWithBackoff_follows (hshare : uncPath config.server config.share = .ok share)
    {q : Turn} (hq : q.stage = .idle) :
    Prog.Follows (reconnecting (login config share)) (fun q' _ => q'.stage = .idle) q
      (reconnectWithBackoff uncPath config) := by
  refine ⟨hq, fun _ => ?_⟩
  refine (reconnectAttempts_follows hshare none 100 [250, 500] rfl rfl).bind ?_
  exact fun q' result hsettled => ⟨hsettled, fun _ => rfl⟩

/-- Between the requests of a call the lock is free for others, and a client that is kept is the
one last read. -/
def Rests (q : Turn) (kept : Option Client) : Prop :=
  q.stage = .idle ∧ ∀ client, kept = some client → q.client = some client

/-- A file is opened through the client that is read for it. -/
theorem opened_follows {login : Login} {q : Turn} (c : SmbCall) (hq : q.stage = .idle)
    (keep : Client → Option Client) (hkeep : ∀ client client', keep client = some client' →
      client' = client) : Prog.Follows (reconnecting login) (fun q' r => Rests q' r.2) q
      (.call .readClient fun client =>
        .call (.through client c) fun r => .ret (r, keep client)) := by
  refine ⟨hq, fun client => ⟨⟨hq, rfl⟩, fun r => ⟨hq, fun client' hkept => ?_⟩⟩⟩
  rw [hkeep client client' hkept]
  rfl

theorem sessionCall_follows (hshare : uncPath config.server config.share = .ok share)
    (q : Turn) (kept : Option Client) (c : SmbCall) (hq : Rests q kept) :
    Prog.Follows (reconnecting (login config share)) (fun q' r => Rests q' r.2) q
      (sessionCall uncPath config kept c) := by
  cases c with
  | createDirectory path =>
    by_cases hslash : '\\' ∈ path
    · cases kept with
      | none => exact opened_follows _ hq.1 some fun _ _ h => (Option.some.inj h).symm
      | some client =>
        rw [sessionCall_below uncPath config hslash]
        refine ⟨⟨hq.1, hq.2 client rfl⟩, fun r => ⟨hq.1, fun client' h => ?_⟩⟩
        rw [← Option.some.inj h]
        exact hq.2 client rfl
    · rw [sessionCall_first uncPath config kept hslash]
      exact opened_follows _ hq.1 some fun _ _ h => (Option.some.inj h).symm
  | createFile path exclusive =>
    exact opened_follows _ hq.1 (fun _ => none) fun _ _ h => by cases h
  | openExisting path access =>
    exact opened_follows _ hq.1 (fun _ => none) fun _ _ h => by cases h
  | reconnect =>
    refine (reconnectWithBackoff_follows hshare hq.1).bind fun q' result hidle => ?_
    exact ⟨hidle, fun client h => by cases h⟩
  | _ => exact ⟨hq.1, fun r => hq⟩

end Calls

/-! ### What holds of all calls -/

/-- What a call has read and used is no newer than the client in place, each use is after the one
before, and a client that is not in place yet is the newest. -/
structure Fresh (x : Sessions) (q : Turn) : Prop where
  read : ∀ client, q.client = some client →
    client ≤ x.current ∧ ∀ u ∈ q.uses, u.client ≤ client
  below : ∀ u ∈ q.uses, u.client ≤ x.current
  ordered : q.uses.Pairwise Use.After
  newest : ∀ client, q.stage = .connected client → x.current < client ∧ client + 1 = x.made

/-- One call holds the lock, or none does and it is free; the client in place is the newest but for
one that is about to take its place. -/
structure SessionInv (x : Sessions) (qs : List Turn) : Prop where
  alone : qs.countP Turn.busy = x.locked.toNat
  latest : (∀ q ∈ qs, ∀ client, q.stage ≠ .connected client) → x.current + 1 = x.made
  fresh : ∀ q ∈ qs, Fresh x q

section Invariant

variable {x x' : Sessions} {before after : List Turn} {q q' : Turn}

theorem Fresh.same (h : Fresh x q) (hcurrent : x'.current = x.current) (hmade : x'.made = x.made) :
    Fresh x' q := by
  obtain ⟨hread, hbelow, hordered, hnewest⟩ := h
  refine ⟨?_, ?_, hordered, ?_⟩
  · rwa [hcurrent]
  · rwa [hcurrent]
  · rwa [hcurrent, hmade]

theorem Fresh.idle (h : Fresh x q) (hidle : q.stage = .idle) (hcurrent : x.current ≤ x'.current) :
    Fresh x' q := by
  refine ⟨fun client hc => ?_, fun u hu => (h.below u hu).trans hcurrent, h.ordered, ?_⟩
  · exact ⟨(h.read client hc).1.trans hcurrent, (h.read client hc).2⟩
  · intro client hc
    rw [hidle] at hc
    cases hc

/-- Moving on within the lock, or outside it. -/
theorem Fresh.restage (h : Fresh x q) (hclient : q'.client = q.client) (huses : q'.uses = q.uses)
    (hstage : ∀ client, q'.stage ≠ .connected client) : Fresh x q' := by
  refine ⟨?_, ?_, ?_, fun client hc => absurd hc (hstage client)⟩
  · rw [hclient, huses]
    exact h.read
  · rw [huses]
    exact h.below
  · rw [huses]
    exact h.ordered

theorem SessionInv.others_idle (hi : SessionInv x (before ++ q :: after)) (hbusy : q.busy = true) :
    ∀ o ∈ before ++ after, o.stage = .idle := by
  intro o ho
  have hcount := hi.alone
  have hle : x.locked.toNat ≤ 1 := Bool.toNat_le _
  have hnone : (before ++ after).countP Turn.busy = 0 := by
    simp only [List.countP_append, List.countP_cons, hbusy, if_true] at hcount ⊢
    omega
  have hidle := List.countP_eq_zero.mp hnone o ho
  simpa [Turn.busy] using hidle

theorem SessionInv.locked (hi : SessionInv x (before ++ q :: after)) (hbusy : q.busy = true) :
    x.locked = true := by
  have hcount := hi.alone
  simp only [List.countP_append, List.countP_cons, hbusy, if_true] at hcount
  cases hlocked : x.locked with
  | true => rfl
  | false =>
    simp only [hlocked, Bool.toNat_false] at hcount
    omega

theorem SessionInv.replace (hi : SessionInv x (before ++ q :: after))
    (hcount : q'.busy.toNat + x.locked.toNat = q.busy.toNat + x'.locked.toNat)
    (hown : Fresh x' q') (hothers : ∀ o ∈ before ++ after, Fresh x o → Fresh x' o)
    (hlatest : (∀ o ∈ before ++ after, ∀ client, o.stage ≠ .connected client) →
      (∀ client, q'.stage ≠ .connected client) → x'.current + 1 = x'.made) :
    SessionInv x' (before ++ q' :: after) := by
  refine ⟨?_, fun h => ?_, fun o ho => ?_⟩
  · have hold := hi.alone
    simp only [List.countP_append, List.countP_cons] at hold ⊢
    cases hq : q.busy <;> cases hq' : q'.busy <;>
      simp only [hq, hq', Bool.toNat_true, Bool.toNat_false, if_true, if_false,
        Bool.false_eq_true] at hold hcount ⊢ <;> omega
  · refine hlatest (fun o ho => h o ?_) (h q' (by simp))
    rcases List.mem_append.mp ho with ho | ho <;> simp [ho]
  · rcases List.mem_append.mp ho with ho | ho
    · exact hothers o (by simp [ho]) (hi.fresh o (by simp [ho]))
    · rcases List.mem_cons.mp ho with rfl | ho
      · exact hown
      · exact hothers o (by simp [ho]) (hi.fresh o (by simp [ho]))

/-- A step that leaves the clients alone. -/
theorem SessionInv.move (hi : SessionInv x (before ++ q :: after))
    (hcount : q'.busy.toNat + x.locked.toNat = q.busy.toNat + x'.locked.toNat)
    (hcurrent : x'.current = x.current) (hmade : x'.made = x.made) (hown : Fresh x q')
    (hq : ∀ client, q.stage ≠ .connected client) : SessionInv x' (before ++ q' :: after) := by
  refine hi.replace hcount (hown.same hcurrent hmade) (fun o _ h => h.same hcurrent hmade)
    fun hothers _ => ?_
  rw [hcurrent, hmade]
  refine hi.latest fun o ho => ?_
  rcases List.mem_append.mp ho with ho | ho
  · exact hothers o (by simp [ho])
  · rcases List.mem_cons.mp ho with rfl | ho
    · exact hq
    · exact hothers o (by simp [ho])

theorem failed_stage (attempts : ℕ) (e : StorageError) :
    (ReconnectStage.failed attempts e = .settled) ∨
      ∃ n, ReconnectStage.failed attempts e = .trying n := by
  unfold ReconnectStage.failed
  split
  · exact Or.inr ⟨_, rfl⟩
  · exact Or.inl rfl

/-- What one request changes. -/
theorem SessionInv.step {login : Login} {c : SessionCall} {r : SessionCall.Reply c}
    (hi : SessionInv x (before ++ q :: after)) (hallowed : q.Allows login c)
    (hanswer : x.Answers c r x') : SessionInv x' (before ++ q.next c r :: after) := by
  have hfresh : Fresh x q := hi.fresh q (by simp)
  cases hanswer with
  | lock hfree =>
    have hidle : q.stage = .idle := hallowed
    refine hi.move ?_ rfl rfl (hfresh.restage rfl rfl fun _ h => by cases h) (by simp [hidle])
    simp [Turn.next, Turn.busy, hidle, hfree]
  | unlock =>
    have hsettled : q.stage = .settled := hallowed
    have hlocked := hi.locked (by simp [Turn.busy, hsettled])
    refine hi.move ?_ rfl rfl (hfresh.restage rfl rfl fun _ h => by cases h) (by simp [hsettled])
    simp [Turn.next, Turn.busy, hsettled, hlocked]
  | uuidByte byte => exact hi
  | sleep millis => exact hi
  | connects login' =>
    obtain ⟨_, attempts, _, hstage⟩ := hallowed
    have hbusy : q.busy = true := by simp [Turn.busy, hstage]
    have hothers := hi.others_idle hbusy
    have hlatest : x.current + 1 = x.made := hi.latest fun o ho client hc => by
      rcases List.mem_append.mp ho with ho | ho
      · simp [hothers o (by simp [ho])] at hc
      · rcases List.mem_cons.mp ho with rfl | ho
        · simp [hstage] at hc
        · simp [hothers o (by simp [ho])] at hc
    have hnext : q.next (.shareConnect login') (.ok x.made) =
        { q with stage := .connected x.made } := by
      simp only [Turn.next, hstage]
      rfl
    rw [hnext]
    refine hi.replace (by simp [Turn.busy, hstage]) ⟨hfresh.read, hfresh.below, hfresh.ordered, ?_⟩
      (fun o ho h => h.idle (hothers o ho) le_rfl) fun _ h => absurd rfl (h x.made)
    intro client hc
    obtain rfl : x.made = client := by simpa using hc
    have hnewer : x.current < x.made := hlatest ▸ Nat.lt_succ_self x.current
    exact ⟨hnewer, rfl⟩
  | refuses login' failure =>
    obtain ⟨_, attempts, _, hstage⟩ := hallowed
    obtain ⟨e, he⟩ : ∃ e, connected (.error failure) = .error e := by
      cases failure <;> exact ⟨_, rfl⟩
    have hnext : q.next (.shareConnect login') (.error failure) =
        { q with stage := .failed attempts e } := by
      simp only [Turn.next, hstage, he]
    rw [hnext]
    rcases failed_stage attempts e with hfailed | ⟨n, hfailed⟩ <;> rw [hfailed]
    · exact hi.move (by simp [Turn.busy, hstage]) rfl rfl
        (hfresh.restage rfl rfl fun _ h => by cases h) (by simp [hstage])
    · exact hi.move (by simp [Turn.busy, hstage]) rfl rfl
        (hfresh.restage rfl rfl fun _ h => by cases h) (by simp [hstage])
  | read =>
    have hidle : q.stage = .idle := hallowed
    refine hi.move rfl rfl rfl ⟨fun client hc => ?_, hfresh.below, hfresh.ordered, hfresh.newest⟩
      (by simp [hidle])
    obtain rfl : x.current = client := Option.some.inj hc
    exact ⟨le_rfl, hfresh.below⟩
  | write client =>
    have hstage : q.stage = .connected client := hallowed
    have hbusy : q.busy = true := by simp [Turn.busy, hstage]
    obtain ⟨hnewer, hmade⟩ := hfresh.newest client hstage
    refine hi.replace (by simp [Turn.next, Turn.busy, hstage])
      ⟨fun _ h => (by cases h), ?_, ?_, fun _ h => (by cases h)⟩
      (fun o ho h => h.idle (hi.others_idle hbusy o ho) hnewer.le) fun _ _ => hmade
    · intro u hu
      rcases List.mem_cons.mp hu with rfl | hu
      · exact le_rfl
      · exact (hfresh.below u hu).trans hnewer.le
    · refine List.pairwise_cons.mpr ⟨fun u hu => ?_, hfresh.ordered⟩
      have hlt := (hfresh.below u hu).trans_lt hnewer
      refine ⟨hlt.le, fun client' hc => ?_⟩
      obtain rfl : client = client' := Use.installed.inj hc
      exact hlt
  | through client c r =>
    obtain ⟨hidle, hclient⟩ : q.stage = .idle ∧ q.client = some client := hallowed
    obtain ⟨hcurrent, hbelow⟩ := hfresh.read client hclient
    refine hi.move rfl rfl rfl ⟨fun client' hc => ?_, ?_, ?_, hfresh.newest⟩ (by simp [hidle])
    · obtain rfl : client = client' := Option.some.inj (hclient.symm.trans hc)
      refine ⟨hcurrent, fun u hu => ?_⟩
      rcases List.mem_cons.mp hu with rfl | hu
      · exact le_rfl
      · exact hbelow u hu
    · intro u hu
      rcases List.mem_cons.mp hu with rfl | hu
      · exact hcurrent
      · exact hfresh.below u hu
    · refine List.pairwise_cons.mpr ⟨fun u hu => ⟨hbelow u hu, fun _ h => by cases h⟩, ?_⟩
      exact hfresh.ordered
  | direct c r => exact hi

end Invariant

/-! ### Calls at once -/

abbrev SessionThread (α : Type) := Thread SessionRequests Turn (α × Option Client)

/-- A call of the backend over sessions. -/
def callThread {α : Type} (uncPath : UncPath) (config : SmbConnectConfig) (p : SmbM α) :
    SessionThread α :=
  ⟨⟨.idle, none, []⟩, p.carryOut (sessionCall uncPath config) none⟩

/-- The states that calls at once lead to. -/
abbrev SessionsReach {α : Type} : Sessions × List (SessionThread α) →
    Sessions × List (SessionThread α) → Prop :=
  Reach Turn.next Sessions.Answers fun _ _ _ => True

abbrev SessionsStep {α : Type} : Sessions × List (SessionThread α) →
    Sessions × List (SessionThread α) → Prop :=
  Step Turn.next Sessions.Answers fun _ _ _ => True

section AtOnce

variable {α : Type} {uncPath : UncPath} {config : SmbConnectConfig} {share : Str}
  {calls : List (SmbM α)} {y : Sessions × List (SessionThread α)}

/-- A call does not return with the lock. -/
def Released (q : Turn) (_ : α × Option Client) : Prop := q.stage = .idle

theorem sessions_inv (hshare : uncPath config.server config.share = .ok share)
    (hreach : SessionsReach (Sessions.start, calls.map (callThread uncPath config)) y) :
    Disciplined (reconnecting (login config share)) Released y.2 ∧
      SessionInv y.1 (y.2.map Thread.phase) := by
  refine Reach.invariant (D := reconnecting (login config share)) SessionInv
    (fun x x' before after q c k r hi hallowed _ hanswer => hi.step hallowed hanswer) hreach ?_ ?_
  · intro th hth
    obtain ⟨p, _, rfl⟩ := List.mem_map.mp hth
    refine (Prog.Follows.carryOut (sessionCall_follows hshare) p ?_).mono fun q r hrests => hrests.1
    exact ⟨rfl, fun _ h => (by cases h)⟩
  · have hall : ∀ q ∈ (calls.map (callThread uncPath config)).map Thread.phase,
        q = ⟨.idle, none, []⟩ := by
      intro q hq
      simp only [List.map_map, List.mem_map] at hq
      obtain ⟨p, _, rfl⟩ := hq
      rfl
    refine ⟨?_, fun _ => rfl, fun q hq => ?_⟩
    · refine List.countP_eq_zero.mpr fun q hq => ?_
      rw [hall q hq]
      decide
    · rw [hall q hq]
      exact ⟨fun _ h => (by cases h), fun _ h => (by cases h), .nil, fun _ h => (by cases h)⟩

/-- A request is answered unless it is for the lock while that is taken. -/
theorem exists_answer (x : Sessions) (c : SessionCall)
    (hlock : c = .lockReconnect → x.locked = false) : ∃ r x', x.Answers c r x' := by
  cases c with
  | lockReconnect => exact ⟨_, _, .lock x (hlock rfl)⟩
  | unlockReconnect => exact ⟨_, _, .unlock x⟩
  | uuidByte => exact ⟨_, _, .uuidByte x 0⟩
  | sleep millis => exact ⟨_, _, .sleep x millis⟩
  | shareConnect login => exact ⟨_, _, .connects x login⟩
  | readClient => exact ⟨_, _, .read x⟩
  | writeClient client => exact ⟨_, _, .write x client⟩
  | through client c => exact ⟨_, _, .through x client c (Server.empty.answer .smooth c).1⟩
  | direct c => exact ⟨_, _, .direct x c (Server.empty.answer .smooth c).1⟩

theorem exists_step {x : Sessions} {ts : List (SessionThread α)} {th : SessionThread α}
    (hth : th ∈ ts) (hopen : th.prog.result? = none)
    (hlock : th.prog.next? = some .lockReconnect → x.locked = false) :
    ∃ z, SessionsStep (x, ts) z := by
  obtain ⟨before, after, rfl⟩ := List.append_of_mem hth
  obtain ⟨q, p⟩ := th
  cases p with
  | ret a => cases hopen
  | call c k =>
    obtain ⟨r, x', hanswer⟩ := exists_answer x c fun hc => hlock (congrArg some hc)
    exact ⟨_, .call before after q c k r trivial hanswer⟩

/-- The call that holds the lock can go on, and without it any unfinished call can. -/
theorem sessions_go_on {x : Sessions} {ts : List (SessionThread α)}
    (hfollows : Disciplined (reconnecting (login config share)) Released ts)
    (hinv : SessionInv x (ts.map Thread.phase)) (hopen : ∃ th ∈ ts, th.prog.result? = none) :
    ∃ z, SessionsStep (x, ts) z := by
  cases hlocked : x.locked with
  | false =>
    obtain ⟨th, hth, hnone⟩ := hopen
    exact exists_step hth hnone fun _ => hlocked
  | true =>
    have hcount : 0 < (ts.map Thread.phase).countP Turn.busy := by
      rw [hinv.alone, hlocked]
      exact Nat.one_pos
    obtain ⟨q, hq, hbusy⟩ := List.countP_pos_iff.mp hcount
    obtain ⟨th, hth, rfl⟩ := List.mem_map.mp hq
    have hholds := hfollows th hth
    obtain ⟨q, p⟩ := th
    cases p with
    | ret a =>
      have hidle : q.stage = .idle := hholds
      simp [Turn.busy, hidle] at hbusy
    | call c k =>
      refine exists_step hth rfl fun hc => ?_
      obtain rfl : c = .lockReconnect := Option.some.inj hc
      have hidle : q.stage = .idle := hholds.1
      simp [Turn.busy, hidle] at hbusy

/-- Once `connect` has returned a backend and any number of calls go on at once over its client and
its lock, in whatever order and however the server replies: at most one of them reconnects, and the
lock is taken just as long; the client in place is the last that connected, but for one that the
reconnecting call is about to put in its place; every call goes on through clients that are as new
as those it has used, and through newer ones once it has reconnected; and as long as some call is
unfinished, some call can go on. -/
theorem reconnects_exclusive_and_fresh {log : SessionLog}
    (hconnect : RunsTo (connect uncPath config) log (.ok Sessions.start.current))
    (hreach : SessionsReach (Sessions.start, calls.map (callThread uncPath config)) y) :
    (y.2.countP (·.phase.busy) ≤ 1 ∧
      (y.1.locked = true ↔ ∃ th ∈ y.2, th.phase.busy = true)) ∧
    ((∀ th ∈ y.2, ∀ client, th.phase.stage ≠ .connected client) →
      y.1.current + 1 = y.1.made) ∧
    (∀ th ∈ y.2, th.phase.uses.Pairwise Use.After) ∧
    ((∃ th ∈ y.2, th.prog.result? = none) → ∃ z, SessionsStep y z) := by
  obtain ⟨-, share, hshare, -⟩ := connect_runs.mp hconnect
  obtain ⟨hfollows, hinv⟩ := sessions_inv hshare hreach
  have hcount : y.2.countP (·.phase.busy) = y.1.locked.toNat := by
    rw [← hinv.alone, List.countP_map]
    rfl
  have hphase : ∀ th ∈ y.2, th.phase ∈ y.2.map Thread.phase := fun th hth => List.mem_map_of_mem hth
  refine ⟨⟨hcount ▸ Bool.toNat_le _, ?_⟩, fun h => hinv.latest fun q hq => ?_,
    fun th hth => (hinv.fresh _ (hphase th hth)).ordered, sessions_go_on hfollows hinv⟩
  · rw [← List.countP_pos_iff (p := fun th : SessionThread α => th.phase.busy), hcount]
    cases y.1.locked <;> simp
  · obtain ⟨th, hth, rfl⟩ := List.mem_map.mp hq
    exact h th hth

/-- A request for the lock. -/
def asksLock : Option SessionCall → Bool
  | some .lockReconnect => true
  | _ => false

/-- A schedule in which the lock is asked for while it is free is an interleaving. -/
theorem sessionsReach_runSchedule
    {h : (c : SessionCall) → Sessions → SessionCall.Reply c × Sessions}
    (ha : ∀ (x : Sessions) (c : SessionCall), (c = .lockReconnect → x.locked = false) →
      x.Answers c (h c x).1 (h c x).2)
    {schedule : List ℕ} {x : Sessions × List (SessionThread α)}
    (hg : ScheduleAllowed (I := SessionRequests) Turn.next h
      (fun s _ th => asksLock th.prog.next? = true → s.locked = false) schedule x) :
    SessionsReach x (runSchedule (I := SessionRequests) Turn.next h x schedule) := by
  have hreach : Reach (I := SessionRequests) Turn.next
      (fun s c r s' => (c = .lockReconnect → s.locked = false) → Sessions.Answers s c r s')
      (fun s _ th => asksLock th.prog.next? = true → s.locked = false) x
      (runSchedule (I := SessionRequests) Turn.next h x schedule) := runSchedule_reach ha hg
  refine Relation.ReflTransGen.mono (fun _ _ hstep => ?_) _ _ hreach
  cases hstep with
  | call before after q c k r hguard hanswer =>
    exact .call before after q c k r trivial (hanswer fun hc => hguard (by subst hc; rfl))

/-- A server that has lost its first client. -/
def sampleSessions : (c : SessionCall) → Sessions → SessionCall.Reply c × Sessions
  | .lockReconnect, x => ((), { x with locked := true })
  | .unlockReconnect, x => ((), { x with locked := false })
  | .sleep _, x => ((), x)
  | .uuidByte, x => (200, x)
  | .shareConnect _, x => (.ok x.made, { x with made := x.made + 1 })
  | .readClient, x => (x.current, x)
  | .writeClient client, x => ((), { x with current := client })
  | .through 0 (.openExisting _ _), x => (.error .timedOut, x)
  | .through _ (.openExisting _ _), x => (.ok (.file 7), x)
  | .through _ c, x | .direct c, x => ((Server.empty.answer .smooth c).1, x)

theorem sampleSessions_answers (x : Sessions) (c : SessionCall)
    (hlock : c = .lockReconnect → x.locked = false) :
    x.Answers c (sampleSessions c x).1 (sampleSessions c x).2 := by
  cases c with
  | lockReconnect => exact .lock x (hlock rfl)
  | unlockReconnect => exact .unlock x
  | uuidByte => exact .uuidByte x 200
  | sleep millis => exact .sleep x millis
  | shareConnect login => exact .connects x login
  | readClient => exact .read x
  | writeClient client => exact .write x client
  | direct c => exact .direct x c _
  | through client c => cases client <;> cases c <;> exact .through x _ _ _

/-- Two calls that open a file. -/
def sampleOpens : List (SmbM (Except StorageError Handle)) :=
  [openFile sampleConnect.toSmbStorageConfig "a".toList .read,
    openFile sampleConnect.toSmbStorageConfig "b".toList .read]

/-- Both fail, the first one reconnects and opens its file, the second one has taken the lock. -/
def sampleSchedule : List ℕ := [0, 1, 0, 1, 0, 0, 0, 0, 0, 0, 1, 0, 0, 1, 1, 1]

def sampleReached : Sessions × List (SessionThread (Except StorageError Handle)) :=
  runSchedule (I := SessionRequests) Turn.next sampleSessions
    (Sessions.start, sampleOpens.map (callThread sampleUncPath sampleConnect)) sampleSchedule

theorem sampleReached_reach : SessionsReach
    (Sessions.start, sampleOpens.map (callThread sampleUncPath sampleConnect)) sampleReached :=
  sessionsReach_runSchedule sampleSessions_answers (by decide +kernel)

/-- The second call has connected a third client and is about to put it in place. -/
theorem reconnects_exclusive_and_fresh_sample :
    sampleReached.1 = ⟨true, 1, 3⟩ ∧ sampleReached.2.countP (·.phase.busy) ≤ 1 ∧
      ∀ th ∈ sampleReached.2, th.phase.uses.Pairwise Use.After := by
  have hvalid : ValidConfig sampleConnect := validate_eq_ok.mp (by decide +kernel)
  have hshare : sampleUncPath sampleConnect.server sampleConnect.share =
      .ok "\\\\files.example.test\\backups".toList := rfl
  have hholds := reconnects_exclusive_and_fresh (connect_runs.mpr ⟨hvalid, _, hshare, rfl⟩)
    sampleReached_reach
  exact ⟨by decide +kernel, hholds.1.1, hholds.2.2.1⟩

end AtOnce

end GraphqlOrmStorage.Smb
