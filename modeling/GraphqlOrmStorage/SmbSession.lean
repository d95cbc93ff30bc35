import GraphqlOrmStorage.Handlers
import GraphqlOrmStorage.SmbProbe

/-!
# Sessions of the SMB backend

The backend keeps one client for all its calls and replaces it when a connection is lost.
`connect_client` opens a session, `reconnect_with_backoff` tries up to three times under a
lock. The calls of the backend are carried out over sessions: a file or a directory is
opened through the client of the moment, and what the model of the calls has as one request
to reconnect is the whole of `reconnect_with_backoff`.

The library's `UncPath` is a parameter. Randomness and the clock are requests.
-/
namespace GraphqlOrmStorage.Smb

open Text Program Program.Prog

/-! ### Configuration -/

/-- `protocol`. -/
def SmbDialect.protocol : SmbDialect → Dialect
  | .smb2_0_2 => .smb0202
  | .smb2_1 => .smb021
  | .smb3_0 => .smb030
  | .smb3_0_2 => .smb0302
  | .smb3_1_1 => .smb0311

theorem SmbDialect.fromProtocol_protocol (d : SmbDialect) : fromProtocol d.protocol = d := by
  cases d <;> rfl

/-- The derived order: a dialect is older than those declared after it. -/
def SmbDialect.age : SmbDialect → ℕ
  | .smb2_0_2 => 0
  | .smb2_1 => 1
  | .smb3_0 => 2
  | .smb3_0_2 => 3
  | .smb3_1_1 => 4

/-- `SmbStorageConfig` with all its fields; the deadlines are in nanoseconds. -/
structure SmbConnectConfig extends SmbProbeConfig where
  server : Str
  port : UInt16
  share : Str
  username : Str
  password : Str
  domain : Option Str
  minDialect : SmbDialect
  requireSigning : Bool
  connectTimeout : ℕ
  operationTimeout : ℕ

def seconds (n : ℕ) : ℕ := n * 10 ^ 9

/-- `SmbStorageConfig::new`. -/
def SmbConnectConfig.new (server share username password : Str) : SmbConnectConfig where
  server := server
  port := 445
  share := share
  rootPrefix := none
  username := username
  password := password
  domain := none
  minDialect := .smb3_0
  requireSigning := true
  requireEncryption := false
  connectTimeout := seconds 10
  operationTimeout := seconds 60
  maxTransferConcurrency := 8

/-- `invalid_config`. -/
def invalidConfig (message : Str) : StorageError :=
  remoteError .protocol "configuration".toList message false

/-- `validate_server`. -/
def validateServer (server : Str) : Except StorageError Unit :=
  if server = [] ∨ trim server ≠ server ∨ ('/' ∈ server ∨ '\\' ∈ server ∨ '\x00' ∈ server) ∨
      "://".toList <:+: server ∨ server = ['.'] ∨ server = ['.', '.'] then
    .error (invalidConfig
      "server must be a DNS name or IP address without a scheme or path".toList)
  else .ok ()

/-- `validate_component`. -/
def validateComponent (name value : Str) : Except StorageError Unit :=
  if value = [] ∨ trim value ≠ value ∨ ('/' ∈ value ∨ '\\' ∈ value ∨ '\x00' ∈ value) ∨
      value = ['.'] ∨ value = ['.', '.'] then
    .error (invalidConfig (name ++ " is invalid".toList))
  else .ok ()

/-- A check of `validate` that is made in place. -/
def refuseIf (bad : Prop) [Decidable bad] (message : Str) : Except StorageError Unit :=
  if bad then .error (invalidConfig message) else .ok ()

/-- A check of a field that may be left out. -/
def checkSome (check : Str → Except StorageError Unit) : Option Str → Except StorageError Unit
  | some value => check value
  | none => .ok ()

namespace SmbConnectConfig

variable (config : SmbConnectConfig)

/-- `validate`. -/
def validate : Except StorageError Unit := do
  validateServer config.server
  validateComponent "share".toList config.share
  validateComponent "username".toList config.username
  refuseIf (config.password = []) "password must not be empty".toList
  checkSome (validateComponent "domain".toList) config.domain
  checkSome validateBlobKey config.rootPrefix
  refuseIf (config.port = 0) "port must be greater than zero".toList
  refuseIf (config.connectTimeout = 0 ∨ config.operationTimeout = 0)
    "timeouts must be greater than zero".toList
  refuseIf (config.maxTransferConcurrency = 0)
    "max transfer concurrency must be greater than zero".toList
  refuseIf (config.requireEncryption = true ∧ config.minDialect.age < SmbDialect.smb3_0.age)
    "SMB3 encryption requires a minimum dialect of SMB 3.0".toList

/-- `authenticated_username`. -/
def authenticatedUsername : Str :=
  match config.domain with
  | some domain => domain ++ '\\' :: config.username
  | none => config.username

end SmbConnectConfig

/-! What is accepted. -/

/-- A name without separators and without blanks around it. -/
structure PlainName (name : Str) : Prop where
  ne_nil : name ≠ []
  trimmed : trim name = name
  apart : '/' ∉ name ∧ '\\' ∉ name ∧ '\x00' ∉ name
  not_dots : name ≠ ['.'] ∧ name ≠ ['.', '.']

/-- The configurations that can be connected. -/
structure ValidConfig (config : SmbConnectConfig) : Prop where
  server : PlainName config.server
  share : PlainName config.share
  username : PlainName config.username
  password : config.password ≠ []
  domain : ∀ domain, config.domain = some domain → PlainName domain
  rootPrefix : ∀ pre, config.rootPrefix = some pre → ValidKey pre
  port : config.port ≠ 0
  deadlines : config.connectTimeout ≠ 0 ∧ config.operationTimeout ≠ 0
  transfers : config.maxTransferConcurrency ≠ 0
  dialect : config.requireEncryption = true → SmbDialect.smb3_0.age ≤ config.minDialect.age

theorem validateComponent_eq_ok {name value : Str} :
    validateComponent name value = .ok () ↔ PlainName value := by
  unfold validateComponent
  constructor
  · intro h
    split at h
    · cases h
    · rename_i hplain
      simp only [not_or, not_not] at hplain
      obtain ⟨hne, htrim, hapart, hdots⟩ := hplain
      exact ⟨hne, htrim, hapart, hdots⟩
  · rintro ⟨hne, htrim, hapart, hdots⟩
    rw [if_neg]
    simp only [not_or, not_not]
    exact ⟨hne, htrim, hapart, hdots⟩

/-- A scheme has a separator, so its check adds nothing. -/
theorem validateServer_eq_ok {server : Str} :
    validateServer server = .ok () ↔ PlainName server := by
  unfold validateServer
  constructor
  · intro h
    split at h
    · cases h
    · rename_i hplain
      simp only [not_or, not_not] at hplain
      obtain ⟨hne, htrim, hapart, -, hdots⟩ := hplain
      exact ⟨hne, htrim, hapart, hdots⟩
  · rintro ⟨hne, htrim, hapart, hdots⟩
    have hscheme : ¬ "://".toList <:+: server := fun h =>
      hapart.1 (h.subset (by decide))
    rw [if_neg]
    simp only [not_or, not_not]
    exact ⟨hne, htrim, hapart, hscheme, hdots⟩

theorem refuseIf_eq_ok {bad : Prop} [Decidable bad] {message : Str} :
    refuseIf bad message = .ok () ↔ ¬ bad := by
  unfold refuseIf
  split <;> simp [*]

theorem checkSome_eq_ok {check : Str → Except StorageError Unit} {value : Option Str} :
    checkSome check value = .ok () ↔ ∀ v, value = some v → check v = .ok () := by
  cases value <;> simp [checkSome]

theorem bind_eq_ok {x y : Except StorageError Unit} :
    (x >>= fun _ => y) = .ok () ↔ x = .ok () ∧ y = .ok () := by
  cases x <;> simp [Bind.bind, Except.bind]

/-- `validate` accepts these configurations and no others. -/
theorem validate_eq_ok {config : SmbConnectConfig} :
    config.validate = .ok () ↔ ValidConfig config := by
  simp only [SmbConnectConfig.validate, bind_eq_ok, validateServer_eq_ok, validateComponent_eq_ok,
    refuseIf_eq_ok, checkSome_eq_ok, validateBlobKey_eq_ok, not_or, not_and, not_lt]
  constructor
  · rintro ⟨hserver, hshare, husername, hpassword, hdomain, hroot, hport, hdeadlines, htransfers,
      hdialect⟩
    exact ⟨hserver, hshare, husername, hpassword, hdomain, hroot, hport, hdeadlines, htransfers,
      hdialect⟩
  · rintro ⟨hserver, hshare, husername, hpassword, hdomain, hroot, hport, hdeadlines, htransfers,
      hdialect⟩
    exact ⟨hserver, hshare, husername, hpassword, hdomain, hroot, hport, hdeadlines, htransfers,
      hdialect⟩

/-! ### Sessions -/

/-- `smb::connection::EncryptionMode`, what is set here. -/
inductive EncryptionMode where
  | required | allowed
  deriving DecidableEq

/-- `smb::ConnectionConfig`, what is set here. -/
structure ConnectionConfig where
  port : Option UInt16
  timeout : Option ℕ
  minDialect : Option Dialect
  encryptionMode : EncryptionMode
  allowUnsignedGuestAccess : Bool
  smb2OnlyNegotiate : Bool
  deriving DecidableEq

/-- What `share_connect` is given. -/
structure Login where
  connection : ConnectionConfig
  share : Str
  username : Str
  password : Str
  deadline : ℕ
  deriving DecidableEq

/-- A connected client is known by the order in which it was connected. -/
abbrev Client := ℕ

inductive SessionCall where
  | lockReconnect
  | unlockReconnect
  /-- The first byte of a new `Uuid`. -/
  | uuidByte
  | sleep (millis : ℕ)
  /-- `share_connect` of a new client under its deadline. -/
  | shareConnect (login : Login)
  | readClient
  | writeClient (client : Client)
  /-- A request that opens something goes through a client. -/
  | through (client : Client) (c : SmbCall)
  /-- A request on what is open, or on the limiter. -/
  | direct (c : SmbCall)

abbrev SessionCall.Reply : SessionCall → Type
  | lockReconnect | unlockReconnect | sleep _ | writeClient _ => Unit
  | uuidByte => UInt8
  | shareConnect _ => Except (Failure SmbError) Client
  | readClient => Client
  | through _ c | direct c => SmbCall.Reply c

abbrev SessionRequests : Interface := ⟨SessionCall, SessionCall.Reply⟩

abbrev SessionM := Prog SessionRequests

def sessionRequest (c : SessionCall) : SessionM (SessionCall.Reply c) :=
  Prog.perform (I := SessionRequests) c

/-- `UncPath::new` with `with_share`. -/
abbrev UncPath := Str → Str → Except SmbError Str

/-- The loop of `ensure_directories` through a client. -/
def ensureSegmentsThrough (client : Client) : Str → List Str → SessionM (Except StorageError Unit)
  | _, [] => return .ok ()
  | current, segment :: rest => do
    let current := if current = [] then segment else current ++ '/' :: segment
    match withTimeout "create_directory".toList (← sessionRequest
        (.through client (.createDirectory (replaceChar '/' '\\' current)))) with
    | .error e => return .error e
    | .ok resource =>
      match ← sessionRequest (.direct (.closeResource resource.handle)) with
      | .error e => return .error (mapSmbError "close".toList e)
      | .ok () => ensureSegmentsThrough client current rest

section Connecting

variable (uncPath : UncPath) (config : SmbConnectConfig)

/-- The connection that `connect_client` asks for. -/
def connectionConfig : ConnectionConfig where
  port := some config.port
  timeout := some config.connectTimeout
  minDialect := some config.minDialect.protocol
  encryptionMode := if config.requireEncryption then .required else .allowed
  allowUnsignedGuestAccess := false
  smb2OnlyNegotiate := true

/-- The session that it asks for. -/
def login (share : Str) : Login :=
  ⟨connectionConfig config, share, config.authenticatedUsername, config.password,
    config.connectTimeout⟩

/-- What it makes of the reply. -/
def connected : Except (Failure SmbError) Client → Except StorageError Client
  | .ok client => .ok client
  | .error .timedOut => .error (remoteError .timeout "connect".toList
      "SMB negotiation, authentication, or share connection timed out".toList true)
  | .error (.failed error) => .error (mapSmbError "connect".toList error)

/-- `connect_client`. -/
def connectClient : SessionM (Except StorageError Client) :=
  match uncPath config.server config.share with
  | .error error => return .error (mapSmbError "connect".toList error)
  | .ok share => do return connected (← sessionRequest (.shareConnect (login config share)))

/-- `connect`, as far as the client. -/
def connect : SessionM (Except StorageError Client) :=
  match config.validate with
  | .error e => return .error e
  | .ok () => connectClient uncPath config

/-- The loop of `reconnect_with_backoff`. -/
def reconnectAttempts (lastError : Option StorageError) :
    List ℕ → SessionM (Except StorageError Unit)
  | [] => return .error (lastError.getD (remoteError .connectionLost "reconnect".toList
      "reconnect attempts were exhausted".toList true))
  | delay :: delays => do
    let jitter := (← sessionRequest .uuidByte).toNat % 75
    sessionRequest (.sleep (delay + jitter))
    match ← connectClient uncPath config with
    | .ok client => do
      sessionRequest (.writeClient client)
      return .ok ()
    | .error e =>
      if !e.isRetryable then return .error e
      else reconnectAttempts (some e) delays

def delays : List ℕ := [100, 250, 500]

/-- `reconnect_with_backoff`; the guard is dropped on return. -/
def reconnectWithBackoff : SessionM (Except StorageError Unit) := do
  sessionRequest .lockReconnect
  let result ← reconnectAttempts uncPath config none delays
  sessionRequest .unlockReconnect
  return result

/-! ### The calls over sessions -/

/-- How a request of the backend is made. A file is opened through the client of the moment;
`ensure_directories` takes it with its first directory and keeps it for those below. -/
def sessionCall (kept : Option Client) :
    (c : SmbCall) → SessionM (SmbCall.Reply c × Option Client)
  | .createDirectory path => do
    let client ← match kept with
      | some client => if '\\' ∈ path then pure client else sessionRequest .readClient
      | none => sessionRequest .readClient
    return (← sessionRequest (.through client (.createDirectory path)), some client)
  | .createFile path exclusive => do
    let client ← sessionRequest .readClient
    return (← sessionRequest (.through client (.createFile path exclusive)), none)
  | .openExisting path access => do
    let client ← sessionRequest .readClient
    return (← sessionRequest (.through client (.openExisting path access)), none)
  | .reconnect => do return (← reconnectWithBackoff uncPath config, none)
  | c => do return (← sessionRequest (.direct c), kept)

/-- `ensure_directories` as it is written, with one client for all its directories. -/
def ensureDirectoriesThrough (path : Str) : SessionM (Except StorageError Unit × Client) := do
  let client ← sessionRequest .readClient
  return (← ensureSegmentsThrough client [] (path.splitOn '/'), client)

theorem sessionCall_below {client : Client} {path : Str} (h : '\\' ∈ path) :
    sessionCall uncPath config (some client) (.createDirectory path) =
      .call (.through client (.createDirectory path)) fun r => .ret (r, some client) := by
  simp only [sessionCall, if_pos h]
  rfl

theorem sessionCall_first (kept : Option Client) {path : Str} (h : '\\' ∉ path) :
    sessionCall uncPath config kept (.createDirectory path) = .call .readClient fun client =>
      .call (.through client (.createDirectory path)) fun r => .ret (r, some client) := by
  cases kept with
  | none => rfl
  | some client =>
    simp only [sessionCall, if_neg h]
    rfl

theorem ensureSegments_carryOut (client : Client) {current : Str} (segments : List Str)
    (hcurrent : current ≠ []) :
    (ensureSegments current segments).carryOut (sessionCall uncPath config) (some client) =
      (ensureSegmentsThrough client current segments).bind fun r => .ret (r, some client) := by
  induction segments generalizing current with
  | nil => rfl
  | cons segment rest ih =>
    unfold ensureSegments ensureSegmentsThrough
    generalize hnext : (if current = [] then segment else current ++ '/' :: segment) = next
    rw [if_neg hcurrent] at hnext
    have hslash : '\\' ∈ replaceChar '/' '\\' next := by simp [← hnext, replaceChar]
    have hne : next ≠ [] := by simp [← hnext]
    change Prog.bind (sessionCall uncPath config (some client) (.createDirectory _)) _ = _
    rw [sessionCall_below uncPath config hslash]
    refine congrArg (Prog.call (I := SessionRequests) (.through client _))
      (funext fun created => ?_)
    simp only [ret_bind]
    cases withTimeout "create_directory".toList created with
    | error e => rfl
    | ok resource =>
      refine congrArg (Prog.call (I := SessionRequests) (.direct (.closeResource resource.handle)))
        (funext fun r => ?_)
      cases r with
      | error e => rfl
      | ok u => exact ih hne

/-- Carried out over sessions, `ensure_directories` is what is written. -/
theorem ensureDirectories_carryOut {path : Str} (hk : ValidKey path) (kept : Option Client) :
    (ensureDirectories path).carryOut (sessionCall uncPath config) kept =
      (ensureDirectoriesThrough path).bind fun r => .ret (r.1, some r.2) := by
  simp only [ensureDirectories, ensureDirectoriesThrough]
  cases hpath : path.splitOn '/' with
  | nil => exact absurd hpath (List.splitOn_ne_nil '/' path)
  | cons segment rest =>
    obtain ⟨hne, -, -, hslash, -⟩ := hk.2 segment (by simp [hpath])
    have hback : '\\' ∉ segment := fun hmem => hk.1
      ((mem_splitOn_iff (show '\\' ≠ '/' by decide) path).mpr ⟨segment, by simp [hpath], hmem⟩)
    have hfirst : '\\' ∉ replaceChar '/' '\\' segment := by
      simp only [replaceChar, List.mem_map, not_exists, not_and]
      intro c hc
      split
      · rename_i heq
        exact absurd (heq ▸ hc) hslash
      · rintro rfl
        exact hback hc
    unfold ensureSegments ensureSegmentsThrough
    change Prog.bind (sessionCall uncPath config kept
      (.createDirectory (replaceChar '/' '\\' segment))) _ = _
    rw [sessionCall_first uncPath config kept hfirst]
    refine congrArg (Prog.call (I := SessionRequests) .readClient) (funext fun client => ?_)
    refine congrArg (Prog.call (I := SessionRequests) (.through client _))
      (funext fun created => ?_)
    simp only [ret_bind]
    cases withTimeout "create_directory".toList created with
    | error e => rfl
    | ok resource =>
      refine congrArg (Prog.call (I := SessionRequests) (.direct (.closeResource resource.handle)))
        (funext fun r => ?_)
      cases r with
      | error e => rfl
      | ok u =>
        refine (ensureSegments_carryOut uncPath config client rest hne).trans ?_
        exact (bind_assoc (ensureSegmentsThrough client segment rest)
          (fun r => .ret (r, client)) fun r => .ret (r.1, some r.2)).symm

end Connecting

/-! ### Reconnecting -/

/-- One attempt to connect: the byte that is drawn before it and the reply. -/
structure Attempt where
  byte : UInt8
  reply : Except (Failure SmbError) Client

abbrev SessionLog := List (Sigma SessionCall.Reply)

/-- An attempt comes after a delay with some jitter. -/
def Attempt.log (login : Login) (delay : ℕ) (a : Attempt) : SessionLog :=
  [⟨.uuidByte, a.byte⟩, ⟨.sleep (delay + a.byte.toNat % 75), ()⟩, ⟨.shareConnect login, a.reply⟩]

/-- The client of the last attempt takes the place of the old one, if there is one. -/
def installLog : List Attempt → SessionLog
  | [] => []
  | [⟨_, .ok client⟩] => [⟨.writeClient client, ()⟩]
  | [⟨_, .error _⟩] => []
  | _ :: a :: rest => installLog (a :: rest)

/-- The attempts of one reconnect with so many delays, and what comes of it: all but the last fail
with errors that are worth another one, the last says what is returned, and a last one of the same
kind comes after the last delay. -/
structure Backoff (n : ℕ) (attempts : List Attempt) (result : Except StorageError Unit) : Prop where
  few : attempts.length ≤ n
  again : ∀ a ∈ attempts.dropLast, ∃ e, connected a.reply = .error e ∧ e.isRetryable = true
  last : ∃ a, attempts.getLast? = some a ∧ result = (connected a.reply).map (fun _ => ()) ∧
    ∀ e, connected a.reply = .error e → e.isRetryable = true → attempts.length = n

def attemptsLog (login : Login) (delays : List ℕ) (attempts : List Attempt) : SessionLog :=
  (List.zipWith (Attempt.log login) delays attempts).flatten ++ installLog attempts

/-- The log of a whole reconnect. -/
def backoffLog (login : Login) (attempts : List Attempt) : SessionLog :=
  ⟨.lockReconnect, ()⟩ :: (attemptsLog login delays attempts ++ [⟨.unlockReconnect, ()⟩])

section Runs

variable {uncPath : UncPath} {config : SmbConnectConfig} {share : Str}

theorem connected_eq_ok {reply : Except (Failure SmbError) Client} {client : Client} :
    connected reply = .ok client ↔ reply = .ok client := by
  rcases reply with (_ | e) | client <;> simp [connected]

/-- A backend is there once a valid configuration has been accepted by the server, in one attempt
under its login. -/
theorem connect_runs {log : SessionLog} {client : Client} :
    RunsTo (connect uncPath config) log (.ok client) ↔ ValidConfig config ∧
      ∃ share, uncPath config.server config.share = .ok share ∧
        log = [⟨.shareConnect (login config share), .ok client⟩] := by
  rw [← validate_eq_ok, connect]
  cases config.validate with
  | error e => simp
  | ok u =>
    simp only [connectClient, true_and]
    cases hpath : uncPath config.server config.share with
    | error error => simp
    | ok share =>
      have hrun : RunsTo (Prog.call (I := SessionRequests) (.shareConnect (login config share))
          fun reply => .ret (connected reply)) log (.ok client) ↔
            log = [⟨.shareConnect (login config share), .ok client⟩] := by
        simp only [runsTo_call, runsTo_ret]
        constructor
        · rintro ⟨reply, _, rfl, rfl, hreply⟩
          rw [connected_eq_ok.mp hreply.symm]
        · rintro rfl
          exact ⟨.ok client, [], rfl, rfl, rfl⟩
      refine hrun.trans ?_
      simp

/-- The last of the attempts that are needed. -/
theorem backoff_singleton {n : ℕ} {a : Attempt} {result : Except StorageError Unit} :
    Backoff (n + 1) [a] result ↔ result = (connected a.reply).map (fun _ => ()) ∧
      ∀ e, connected a.reply = .error e → e.isRetryable = true → n = 0 := by
  constructor
  · rintro ⟨-, -, b, hb, hresult, hlast⟩
    obtain rfl : a = b := Option.some.inj hb
    exact ⟨hresult, fun e he hretry => by simpa using (hlast e he hretry).symm⟩
  · rintro ⟨hresult, hlast⟩
    exact ⟨by simp, by simp, a, rfl, hresult, fun e he hretry => by simp [hlast e he hretry]⟩

theorem backoff_cons {n : ℕ} {a b : Attempt} {rest : List Attempt}
    {result : Except StorageError Unit} :
    Backoff (n + 1) (a :: b :: rest) result ↔
      (∃ e, connected a.reply = .error e ∧ e.isRetryable = true) ∧
        Backoff n (b :: rest) result := by
  constructor
  · rintro ⟨hfew, hagain, c, hc, hresult, hlast⟩
    refine ⟨hagain a (by simp), by simpa using hfew, fun d hd => hagain d (by simp [hd]), c, hc,
      hresult, fun e he hretry => by simpa using hlast e he hretry⟩
  · rintro ⟨ha, hfew, hagain, c, hc, hresult, hlast⟩
    refine ⟨by simpa using hfew, ?_, c, hc, hresult,
      fun e he hretry => by simpa using hlast e he hretry⟩
    intro d hd
    rcases List.mem_cons.mp hd with rfl | hd
    · exact ha
    · exact hagain d hd

theorem not_backoff_nil {n : ℕ} {result : Except StorageError Unit} : ¬ Backoff n [] result := by
  rintro ⟨-, -, a, ha, -⟩
  cases ha

theorem reconnectAttempts_cons (hshare : uncPath config.server config.share = .ok share)
    (lastError : Option StorageError) (delay : ℕ) (rest : List ℕ) :
    reconnectAttempts uncPath config lastError (delay :: rest) =
      .call .uuidByte fun byte => .call (.sleep (delay + byte.toNat % 75)) fun _ =>
        .call (.shareConnect (login config share)) fun reply => match connected reply with
          | .ok client => .call (.writeClient client) fun _ => .ret (.ok ())
          | .error e => if !e.isRetryable then .ret (.error e)
            else reconnectAttempts uncPath config (some e) rest := by
  simp only [reconnectAttempts, connectClient, hshare]
  rfl

theorem attemptsLog_cons (login : Login) (delay : ℕ) (rest : List ℕ) (a b : Attempt)
    (attempts : List Attempt) : attemptsLog login (delay :: rest) (a :: b :: attempts) =
      a.log login delay ++ attemptsLog login rest (b :: attempts) := by
  simp [attemptsLog, installLog]

/-- What is left to do after the first attempt. -/
def Continues (uncPath : UncPath) (config : SmbConnectConfig) (rest : List ℕ) (a : Attempt)
    (log : SessionLog) (result : Except StorageError Unit) : Prop :=
  match connected a.reply with
  | .ok client => log = [⟨.writeClient client, ()⟩] ∧ result = .ok ()
  | .error e => if e.isRetryable = true then
      RunsTo (reconnectAttempts uncPath config (some e) rest) log result
    else log = [] ∧ result = .error e

theorem reconnectAttempts_first (hshare : uncPath config.server config.share = .ok share)
    (lastError : Option StorageError) (delay : ℕ) (rest : List ℕ) {log : SessionLog}
    {result : Except StorageError Unit} :
    RunsTo (reconnectAttempts uncPath config lastError (delay :: rest)) log result ↔
      ∃ a log', log = Attempt.log (login config share) delay a ++ log' ∧
        Continues uncPath config rest a log' result := by
  rw [reconnectAttempts_cons hshare]
  simp only [runsTo_call]
  constructor
  · rintro ⟨byte, _, rfl, slept, _, rfl, reply, log', rfl, hrest⟩
    refine ⟨⟨byte, reply⟩, log', rfl, ?_⟩
    unfold Continues
    cases hreply : connected reply with
    | ok client =>
      simp only [hreply, runsTo_call, runsTo_ret] at hrest
      obtain ⟨_, _, rfl, rfl, hresult⟩ := hrest
      exact ⟨rfl, hresult⟩
    | error e => cases hretry : e.isRetryable <;> simpa [hreply, hretry] using hrest
  · rintro ⟨⟨byte, reply⟩, log', rfl, hrest⟩
    refine ⟨byte, _, rfl, (), _, rfl, reply, log', rfl, ?_⟩
    unfold Continues at hrest
    cases hreply : connected reply with
    | ok client =>
      simp only [hreply] at hrest
      obtain ⟨rfl, rfl⟩ := hrest
      exact .call _ _ _ (.ret _)
    | error e => cases hretry : e.isRetryable <;> simpa [hreply, hretry] using hrest

/-- An attempt is the last that is needed, or fails with an error that is worth another one. -/
theorem settled_or_again (a : Attempt) :
    (∀ e, connected a.reply = .error e → e.isRetryable = false) ∨
      ∃ e, connected a.reply = .error e ∧ e.isRetryable = true := by
  by_cases hsettled : ∀ e, connected a.reply = .error e → e.isRetryable = false
  · exact Or.inl hsettled
  · push Not at hsettled
    obtain ⟨e, he, hretry⟩ := hsettled
    exact Or.inr ⟨e, he, by simpa using hretry⟩

theorem continues_settled {rest : List ℕ} {a : Attempt} {log : SessionLog}
    {result : Except StorageError Unit} (n : ℕ)
    (hsettled : ∀ e, connected a.reply = .error e → e.isRetryable = false) :
    Continues uncPath config rest a log result ↔
      Backoff (n + 1) [a] result ∧ log = installLog [a] := by
  have hlast : ∀ e, connected a.reply = .error e → e.isRetryable = true → n = 0 :=
    fun e he hretry => absurd hretry (by simp [hsettled e he])
  rw [backoff_singleton, and_iff_left hlast]
  obtain ⟨byte, reply⟩ := a
  unfold Continues
  cases reply with
  | ok client => exact and_comm
  | error failure =>
    obtain ⟨e, he⟩ : ∃ e, connected (.error failure) = .error e := by
      cases failure <;> exact ⟨_, rfl⟩
    simp only [he, hsettled e he, Bool.false_eq_true, if_false, installLog, Except.map]
    exact and_comm

theorem continues_again {rest : List ℕ} {a : Attempt} {log : SessionLog}
    {result : Except StorageError Unit} {e : StorageError} (he : connected a.reply = .error e)
    (hretry : e.isRetryable = true) : Continues uncPath config rest a log result ↔
      RunsTo (reconnectAttempts uncPath config (some e) rest) log result := by
  simp only [Continues, he, hretry, if_true]

theorem installLog_error {a : Attempt} {e : StorageError} (he : connected a.reply = .error e) :
    installLog [a] = [] := by
  obtain ⟨byte, (_ | _) | client⟩ := a
  · rfl
  · rfl
  · cases he

/-- After the last delay an error is returned even if it is worth another attempt. -/
theorem continues_last {a : Attempt} {log : SessionLog} {result : Except StorageError Unit} :
    Continues uncPath config [] a log result ↔ Backoff 1 [a] result ∧ log = installLog [a] := by
  rcases settled_or_again a with hsettled | ⟨e, he, hretry⟩
  · exact continues_settled 0 hsettled
  · rw [continues_again he hretry, backoff_singleton, he, installLog_error he]
    simp [reconnectAttempts, Except.map, and_comm]

theorem attemptsLog_singleton (login : Login) (delay : ℕ) (rest : List ℕ) (a : Attempt) :
    attemptsLog login (delay :: rest) [a] = a.log login delay ++ installLog [a] := by
  simp [attemptsLog]

/-- The runs of the loop. -/
theorem reconnectAttempts_runs (hshare : uncPath config.server config.share = .ok share)
    (lastError : Option StorageError) (first : ℕ) (rest : List ℕ) {log : SessionLog}
    {result : Except StorageError Unit} :
    RunsTo (reconnectAttempts uncPath config lastError (first :: rest)) log result ↔
      ∃ attempts, Backoff (rest.length + 1) attempts result ∧
        log = attemptsLog (login config share) (first :: rest) attempts := by
  induction rest generalizing lastError first log with
  | nil =>
    rw [reconnectAttempts_first hshare]
    constructor
    · rintro ⟨a, log', rfl, hrest⟩
      obtain ⟨hbackoff, rfl⟩ := continues_last.mp hrest
      exact ⟨[a], hbackoff, (attemptsLog_singleton ..).symm⟩
    · rintro ⟨attempts, hbackoff, rfl⟩
      match attempts with
      | [] => exact absurd hbackoff not_backoff_nil
      | [a] => exact ⟨a, _, attemptsLog_singleton .., continues_last.mpr ⟨hbackoff, rfl⟩⟩
      | a :: b :: attempts =>
        exact absurd (backoff_cons.mp hbackoff).2.few (by simp)
  | cons second rest ih =>
    rw [reconnectAttempts_first hshare]
    constructor
    · rintro ⟨a, log', rfl, hrest⟩
      rcases settled_or_again a with hsettled | ⟨e, he, hretry⟩
      · obtain ⟨hbackoff, rfl⟩ := (continues_settled _ hsettled).mp hrest
        exact ⟨[a], hbackoff, (attemptsLog_singleton ..).symm⟩
      · rw [continues_again he hretry] at hrest
        obtain ⟨attempts, hbackoff, rfl⟩ := (ih (some e) second).mp hrest
        match attempts with
        | [] => exact absurd hbackoff not_backoff_nil
        | b :: attempts =>
          exact ⟨a :: b :: attempts, backoff_cons.mpr ⟨⟨e, he, hretry⟩, hbackoff⟩,
            (attemptsLog_cons ..).symm⟩
    · rintro ⟨attempts, hbackoff, rfl⟩
      match attempts with
      | [] => exact absurd hbackoff not_backoff_nil
      | [a] =>
        refine ⟨a, _, attemptsLog_singleton .., ?_⟩
        rcases settled_or_again a with hsettled | ⟨e, he, hretry⟩
        · exact (continues_settled _ hsettled).mpr ⟨hbackoff, rfl⟩
        · -- A delay is left, so the loop would go on.
          exact absurd ((backoff_singleton.mp hbackoff).2 e he hretry) (by simp)
      | a :: b :: attempts =>
        obtain ⟨⟨e, he, hretry⟩, hrest⟩ := backoff_cons.mp hbackoff
        refine ⟨a, _, attemptsLog_cons .., (continues_again he hretry).mpr ?_⟩
        exact (ih (some e) second).mpr ⟨_, hrest, rfl⟩

/-- The runs of `reconnect_with_backoff`. -/
theorem reconnectWithBackoff_runs (hshare : uncPath config.server config.share = .ok share)
    {log : SessionLog} {result : Except StorageError Unit} :
    RunsTo (reconnectWithBackoff uncPath config) log result ↔
      ∃ attempts, Backoff 3 attempts result ∧ log = backoffLog (login config share) attempts := by
  have hloop : ∀ log result, RunsTo (reconnectAttempts uncPath config none delays) log result ↔
      ∃ attempts, Backoff 3 attempts result ∧
        log = attemptsLog (login config share) delays attempts :=
    fun _ _ => reconnectAttempts_runs hshare none 100 [250, 500]
  have hunfold : reconnectWithBackoff uncPath config = .call .lockReconnect fun _ =>
      (reconnectAttempts uncPath config none delays).bind fun result =>
        .call .unlockReconnect fun _ => .ret result := rfl
  simp only [hunfold, runsTo_call, runsTo_bind, runsTo_ret, hloop]
  constructor
  · rintro ⟨_, _, rfl, _, result', _, rfl, ⟨attempts, hbackoff, rfl⟩, _, _, rfl, rfl, rfl⟩
    exact ⟨attempts, hbackoff, rfl⟩
  · rintro ⟨attempts, hbackoff, rfl⟩
    exact ⟨(), _, rfl, _, result, _, rfl, ⟨attempts, hbackoff, rfl⟩, (), [], rfl, rfl, rfl⟩

/-! ### Whole calls -/

/-- The request opens a file. -/
def SmbCall.opensFile : SmbCall → Bool
  | .createFile _ _ | .openExisting _ _ => true
  | _ => false

/-- The request is on what is open, or on the limiter. -/
def SmbCall.isDirect : SmbCall → Bool
  | .createDirectory _ | .createFile _ _ | .openExisting _ _ | .reconnect => false
  | _ => true

/-- How a request with its reply reads over sessions, with the client that is kept before and
after it. -/
inductive ReadsOver (login : Login) : Option Client → (c : SmbCall) → SmbCall.Reply c →
    SessionLog → Option Client → Prop
  | opened (kept : Option Client) (client : Client) (c : SmbCall) (r : SmbCall.Reply c) :
    c.opensFile = true →
      ReadsOver login kept c r [⟨.readClient, client⟩, ⟨.through client c, r⟩] none
  | first (kept : Option Client) (client : Client) (path : Str)
    (r : SmbCall.Reply (.createDirectory path)) : (kept = none ∨ '\\' ∉ path) →
      ReadsOver login kept (.createDirectory path) r
        [⟨.readClient, client⟩, ⟨.through client (.createDirectory path), r⟩] (some client)
  | below (client : Client) (path : Str) (r : SmbCall.Reply (.createDirectory path)) :
    '\\' ∈ path → ReadsOver login (some client) (.createDirectory path) r
      [⟨.through client (.createDirectory path), r⟩] (some client)
  | reconnect (kept : Option Client) (attempts : List Attempt) (r : Except StorageError Unit) :
    Backoff 3 attempts r →
      ReadsOver login kept .reconnect r (backoffLog login attempts) none
  | direct (kept : Option Client) (c : SmbCall) (r : SmbCall.Reply c) :
    c.isDirect = true → ReadsOver login kept c r [⟨.direct c, r⟩] kept

theorem readsOver_opened {login : Login} {kept kept' : Option Client} {c : SmbCall}
    {r : SmbCall.Reply c} {piece : SessionLog} (hopens : c.opensFile = true) :
    ReadsOver login kept c r piece kept' ↔
      (∃ client, piece = [⟨.readClient, client⟩, ⟨.through client c, r⟩]) ∧ kept' = none := by
  constructor
  · intro h
    cases h with
    | opened _ client _ _ _ => exact ⟨⟨client, rfl⟩, rfl⟩
    | direct _ _ _ hdirect =>
      cases c <;> simp [SmbCall.opensFile, SmbCall.isDirect] at hopens hdirect
    | _ => cases hopens
  · rintro ⟨⟨client, rfl⟩, rfl⟩
    exact .opened kept client c r hopens

theorem readsOver_direct {login : Login} {kept kept' : Option Client} {c : SmbCall}
    {r : SmbCall.Reply c} {piece : SessionLog} (hdirect : c.isDirect = true) :
    ReadsOver login kept c r piece kept' ↔ piece = [⟨.direct c, r⟩] ∧ kept' = kept := by
  constructor
  · intro h
    cases h with
    | opened _ _ _ _ hopens =>
      cases c <;> simp [SmbCall.opensFile, SmbCall.isDirect] at hopens hdirect
    | direct _ _ _ _ => exact ⟨rfl, rfl⟩
    | _ => cases hdirect
  · rintro ⟨rfl, rfl⟩
    exact .direct kept' c r hdirect

/-- A request through the client of the moment. -/
theorem runsTo_through {c : SmbCall} {r : SmbCall.Reply c} (keep : Client → Option Client)
    {piece : SessionLog} {kept' : Option Client} :
    RunsTo (Prog.call (I := SessionRequests) .readClient fun client =>
        .call (.through client c) fun r => .ret (r, keep client)) piece (r, kept') ↔
      ∃ client, piece = [⟨.readClient, client⟩, ⟨.through client c, r⟩] ∧ kept' = keep client := by
  simp only [runsTo_call, runsTo_ret, Prod.mk.injEq]
  constructor
  · rintro ⟨client, _, rfl, r', _, rfl, rfl, rfl, rfl⟩
    exact ⟨client, rfl, rfl⟩
  · rintro ⟨client, rfl, rfl⟩
    exact ⟨client, _, rfl, r, [], rfl, rfl, rfl, rfl⟩

theorem runsTo_sent {c : SessionCall} {α : Type} {r : SessionCall.Reply c} {x kept' : α}
    {piece : SessionLog} :
    RunsTo (Prog.call (I := SessionRequests) c fun r => .ret (r, x)) piece (r, kept') ↔
      piece = [⟨c, r⟩] ∧ kept' = x := by
  simp only [runsTo_call, runsTo_ret, Prod.mk.injEq]
  constructor
  · rintro ⟨r', _, rfl, rfl, rfl, rfl⟩
    exact ⟨rfl, rfl⟩
  · rintro ⟨rfl, rfl⟩
    exact ⟨r, [], rfl, rfl, rfl, rfl⟩

theorem readsOver_createDirectory {login : Login} {kept kept' : Option Client} {path : Str}
    {r : SmbCall.Reply (.createDirectory path)} {piece : SessionLog} :
    ReadsOver login kept (.createDirectory path) r piece kept' ↔
      ((kept = none ∨ '\\' ∉ path) ∧ ∃ client,
        piece = [⟨.readClient, client⟩, ⟨.through client (.createDirectory path), r⟩] ∧
          kept' = some client) ∨
      '\\' ∈ path ∧ ∃ client, kept = some client ∧
        piece = [⟨.through client (.createDirectory path), r⟩] ∧ kept' = some client := by
  constructor
  · intro h
    cases h with
    | opened _ _ _ _ hopens => cases hopens
    | first _ client _ _ hnew => exact Or.inl ⟨hnew, client, rfl, rfl⟩
    | below client _ _ hbelow => exact Or.inr ⟨hbelow, client, rfl, rfl, rfl⟩
    | direct _ _ _ hdirect => cases hdirect
  · rintro (⟨hnew, client, rfl, rfl⟩ | ⟨hbelow, client, rfl, rfl, rfl⟩)
    · exact .first kept client path r hnew
    · exact .below client path r hbelow

/-- The runs of one request over sessions. -/
theorem sessionCall_runs (hshare : uncPath config.server config.share = .ok share)
    (kept : Option Client) (c : SmbCall) (r : SmbCall.Reply c) (piece : SessionLog)
    (kept' : Option Client) : RunsTo (sessionCall uncPath config kept c) piece (r, kept') ↔
      ReadsOver (login config share) kept c r piece kept' := by
  cases c with
  | createDirectory path =>
    rw [readsOver_createDirectory]
    by_cases hslash : '\\' ∈ path
    · cases kept with
      | none =>
        refine (runsTo_through some).trans ?_
        simp
      | some client =>
        rw [sessionCall_below uncPath config hslash, runsTo_sent]
        simp [hslash]
    · rw [sessionCall_first uncPath config kept hslash]
      refine (runsTo_through some).trans ?_
      simp [hslash]
  | createFile path exclusive =>
    rw [readsOver_opened rfl]
    exact (runsTo_through fun _ => none).trans exists_and_right
  | openExisting path access =>
    rw [readsOver_opened rfl]
    exact (runsTo_through fun _ => none).trans exists_and_right
  | reconnect =>
    have hunfold : sessionCall uncPath config kept .reconnect =
        (reconnectWithBackoff uncPath config).bind fun r => .ret (r, none) := rfl
    simp only [hunfold, runsTo_bind, runsTo_ret, reconnectWithBackoff_runs hshare]
    constructor
    · rintro ⟨_, r', _, rfl, ⟨attempts, hbackoff, rfl⟩, rfl, hresult⟩
      obtain ⟨rfl, rfl⟩ := Prod.mk.inj hresult
      rw [List.append_nil]
      exact .reconnect kept attempts r hbackoff
    · intro h
      cases h with
      | opened _ _ _ _ hopens => cases hopens
      | reconnect _ attempts _ hbackoff =>
        exact ⟨_, r, [], (List.append_nil _).symm, ⟨attempts, hbackoff, rfl⟩, rfl, rfl⟩
      | direct _ _ _ hdirect => cases hdirect
  | _ =>
    rw [readsOver_direct rfl]
    exact runsTo_sent

/-- The runs of any call of the backend over sessions are its runs with one reply to each reconnect,
where a file is opened through the client of the moment and a reconnect reads as at most three
attempts under the lock, the last of which decides and puts its client in place. -/
theorem session_runs (hshare : uncPath config.server config.share = .ok share) {α : Type}
    (p : SmbM α) (kept : Option Client) (log' : SessionLog) (a : α) (kept' : Option Client) :
    RunsTo (p.carryOut (sessionCall uncPath config) kept) log' (a, kept') ↔
      ∃ log, RunsTo p log a ∧ Expands (I := Requests) (J := SessionRequests)
        (ReadsOver (login config share)) kept log log' kept' :=
  runsTo_carryOut (sessionCall_runs hshare)

/-- `\\server\share`. -/
def sampleUncPath : UncPath := fun server share => .ok ("\\\\".toList ++ server ++ '\\' :: share)

def sampleConnect : SmbConnectConfig :=
  .new "files.example.test".toList "backups".toList "backup-user".toList "secret".toList

/-- A server that has lost its first client and takes a while to be back: it counts the attempts
to connect, the second of which succeeds. -/
def sampleReply : (c : SessionCall) → ℕ → SessionCall.Reply c × ℕ
  | .lockReconnect, n | .unlockReconnect, n | .sleep _, n | .writeClient _, n => ((), n)
  | .uuidByte, n => (200, n)
  | .shareConnect _, n => (if n = 0 then .error .timedOut else .ok n, n + 1)
  | .readClient, n => (n - 1, n)
  | .through 0 (.openExisting _ _), n => (.error .timedOut, n)
  | .through _ (.openExisting _ _), n => (.ok (.file 7), n)
  | .through _ c, n | .direct c, n => ((Server.empty.answer .smooth c).1, n)

/-- A file is opened with the second client, after two attempts to connect. -/
theorem session_runs_sample : ∃ log log',
    RunsTo (openFile sampleConnect.toSmbStorageConfig "a".toList .read) log (.ok 7) ∧
      Expands (I := Requests) (J := SessionRequests)
        (ReadsOver (login sampleConnect "\\\\files.example.test\\backups".toList)) none log log'
        none := by
  have hresult : (((openFile sampleConnect.toSmbStorageConfig "a".toList .read).carryOut
      (sessionCall sampleUncPath sampleConnect) none).exec sampleReply 0).1 = (.ok 7, none) := by
    decide +kernel
  obtain ⟨log', hrun, -⟩ := exec_runsTo sampleReply ((openFile sampleConnect.toSmbStorageConfig
    "a".toList .read).carryOut (sessionCall sampleUncPath sampleConnect) none) 0
  rw [hresult] at hrun
  have hshare : sampleUncPath sampleConnect.server sampleConnect.share =
      .ok "\\\\files.example.test\\backups".toList := rfl
  obtain ⟨log, hlog, hexpands⟩ := (session_runs hshare
    (openFile sampleConnect.toSmbStorageConfig "a".toList .read) none log' (.ok 7) none).mp hrun
  exact ⟨log, log', hlog, hexpands⟩

end Runs

end GraphqlOrmStorage.Smb
