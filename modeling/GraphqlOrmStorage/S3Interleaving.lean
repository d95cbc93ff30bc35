import GraphqlOrmStorage.S3Bucket
import GraphqlOrmStorage.AtomicMap
import GraphqlOrmStorage.SizeHints

/-!
# Calls of the S3 backend that overlap

Any number of calls, on backends with any configurations, against one server whose
requests may fail before or after they take effect. A write is published by a single
request, the put or the completion, and its parts go to an upload of its own; so each
call is at most one event of a map from places to contents. The phases follow a call up
to that request, and what it returns is compared with its event in the end.
-/
namespace GraphqlOrmStorage.S3

open Text Program Program.Prog

/-! ### Calls and the events that explain their results -/

/-- A call of the backend. -/
inductive S3Op where
  | putBlob (key : Str) (body : StorageByteStream) (options : BlobPutOptions)
  | putBlobIfNotExists (key : Str) (body : StorageByteStream) (options : BlobPutOptions)
  | getBlob (key : Str)
  | getBlobRange (key : Str) (start stop : ℕ)
  | headBlob (key : Str)
  | blobExists (key : Str)
  | copyBlob (src dst : Str)
  | deleteBlob (key : Str)

inductive S3Result where
  | wrote (result : Except StorageError BlobWriteOutcome)
  | created (result : Except StorageError (Option BlobWriteOutcome))
  | read (result : Except StorageError BlobBody)
  | described (result : Except StorageError (Option BlobMetadata))
  | found (result : Except StorageError Bool)
  | done (result : Except StorageError Unit)

/-- A call on the backend with this configuration. -/
structure Invocation where
  config : S3StorageConfig
  op : S3Op

def Invocation.prog (D : Digest) (call : Invocation) : S3M S3Result :=
  match call.op with
  | .putBlob key body options => do return .wrote (← S3.putBlob D call.config key body options)
  | .putBlobIfNotExists key body options => do
    return .created (← S3.putBlobIfNotExists D call.config key body options)
  | .getBlob key => do return .read (← S3.getBlob call.config key)
  | .getBlobRange key start stop => do
    return .read (← S3.getBlobRange call.config key start stop)
  | .headBlob key => do return .described (← S3.headBlob call.config key)
  | .blobExists key => do return .found (← S3.blobExists call.config key)
  | .copyBlob src dst => do return .done (← S3.copyBlob call.config src dst)
  | .deleteBlob key => do return .done (← S3.deleteBlob call.config key)

/-- The place that stands for a key. -/
def placeOf (config : S3StorageConfig) (key : Str) : Except StorageError Place :=
  (providerKey config key).map fun object => (config.bucket, object)

abbrev BlobChange := MapEvent Place Bytes

/-- The change that a call is there to make. -/
def Makes (config : S3StorageConfig) : S3Op → BlobChange → Prop
  | .putBlob key body _, e => ∃ place b, placeOf config key = .ok place ∧ body.body = .ok b ∧
      e = .wrote place b
  | .putBlobIfNotExists key body _, e => ∃ place b, placeOf config key = .ok place ∧
      body.body = .ok b ∧ e = .created place b
  | .copyBlob src dst, e => ∃ place place', placeOf config src = .ok place ∧
      placeOf config dst = .ok place' ∧ e = .copied place place'
  | .deleteBlob key, e => ∃ place, placeOf config key = .ok place ∧ e = .erased place
  | _, _ => False

/-- The keys that a call names. -/
def S3Op.keys : S3Op → List Str
  | .putBlob key _ _ | .putBlobIfNotExists key _ _ | .getBlob key | .getBlobRange key _ _
  | .headBlob key | .blobExists key | .deleteBlob key => [key]
  | .copyBlob src dst => [src, dst]

/-- An event that a call can be: its change, or a sight of one of its keys. -/
def Fits (config : S3StorageConfig) (op : S3Op) (e : BlobChange) : Prop :=
  Makes config op e ∨
    ∃ key ∈ op.keys, ∃ place content, placeOf config key = .ok place ∧ e = .saw place content

/-- No event, or the change. -/
def Attempted (config : S3StorageConfig) (op : S3Op) (events : List BlobChange) : Prop :=
  events = [] ∨ ∃ e, Makes config op e ∧ events = [e]

/-- The content of a key was seen. -/
def Saw (config : S3StorageConfig) (key : Str) (content : Option Bytes)
    (events : List BlobChange) : Prop :=
  ∃ place, placeOf config key = .ok place ∧ events = [.saw place content]

/-- What is told of a content: its length, if anything. -/
def Describes (metadata : Option BlobMetadata) (content : Bytes) : Prop :=
  ∀ m ∈ metadata, ∀ n ∈ m.sizeBytes, n = content.length

/-- The events that explain what a call returned. -/
def Explains (D : Digest) (config : S3StorageConfig) :
    S3Op → S3Result → List BlobChange → Prop
  | .putBlob key body options, .wrote (.ok outcome), events => ∃ e b, body.body = .ok b ∧
      outcome = outcomeOf D b ∧ Makes config (.putBlob key body options) e ∧ events = [e]
  | .putBlobIfNotExists key body options, .created (.ok (some outcome)), events =>
    ∃ e b, body.body = .ok b ∧ outcome = outcomeOf D b ∧
      Makes config (.putBlobIfNotExists key body options) e ∧ events = [e]
  | .putBlobIfNotExists key _ _, .created (.ok none), events =>
    ∃ content, Saw config key (some content) events
  | .getBlob key, .read (.ok blob), events => ∃ content, Saw config key (some content) events ∧
      Describes blob.metadata content ∧ ∀ b, blob.body.body = .ok b → b = content
  | .getBlobRange key start stop, .read (.ok blob), events =>
    if start = stop then
      ∃ content, Saw config key content events ∧ blob.metadata.isSome = content.isSome ∧
        (∀ b ∈ content, Describes blob.metadata b) ∧ blob.body = .fromBytes []
    else start < stop ∧ ∃ content, Saw config key (some content) events ∧
      Describes blob.metadata (Ranges.slice content start stop) ∧
        ∀ b, blob.body.body = .ok b → b = Ranges.slice content start stop
  | .headBlob key, .described (.ok metadata), events => ∃ content, Saw config key content events ∧
      metadata.isSome = content.isSome ∧ ∀ b ∈ content, Describes metadata b
  | .blobExists key, .found (.ok found), events => ∃ content, Saw config key content events ∧
      found = content.isSome
  | .copyBlob src dst, .done (.ok ()), events => ∃ e, Makes config (.copyBlob src dst) e ∧
      events = [e]
  | .deleteBlob key, .done (.ok ()), events => ∃ e, Makes config (.deleteBlob key) e ∧
      events = [e]
  | .getBlob key, .read (.error e), events | .getBlobRange key _ _, .read (.error e), events =>
    if e = .missingBlob key then Saw config key none events else events = []
  | .copyBlob src dst, .done (.error e), events =>
    if e = .missingBlob src then Saw config src none events
    else Attempted config (.copyBlob src dst) events
  | .headBlob _, .described (.error _), events | .blobExists _, .found (.error _), events =>
    events = []
  | .putBlob key body options, .wrote (.error _), events =>
    Attempted config (.putBlob key body options) events
  | .putBlobIfNotExists key body options, .created (.error _), events =>
    Attempted config (.putBlobIfNotExists key body options) events
  | .deleteBlob key, .done (.error _), events => Attempted config (.deleteBlob key) events
  | _, _, _ => False

/-! ### Phases -/

/-- How far a call has come: nothing has happened that counts; its upload holds some parts;
a request failed and it will make no other that counts; or a reply came that its event
must agree with. -/
inductive S3Stage where
  | idle
  | uploading (sent : List SentPart)
  | spent
  | settled (agrees : BlobChange → Prop)

structure S3Phase where
  call : Invocation
  upload : Option Upload
  stage : S3Stage

/-- The event of a call so far. -/
def S3Phase.Admits (q : S3Phase) (events : List BlobChange) : Prop :=
  match q.stage with
  | .idle | .uploading _ => events = []
  | .spent => Attempted q.call.config q.call.op events
  | .settled agrees => ∃ e, agrees e ∧ Fits q.call.config q.call.op e ∧ events = [e]

/-- The bytes that a call writes. -/
def S3Op.body : S3Op → Option StorageByteStream
  | .putBlob _ body _ | .putBlobIfNotExists _ body _ => some body
  | _ => none

/-- The key that a call writes or reads. -/
def S3Op.key : S3Op → Str
  | .putBlob key _ _ | .putBlobIfNotExists key _ _ | .getBlob key | .getBlobRange key _ _
  | .headBlob key | .blobExists key | .copyBlob _ key | .deleteBlob key => key

def S3Op.ifNotExists : S3Op → Bool
  | .putBlobIfNotExists _ _ _ => true
  | _ => false

theorem S3Op.key_mem (op : S3Op) : op.key ∈ op.keys := by
  cases op <;> simp [S3Op.key, S3Op.keys]

/-- A call that asks for metadata. -/
def S3Op.asksHead : S3Op → Bool
  | .headBlob _ | .blobExists _ => true
  | .getBlobRange _ start stop => start = stop
  | _ => false

/-- After the publishing request of some bytes. -/
def publishStage (place : Place) (b : Bytes) (condition : Option Str) : Except Str Unit → S3Stage
  | .ok () => .settled fun e => e = if condition = none then .wrote place b else .created place b
  | .error text =>
    if condition ≠ none ∧ saysCondition text then
      .settled fun e => ∃ content, e = .saw place (some content)
    else .spent

/-- After a request that was told that its object is missing, or failed otherwise. -/
def missingStage (place : Option Place) (text : Str) : S3Stage :=
  if isMissingError text then .settled fun e => ∃ p ∈ place, e = .saw p none else .spent

/-- What a reply that was awaited says about the event of its request. -/
def Agrees : (c : S3Call) → S3Call.Reply c → BlobChange → Prop
  | .getObject bucket key none, .ok output, e => ∃ content,
    e = .saw (bucket, key) (some content) ∧ output.Holds content
  | .getObject bucket key (some range), .ok output, e => ∃ content,
    e = .saw (bucket, key) (some content) ∧ ∀ start stop, start < stop →
      range = rangeHeader start stop → output.Holds (Ranges.slice content start stop)
  | .headObject bucket key, .ok output, e => ∃ content,
    e = .saw (bucket, key) (some content) ∧ ∀ n ∈ output.contentLength, n = content.length
  | .copyObject bucket key copySource, .ok (), e =>
    ∃ place ∈ S3Call.reads (.copyObject bucket key copySource), e = .copied place (bucket, key)
  | .deleteObject bucket key, .ok (), e => e = .erased (bucket, key)
  | _, _, _ => False

/-- The phase after a reply. -/
def S3Phase.advance (q : S3Phase) : (c : S3Call) → S3Call.Reply c → S3Phase
  | .putObject bucket key body _ ifNoneMatch, reply =>
    ⟨q.call, q.upload, publishStage (bucket, key) body ifNoneMatch reply⟩
  | .createMultipartUpload bucket key _, .ok (some uploadId) =>
    ⟨q.call, some ⟨bucket, key, uploadId⟩, .uploading []⟩
  | .createMultipartUpload .., _ => ⟨q.call, q.upload, .spent⟩
  | .uploadPart _ _ _ _ body, .ok eTag =>
    match q.stage with
    | .uploading sent => ⟨q.call, q.upload, .uploading (sent ++ [(body, eTag)])⟩
    | _ => q
  | .uploadPart .., .error _ => ⟨q.call, q.upload, .spent⟩
  | .completeMultipartUpload bucket key _ _ ifNoneMatch, reply =>
    match q.stage with
    | .uploading sent =>
      ⟨q.call, q.upload, publishStage (bucket, key) (partBytes sent) ifNoneMatch reply⟩
    | _ => q
  | .abortMultipartUpload .., _ => q
  | .getObject bucket key range, .error text =>
    ⟨q.call, q.upload, missingStage (S3Call.reads (.getObject bucket key range)) text⟩
  | .headObject bucket key, .error text =>
    ⟨q.call, q.upload, missingStage (S3Call.reads (.headObject bucket key)) text⟩
  | .copyObject bucket key copySource, .error text =>
    ⟨q.call, q.upload, missingStage (S3Call.reads (.copyObject bucket key copySource)) text⟩
  | .deleteObject .., .error _ => ⟨q.call, q.upload, .spent⟩
  | c, reply => ⟨q.call, q.upload, .settled (Agrees c reply)⟩

/-- The requests that a call makes in each phase. -/
inductive S3Phase.Issues : S3Phase → S3Call → Prop
  | putObject {config op body b bucket object contentType} : S3Op.body op = some body →
      body.body = .ok b → placeOf config op.key = .ok (bucket, object) →
      Issues ⟨⟨config, op⟩, none, .idle⟩
        (.putObject bucket object b contentType (ifNoneMatch op.ifNotExists))
  | create {config op body bucket object contentType} : S3Op.body op = some body →
      placeOf config op.key = .ok (bucket, object) →
      Issues ⟨⟨config, op⟩, none, .idle⟩ (.createMultipartUpload bucket object contentType)
  | part {call} {u : Upload} {sent b} : Issues ⟨call, some u, .uploading sent⟩
      (.uploadPart u.bucket u.key u.uploadId (partNumber sent.length) b)
  | complete {config op body} {u : Upload} {sent} : S3Op.body op = some body →
      body.body = .ok (partBytes sent) → placeOf config op.key = .ok (u.bucket, u.key) →
      Issues ⟨⟨config, op⟩, some u, .uploading sent⟩ (.completeMultipartUpload u.bucket u.key
        u.uploadId (completedParts partNumber 0 sent) (ifNoneMatch op.ifNotExists))
  | abort {call} {u : Upload} {stage} : (∀ sent, stage ≠ .uploading sent) →
      Issues ⟨call, some u, stage⟩ (.abortMultipartUpload u.bucket u.key u.uploadId)
  | get {config key bucket object} : placeOf config key = .ok (bucket, object) →
      Issues ⟨⟨config, .getBlob key⟩, none, .idle⟩ (.getObject bucket object none)
  | range {config key start stop bucket object} : placeOf config key = .ok (bucket, object) →
      start < stop → Issues ⟨⟨config, .getBlobRange key start stop⟩, none, .idle⟩
        (.getObject bucket object (some (rangeHeader start stop)))
  | head {config op bucket object} : S3Op.asksHead op = true →
      placeOf config op.key = .ok (bucket, object) →
      Issues ⟨⟨config, op⟩, none, .idle⟩ (.headObject bucket object)
  | copy {config src dst bucket object bucket' object'} :
      placeOf config src = .ok (bucket, object) → placeOf config dst = .ok (bucket', object') →
      PlainSource bucket object → Issues ⟨⟨config, .copyBlob src dst⟩, none, .idle⟩
        (.copyObject bucket' object' (bucket ++ '/' :: object))
  | delete {config key bucket object} : placeOf config key = .ok (bucket, object) →
      Issues ⟨⟨config, .deleteBlob key⟩, none, .idle⟩ (.deleteObject bucket object)

def s3Discipline : Discipline Requests S3Phase where
  allowed := S3Phase.Issues
  next := S3Phase.advance

abbrev S3Thread := Thread Requests S3Phase S3Result

/-- The call before its first request. -/
def Invocation.start (D : Digest) (call : Invocation) : S3Thread :=
  ⟨⟨call, none, .idle⟩, call.prog D⟩

/-- The source of a copy has a name that the server reads as it is meant. -/
def Invocation.Plain (call : Invocation) : Prop :=
  ∀ src dst, call.op = .copyBlob src dst → ∀ place, placeOf call.config src = .ok place →
    PlainSource place.1 place.2

/-- A call of the pool returns something that its event explains. -/
def Settles (D : Digest) (q : S3Phase) (result : S3Result) : Prop :=
  ∀ events, q.Admits events → Explains D q.call.config q.call.op result events

/-! ### The calls keep to their phases -/

section Phases

variable {D : Digest} {call : Invocation} {place : Place} {body : StorageByteStream}
  {options : BlobPutOptions}

theorem placeOf_eq_ok {config : S3StorageConfig} {key : Str} : placeOf config key = .ok place ↔
    providerKey config key = .ok place.2 ∧ place.1 = config.bucket := by
  obtain ⟨bucket, object⟩ := place
  unfold placeOf
  cases providerKey config key with
  | error e => simp [Except.map]
  | ok object' => simp [Except.map, and_comm, eq_comm]

/-- The phase has no reply that an event must agree with. -/
def Unsettled (call : Invocation) (q : S3Phase) : Prop :=
  q.call = call ∧ ∀ agrees, q.stage ≠ .settled agrees

theorem Unsettled.attempted {q : S3Phase} (h : Unsettled call q) {events : List BlobChange}
    (he : q.Admits events) : Attempted call.config call.op events := by
  obtain ⟨call', upload, stage⟩ := q
  obtain ⟨rfl, hstage⟩ := h
  cases stage with
  | idle => exact Or.inl he
  | uploading sent => exact Or.inl he
  | spent => exact he
  | settled agrees => exact absurd rfl (hstage agrees)

/-- The phase of a call that has this much of its body in an upload. -/
def Carrying (call : Invocation) (place : Place) : Option MultipartUploadState → Bytes →
    S3Phase → Prop
  | none, b, q => q = ⟨call, none, .idle⟩ ∧ b = []
  | some state, b, q => ∃ uploadId sent, state = stateAfter uploadId sent ∧
      q = ⟨call, some ⟨place.1, place.2, uploadId⟩, .uploading sent⟩ ∧ b = partBytes sent

/-- After cutting parts off a buffer; `b` is what the upload and the buffer held before. -/
def Carried (call : Invocation) (place : Place) (b : Bytes) (q : S3Phase) :
    Except StorageError (Bytes × Option MultipartUploadState) → Prop
  | .error _ => Unsettled call q
  | .ok (rest, multipart) => ∃ stored, Carrying call place multipart stored q ∧ stored ++ rest = b

theorem Carrying.unsettled {multipart : Option MultipartUploadState} {b : Bytes} {q : S3Phase}
    (h : Carrying call place multipart b q) : Unsettled call q := by
  cases multipart with
  | none =>
    obtain ⟨rfl, _⟩ := h
    exact ⟨rfl, fun agrees he => by cases he⟩
  | some state =>
    obtain ⟨uploadId, sent, _, rfl, _⟩ := h
    exact ⟨rfl, fun agrees he => by cases he⟩

theorem openUpload_follows (hbody : call.op.body = some body)
    (hplace : placeOf call.config call.op.key = .ok place)
    {multipart : Option MultipartUploadState} {b : Bytes} {q : S3Phase}
    (hq : Carrying call place multipart b q) :
    Follows s3Discipline (fun q' result => Carried call place b q'
      (result.map fun state => ([], some state))) q
      (openUpload call.config place.2 options multipart) := by
  obtain ⟨config, op⟩ := call
  obtain ⟨_, hbucket⟩ := placeOf_eq_ok.mp hplace
  cases multipart with
  | some state => exact ⟨b, hq, by simp⟩
  | none =>
    obtain ⟨rfl, rfl⟩ := hq
    refine ⟨by rw [← hbucket]; exact .create hbody hplace, fun reply => ?_⟩
    rcases reply with text | (_ | uploadId)
    · exact ⟨rfl, fun agrees he => by cases he⟩
    · exact ⟨rfl, fun agrees he => by cases he⟩
    · exact ⟨[], ⟨uploadId, [], rfl, by rw [hbucket]; rfl, rfl⟩, rfl⟩

theorem uploadPart_follows {uploadId : Str} {sent : List SentPart} {part : Bytes}
    (hplace : placeOf call.config call.op.key = .ok place) :
    Follows s3Discipline (fun q' result => Carried call place (partBytes sent ++ part) q'
        (result.map fun state => ([], some state)))
      ⟨call, some ⟨place.1, place.2, uploadId⟩, .uploading sent⟩
      (uploadPart call.config place.2 (stateAfter uploadId sent) part) := by
  obtain ⟨bucket, object⟩ := place
  obtain rfl : bucket = call.config.bucket := (placeOf_eq_ok.mp hplace).2
  have hissues : S3Phase.Issues ⟨call, some ⟨call.config.bucket, object, uploadId⟩, .uploading sent⟩
      (.uploadPart call.config.bucket object (stateAfter uploadId sent).uploadId
        (stateAfter uploadId sent).nextPartNumber part) := by
    simp only [stateAfter]
    exact .part (u := ⟨call.config.bucket, object, uploadId⟩)
  refine follows_perform hissues fun reply => ?_
  cases reply with
  | error text => exact ⟨rfl, fun agrees he => by cases he⟩
  | ok eTag =>
    refine ⟨partBytes sent ++ part, ⟨uploadId, sent ++ [(part, eTag)], ?_, rfl, by simp⟩, by simp⟩
    exact stateAfter_add uploadId sent part eTag

theorem uploadFullParts_follows (hbody : call.op.body = some body)
    (hplace : placeOf call.config call.op.key = .ok place)
    {multipart : Option MultipartUploadState} {b buffer : Bytes} {q : S3Phase}
    (hq : Carrying call place multipart b q) :
    Follows s3Discipline (Carried call place (b ++ buffer)) q
      (uploadFullParts call.config place.2 options buffer multipart) := by
  induction hn : buffer.length using Nat.strong_induction_on
    generalizing buffer multipart b q with
  | _ n ih =>
    rw [uploadFullParts]
    by_cases hfull : multipartPartSize ≤ buffer.length
    · rw [dif_pos hfull]
      refine Follows.bind (openUpload_follows hbody hplace hq) fun q' opened hopened => ?_
      cases opened with
      | error e => exact hopened
      | ok state =>
        obtain ⟨stored, ⟨uploadId, sent, hstate, hq', hstored⟩, hb⟩ := hopened
        rw [hstate, hq']
        refine Follows.bind (uploadPart_follows hplace) fun q'' result hsent => ?_
        cases result with
        | error e => exact hsent
        | ok state =>
          obtain ⟨stored', hcarry, hb'⟩ := hsent
          have hless : (buffer.drop multipartPartSize).length < n := by
            have hpos : 0 < multipartPartSize := by decide
            rw [List.length_drop]
            omega
          have hrest := ih _ hless hcarry rfl
          rw [List.append_nil] at hb hb'
          rwa [hb', ← hstored, hb, List.append_assoc, List.take_append_drop] at hrest
    · rw [dif_neg hfull]
      exact ⟨b, hq, rfl⟩

/-- The loop over the body has seen these chunks. -/
structure Consumed (call : Invocation) (place : Place) (chunks : List Bytes)
    (p : UploadProgress D) (q : S3Phase) : Prop where
  hashed : p.hasher = chunks.foldl D.update D.new
  counted : p.sizeBytes = countChunks 0 chunks
  stored : ∃ b, Carrying call place p.multipart b q ∧ b ++ p.buffer = chunks.flatten

/-- After the loop over these chunks and then the items. -/
def Looped (call : Invocation) (place : Place) (chunks : List Bytes)
    (items : List (Except StorageError Bytes)) (q : S3Phase) :
    Except StorageError (UploadProgress D) → Prop
  | .error _ => Unsettled call q
  | .ok p => firstError items = none ∧ Consumed call place (chunks ++ okChunks items) p q

theorem uploadChunks_follows (hbody : call.op.body = some body)
    (hplace : placeOf call.config call.op.key = .ok place)
    (items : List (Except StorageError Bytes)) {chunks : List Bytes} {p : UploadProgress D}
    {q : S3Phase} (hq : Consumed call place chunks p q) :
    Follows s3Discipline (Looped call place chunks items) q
      (uploadChunks call.config place.2 options items p) := by
  induction items generalizing chunks p q with
  | nil => exact ⟨rfl, by simpa [okChunks] using hq⟩
  | cons item items ih =>
    obtain ⟨hhash, hsize, b, hcarry, hb⟩ := hq
    cases item with
    | error e => exact hcarry.unsettled
    | ok chunk =>
      refine Follows.bind (uploadFullParts_follows hbody hplace hcarry) fun q' cut hcut => ?_
      cases cut with
      | error e => exact hcut
      | ok cut =>
        obtain ⟨rest, multipart⟩ := cut
        obtain ⟨stored, hcarry', hstored⟩ := hcut
        have hstep : Consumed call place (chunks ++ [chunk])
            (⟨rest, D.update p.hasher chunk, saturatingAdd p.sizeBytes chunk.length, multipart⟩ :
              UploadProgress D) q' := by
          refine ⟨by rw [List.foldl_concat, hhash], ?_, stored, hcarry', ?_⟩
          · rw [hsize, countChunks, countChunks, List.foldl_concat]
          · rw [hstored, ← List.append_assoc, hb, List.flatten_append, List.flatten_singleton]
        refine (ih hstep).mono fun q'' result hloop => ?_
        cases result with
        | error e => exact hloop
        | ok p' =>
          obtain ⟨hnone, hconsumed⟩ := hloop
          rw [List.append_assoc, List.singleton_append] at hconsumed
          exact ⟨hnone, hconsumed⟩

theorem uploadLastPart_follows {uploadId : Str} {sent : List SentPart} {rest : Bytes}
    (hplace : placeOf call.config call.op.key = .ok place) :
    Follows s3Discipline (fun q' result => Carried call place (partBytes sent ++ rest) q'
        (result.map fun state => ([], some state)))
      ⟨call, some ⟨place.1, place.2, uploadId⟩, .uploading sent⟩
      (uploadLastPart call.config place.2 (stateAfter uploadId sent) rest) := by
  unfold uploadLastPart
  by_cases hrest : rest = []
  · rw [if_pos hrest]
    refine ⟨partBytes sent, ⟨uploadId, sent, rfl, rfl, rfl⟩, ?_⟩
    rw [hrest]
  · rw [if_neg hrest]
    exact uploadPart_follows hplace

/-- The change of a write of these bytes. -/
def writeOf (call : Invocation) (place : Place) (b : Bytes) : BlobChange :=
  if call.op.ifNotExists then .created place b else .wrote place b

/-- After the publishing request. -/
def Concluded (call : Invocation) (place : Place) (b : Bytes) (q : S3Phase) :
    Except StorageError Unit → Prop
  | .ok () => q.call = call ∧ q.stage = .settled fun e => e = writeOf call place b
  | .error error =>
    if call.op.ifNotExists && isPreconditionError error then
      q.call = call ∧ q.stage = .settled fun e => ∃ content, e = .saw place (some content)
    else Unsettled call q

theorem publishStage_ne_uploading {b : Bytes} {condition : Option Str} {reply : Except Str Unit}
    {sent : List SentPart} : publishStage place b condition reply ≠ .uploading sent := by
  cases reply with
  | ok _ => simp [publishStage]
  | error text =>
    simp only [publishStage]
    split_ifs <;> simp

theorem publishStage_concluded (call : Invocation) (place : Place) (upload : Option Upload)
    (b : Bytes) (reply : Except Str Unit) :
    Concluded call place b
      ⟨call, upload, publishStage place b (ifNoneMatch call.op.ifNotExists) reply⟩
      (reply.mapError mapS3Error) := by
  cases reply with
  | ok _ =>
    refine ⟨rfl, ?_⟩
    cases hop : call.op.ifNotExists <;> simp [publishStage, ifNoneMatch, writeOf, hop]
  | error text =>
    cases hop : call.op.ifNotExists with
    | false => simp [Concluded, Except.mapError, publishStage, ifNoneMatch, hop, Unsettled]
    | true =>
      cases hsaid : saysCondition text with
      | true =>
        have hcond : isPreconditionError (mapS3Error text) = true := hsaid
        simp [Concluded, Except.mapError, publishStage, ifNoneMatch, hop, hsaid, hcond]
      | false =>
        have hcond : isPreconditionError (mapS3Error text) = false := hsaid
        simp [Concluded, Except.mapError, publishStage, ifNoneMatch, hop, hsaid, hcond, Unsettled]

theorem putSingleBlob_follows {b : Bytes} (hbody : call.op.body = some body)
    (hb : body.body = .ok b) (hplace : placeOf call.config call.op.key = .ok place) :
    Follows s3Discipline (Concluded call place b) ⟨call, none, .idle⟩
      (putSingleBlob call.config place.2 b options call.op.ifNotExists) := by
  obtain ⟨config, op⟩ := call
  obtain ⟨bucket, object⟩ := place
  obtain rfl : bucket = config.bucket := (placeOf_eq_ok.mp hplace).2
  refine ⟨.putObject hbody hb hplace, fun reply => ?_⟩
  have hconcluded := publishStage_concluded ⟨config, op⟩ (config.bucket, object) none b reply
  cases reply with
  | ok _ => exact hconcluded
  | error text => exact hconcluded

theorem completeMultipartUpload_follows {uploadId : Str} {sent : List SentPart}
    (hbody : call.op.body = some body) (hb : body.body = .ok (partBytes sent))
    (hplace : placeOf call.config call.op.key = .ok place) :
    Follows s3Discipline (Concluded call place (partBytes sent))
      ⟨call, some ⟨place.1, place.2, uploadId⟩, .uploading sent⟩
      (completeMultipartUpload call.config place.2 (stateAfter uploadId sent)
        call.op.ifNotExists) := by
  obtain ⟨config, op⟩ := call
  obtain ⟨bucket, object⟩ := place
  obtain rfl : bucket = config.bucket := (placeOf_eq_ok.mp hplace).2
  refine ⟨.complete (u := ⟨config.bucket, object, uploadId⟩) hbody hb hplace, fun reply => ?_⟩
  have hconcluded := publishStage_concluded ⟨config, op⟩ (config.bucket, object)
    (some ⟨config.bucket, object, uploadId⟩) (partBytes sent) reply
  cases reply with
  | ok _ => exact hconcluded
  | error text =>
    exact ⟨.abort (u := ⟨config.bucket, object, uploadId⟩) fun _ => publishStage_ne_uploading,
      fun _ => hconcluded⟩

/-- After the whole write. -/
def Reported (D : Digest) (call : Invocation) (place : Place) (body : StorageByteStream)
    (q : S3Phase) : Except StorageError (Option BlobWriteOutcome) → Prop
  | .ok (some outcome) => ∃ b, body.body = .ok b ∧ outcome = outcomeOf D b ∧ q.call = call ∧
      q.stage = .settled fun e => e = writeOf call place b
  | .ok none => call.op.ifNotExists = true ∧ q.call = call ∧
      q.stage = .settled fun e => ∃ content, e = .saw place (some content)
  | .error _ => Unsettled call q

theorem Concluded.reported {b : Bytes} (hb : body.body = .ok b) {q : S3Phase}
    {result : Except StorageError Unit} (h : Concluded call place b q result) :
    Reported D call place body q (published call.op.ifNotExists (outcomeOf D b) result) := by
  cases result with
  | ok _ => exact ⟨b, hb, rfl, h⟩
  | error e =>
    simp only [published]
    simp only [Concluded] at h
    by_cases hcond : call.op.ifNotExists && isPreconditionError e
    · rw [if_pos hcond] at h ⊢
      exact ⟨(Bool.and_eq_true_iff.mp hcond).1, h⟩
    · rw [if_neg hcond] at h ⊢
      exact h

/-- The digest and the size of a progress are those of the bytes seen. -/
theorem Consumed.outcome {chunks : List Bytes} {p : UploadProgress D} {q : S3Phase}
    (h : Consumed call place chunks p q) :
    (⟨p.sizeBytes, lowerHex (D.finalize p.hasher)⟩ : BlobWriteOutcome) =
      outcomeOf D chunks.flatten := by
  rw [h.counted, h.hashed, D.finalize_foldl, countChunks_eq _ _ (Nat.zero_le _), Nat.zero_add]
  rfl

theorem finishUpload_follows {chunks : List Bytes} {p : UploadProgress D} {q : S3Phase}
    (hbody : call.op.body = some body) (hb : body.body = .ok chunks.flatten)
    (hplace : placeOf call.config call.op.key = .ok place) (hq : Consumed call place chunks p q) :
    Follows s3Discipline (Reported D call place body) q
      (finishUpload call.config place.2 options call.op.ifNotExists p) := by
  have houtcome := hq.outcome
  obtain ⟨stored, hcarry, hstored⟩ := hq.stored
  unfold finishUpload
  rw [houtcome]
  cases hm : p.multipart with
  | none =>
    rw [hm] at hcarry
    obtain ⟨rfl, rfl⟩ := hcarry
    rw [List.nil_append] at hstored
    refine Follows.bind (putSingleBlob_follows hbody (hstored ▸ hb) hplace) fun q' result hput => ?_
    rw [hstored] at hput
    exact hput.reported hb
  | some state =>
    rw [hm] at hcarry
    obtain ⟨uploadId, sent, hstate, rfl, hsent⟩ := hcarry
    rw [hsent] at hstored
    simp only [hstate]
    refine Follows.bind (uploadLastPart_follows hplace) fun q' last hlast => ?_
    cases last with
    | error e => exact hlast
    | ok state' =>
      obtain ⟨stored', ⟨uploadId', sent', hstate', hq', hsent'⟩, hwhole⟩ := hlast
      rw [hsent', List.append_nil, hstored] at hwhole
      rw [hstate', hq']
      refine Follows.bind (completeMultipartUpload_follows hbody (hwhole ▸ hb) hplace)
        fun q'' result hcomplete => ?_
      rw [hwhole] at hcomplete
      exact hcomplete.reported hb

theorem putBlobInner_follows (D : Digest) (call : Invocation) (options : BlobPutOptions)
    (hbody : call.op.body = some body) :
    Follows s3Discipline (fun q result =>
        (∃ place, placeOf call.config call.op.key = .ok place ∧
          Reported D call place body q result) ∨ (Unsettled call q ∧ ∃ e, result = .error e))
      ⟨call, none, .idle⟩
      (putBlobInner D call.config call.op.key body options call.op.ifNotExists) := by
  unfold putBlobInner
  cases hk : providerKey call.config call.op.key with
  | error e => exact Or.inr ⟨⟨rfl, fun agrees he => by cases he⟩, e, rfl⟩
  | ok object =>
    have hplace : placeOf call.config call.op.key = .ok (call.config.bucket, object) :=
      placeOf_eq_ok.mpr ⟨hk, rfl⟩
    have hstart : Consumed call (call.config.bucket, object) []
        (⟨[], D.new, 0, none⟩ : UploadProgress D) ⟨call, none, .idle⟩ :=
      ⟨rfl, rfl, [], ⟨rfl, rfl⟩, rfl⟩
    refine Follows.bind (uploadChunks_follows hbody hplace body.inner hstart)
      fun q progress hloop => ?_
    cases progress with
    | error e => exact Or.inr ⟨hloop, e, rfl⟩
    | ok p =>
      obtain ⟨hnone, hconsumed⟩ := hloop
      rw [List.nil_append] at hconsumed
      have hb : body.body = .ok (okChunks body.inner).flatten :=
        StorageByteStream.body_eq_ok.mpr ⟨hnone, rfl⟩
      exact (finishUpload_follows hbody hb hplace hconsumed).mono
        fun q' result hreported => Or.inl ⟨_, hplace, hreported⟩

/-- Without a reply to agree with, an attempt must explain the result. -/
theorem Unsettled.settles {q : S3Phase} (h : Unsettled call q) {result : S3Result}
    (hresult : ∀ events, Attempted call.config call.op events →
      Explains D call.config call.op result events) : Settles D q result := by
  intro events he
  rw [h.1]
  exact hresult events (h.attempted he)

/-- With one, each event that agrees with it must. -/
theorem settles_of_settled (call : Invocation) {q : S3Phase} {agrees : BlobChange → Prop}
    (hcall : q.call = call)
    (hstage : q.stage = .settled agrees) {result : S3Result}
    (hresult : ∀ e, agrees e → Explains D call.config call.op result [e]) :
    Settles D q result := by
  intro events he
  simp only [S3Phase.Admits, hstage] at he
  obtain ⟨e, hagrees, _, rfl⟩ := he
  rw [hcall]
  exact hresult e hagrees

theorem putBlob_settles (config : S3StorageConfig) (key : Str) :
    Follows s3Discipline (fun q result => Settles D q (.wrote result))
      ⟨⟨config, .putBlob key body options⟩, none, .idle⟩
      (S3.putBlob D config key body options) := by
  refine Follows.bind (putBlobInner_follows D ⟨config, .putBlob key body options⟩ options rfl)
    fun q result h => ?_
  rcases h with ⟨place, hplace, hreported⟩ | ⟨hunsettled, e, rfl⟩
  · rcases result with e | (_ | outcome)
    · exact Unsettled.settles hreported fun events h => h
    · exact absurd hreported.1 (by simp [S3Op.ifNotExists])
    · obtain ⟨b, hb, houtcome, hcall, hstage⟩ := hreported
      refine settles_of_settled _ hcall hstage fun e he => ?_
      exact ⟨e, b, hb, houtcome, ⟨place, b, hplace, hb, he⟩, rfl⟩
  · exact hunsettled.settles fun events h => h

theorem putBlobIfNotExists_settles (config : S3StorageConfig) (key : Str) :
    Follows s3Discipline (fun q result => Settles D q (.created result))
      ⟨⟨config, .putBlobIfNotExists key body options⟩, none, .idle⟩
      (S3.putBlobIfNotExists D config key body options) := by
  refine (putBlobInner_follows D ⟨config, .putBlobIfNotExists key body options⟩ options rfl).mono
    fun q result h => ?_
  rcases h with ⟨place, hplace, hreported⟩ | ⟨hunsettled, e, rfl⟩
  · rcases result with e | (_ | outcome)
    · exact Unsettled.settles hreported fun events h => h
    · obtain ⟨_, hcall, hstage⟩ := hreported
      refine settles_of_settled _ hcall hstage fun e he => ?_
      obtain ⟨content, rfl⟩ := he
      exact ⟨content, place, hplace, rfl⟩
    · obtain ⟨b, hb, houtcome, hcall, hstage⟩ := hreported
      refine settles_of_settled _ hcall hstage fun e he => ?_
      exact ⟨e, b, hb, houtcome, ⟨place, b, hplace, hb, he⟩, rfl⟩
  · exact hunsettled.settles fun events h => h

/-! ### Calls of one request -/

theorem deleteBlob_settles (config : S3StorageConfig) (key : Str) :
    Follows s3Discipline (fun q result => Settles D q (.done result))
      ⟨⟨config, .deleteBlob key⟩, none, .idle⟩ (S3.deleteBlob config key) := by
  unfold S3.deleteBlob
  cases hk : providerKey config key with
  | error e =>
    exact Unsettled.settles
      ⟨rfl, fun agrees he => by cases he⟩ fun events h => h
  | ok object =>
    have hplace : placeOf config key = .ok (config.bucket, object) := placeOf_eq_ok.mpr ⟨hk, rfl⟩
    refine ⟨.delete hplace, fun reply => ?_⟩
    cases reply with
    | error text =>
      exact Unsettled.settles
        ⟨rfl, fun agrees he => by cases he⟩ fun events h => h
    | ok _ =>
      refine settles_of_settled ⟨config, .deleteBlob key⟩ rfl rfl fun e he => ?_
      exact ⟨e, ⟨_, hplace, he⟩, rfl⟩

/-- How a call goes on after a reading request that failed. -/
theorem missing_follows {α : Type} {post : S3Phase → α → Prop} {upload : Option Upload}
    {text : Str} {onMissing onOther : α}
    (hmissing : post ⟨call, upload, .settled fun e => e = .saw place none⟩ onMissing)
    (hother : post ⟨call, upload, .spent⟩ onOther) :
    Follows s3Discipline post ⟨call, upload, missingStage (some place) text⟩
      (if isMissingError text then .ret onMissing else .ret onOther) := by
  by_cases hm : isMissingError text
  · simp only [if_pos hm, missingStage]
    simpa using hmissing
  · simp only [if_neg hm, missingStage]
    exact hother

/-- The phase after a reading request that failed otherwise. -/
theorem spent_unsettled {upload : Option Upload} : Unsettled call ⟨call, upload, .spent⟩ :=
  ⟨rfl, fun agrees he => by cases he⟩

theorem providerKey_ne_missing {config : S3StorageConfig} {key key' : Str} {e : StorageError}
    (h : providerKey config key = .error e) : e ≠ .missingBlob key' := by
  have hvalidate : ∀ {k : Str} {e : StorageError}, validateBlobKey k = .error e →
      e ≠ .missingBlob key' := by
    intro k e hk
    by_cases hvalid : ValidKey k
    · rw [validateBlobKey_eq_ok.mpr hvalid] at hk
      cases hk
    · rw [validateBlobKey_error hvalid] at hk
      rw [← Except.error.inj hk]
      simp
  unfold providerKey at h
  cases hkey : validateBlobKey key with
  | error e' =>
    rw [hkey] at h
    exact Except.error.inj h ▸ hvalidate hkey
  | ok _ =>
    rw [hkey] at h
    cases hbegins : config.keyPrefix with
    | none =>
      rw [hbegins] at h
      cases h
    | some raw =>
      simp only [hbegins] at h
      split_ifs at h with hempty
      cases hpre : validateBlobKey (trimMatches '/' raw) with
      | error e' =>
        rw [hpre] at h
        exact Except.error.inj h ▸ hvalidate hpre
      | ok _ =>
        rw [hpre] at h
        cases h

/-- The metadata of a response tells the length that it reports. -/
theorem describes_reported {length : Option ℤ} {content : Bytes}
    (h : ∀ n ∈ length, n = content.length) (key : Str) (etag : Option Str) :
    Describes (some ⟨key, reportedSize length, none, etag, none⟩) content := by
  intro m hm n hn
  obtain rfl := Option.some.inj hm
  cases length with
  | none => cases hn
  | some size =>
    have hsize : size = content.length := h size rfl
    subst hsize
    simpa [reportedSize, eq_comm] using hn

/-- A body read to its end gives the content. -/
theorem body_of_streams {what : String} {key : Str} {hint : Option ℕ}
    {body : List (Except Str Bytes)} {content : Bytes} (h : Streams body content) {b : Bytes}
    (hb : (⟨bodyStream what key body, hint⟩ : StorageByteStream).body = .ok b) : b = content := by
  obtain ⟨chunks, hbody, hchunks⟩ := SizeHints.delivers_of_bodyStream hb
  rw [hchunks, List.nil_append, h chunks hbody]

/-- The calls that read the bytes under a key. -/
def S3Op.ReadsBody (op : S3Op) (key : Str) : Prop :=
  op = .getBlob key ∨ ∃ start stop, op = .getBlobRange key start stop

theorem S3Op.ReadsBody.missing {op : S3Op} {key : Str} (h : op.ReadsBody key)
    {config : S3StorageConfig} (hplace : placeOf config key = .ok place) :
    Explains D config op (.read (.error (.missingBlob key))) [.saw place none] := by
  rcases h with rfl | ⟨start, stop, rfl⟩
  all_goals
    rw [Explains, if_pos rfl]
    exact ⟨place, hplace, rfl⟩

theorem S3Op.ReadsBody.other {op : S3Op} {key : Str} (h : op.ReadsBody key)
    {config : S3StorageConfig} {e : StorageError} (hne : e ≠ .missingBlob key)
    {events : List BlobChange} (hevents : Attempted config op events) :
    Explains D config op (.read (.error e)) events := by
  rcases h with rfl | ⟨start, stop, rfl⟩
  all_goals
    rw [Explains, if_neg hne]
    rcases hevents with rfl | ⟨change, hmakes, _⟩
    · rfl
    · cases hmakes

theorem getBlob_settles (config : S3StorageConfig) (key : Str) :
    Follows s3Discipline (fun q result => Settles D q (.read result))
      ⟨⟨config, .getBlob key⟩, none, .idle⟩ (S3.getBlob config key) := by
  have hreads : (S3Op.getBlob key).ReadsBody key := Or.inl rfl
  unfold S3.getBlob
  cases hk : providerKey config key with
  | error e =>
    exact Unsettled.settles
      ⟨rfl, fun agrees he => by cases he⟩ fun _ => hreads.other (providerKey_ne_missing hk)
  | ok object =>
    have hplace : placeOf config key = .ok (config.bucket, object) := placeOf_eq_ok.mpr ⟨hk, rfl⟩
    refine ⟨.get hplace, fun reply => ?_⟩
    cases reply with
    | error text =>
      refine missing_follows ?_ (spent_unsettled.settles fun _ => hreads.other (by simp [mapS3Error]))
      refine settles_of_settled ⟨config, .getBlob key⟩ rfl rfl fun e he => ?_
      rw [he]
      exact hreads.missing hplace
    | ok output =>
      refine settles_of_settled ⟨config, .getBlob key⟩ rfl rfl fun e he => ?_
      obtain ⟨content, rfl, hstreams, hlength⟩ := he
      exact ⟨content, ⟨_, hplace, rfl⟩, describes_reported hlength key output.eTag,
        fun b hb => body_of_streams hstreams hb⟩

/-- After a request for metadata. -/
def Headed (call : Invocation) (q : S3Phase) :
    Except StorageError (Option BlobMetadata) → Prop
  | .ok metadata => q.call = call ∧ ∃ agrees, q.stage = .settled agrees ∧ ∀ e, agrees e →
      ∃ content, Saw call.config call.op.key content [e] ∧ metadata.isSome = content.isSome ∧
        ∀ b ∈ content, Describes metadata b
  | .error e => Unsettled call q ∧ ∀ key, e ≠ .missingBlob key

theorem headBlob_follows (call : Invocation) (hop : call.op.asksHead = true) :
    Follows s3Discipline (Headed call) ⟨call, none, .idle⟩
      (S3.headBlob call.config call.op.key) := by
  obtain ⟨config, op⟩ := call
  unfold S3.headBlob
  cases hk : providerKey config op.key with
  | error e =>
    exact ⟨⟨rfl, fun agrees he => by cases he⟩, fun key => providerKey_ne_missing hk⟩
  | ok object =>
    have hplace : placeOf config op.key = .ok (config.bucket, object) :=
      placeOf_eq_ok.mpr ⟨hk, rfl⟩
    refine ⟨.head hop hplace, fun reply => ?_⟩
    cases reply with
    | error text =>
      refine missing_follows ⟨rfl, _, rfl, fun e he => ?_⟩
        ⟨spent_unsettled, fun key => by simp [mapS3Error]⟩
      exact ⟨none, ⟨_, hplace, by rw [he]⟩, rfl, by simp⟩
    | ok output =>
      refine ⟨rfl, _, rfl, fun e he => ?_⟩
      obtain ⟨content, rfl, hlength⟩ := he
      refine ⟨some content, ⟨_, hplace, rfl⟩, rfl, fun b hb => ?_⟩
      rw [← Option.some.inj hb]
      exact describes_reported hlength op.key output.eTag

theorem headBlob_settles (config : S3StorageConfig) (key : Str) :
    Follows s3Discipline (fun q result => Settles D q (.described result))
      ⟨⟨config, .headBlob key⟩, none, .idle⟩ (S3.headBlob config key) := by
  refine (headBlob_follows ⟨config, .headBlob key⟩ rfl).mono fun q result h => ?_
  cases result with
  | error e =>
    refine h.1.settles fun events hevents => ?_
    rcases hevents with rfl | ⟨change, hmakes, _⟩
    · rfl
    · cases hmakes
  | ok metadata =>
    obtain ⟨hcall, agrees, hstage, hagrees⟩ := h
    refine settles_of_settled _ hcall hstage fun e he => ?_
    obtain ⟨content, hsaw, hsome, hdescribes⟩ := hagrees e he
    exact ⟨content, hsaw, hsome, hdescribes⟩

theorem blobExists_settles (config : S3StorageConfig) (key : Str) :
    Follows s3Discipline (fun q result => Settles D q (.found result))
      ⟨⟨config, .blobExists key⟩, none, .idle⟩ (S3.blobExists config key) := by
  refine (headBlob_follows ⟨config, .blobExists key⟩ rfl).bind fun q result h => ?_
  cases result with
  | error e =>
    refine h.1.settles fun events hevents => ?_
    rcases hevents with rfl | ⟨change, hmakes, _⟩
    · rfl
    · cases hmakes
  | ok metadata =>
    obtain ⟨hcall, agrees, hstage, hagrees⟩ := h
    refine settles_of_settled _ hcall hstage fun e he => ?_
    obtain ⟨content, hsaw, hsome, _⟩ := hagrees e he
    exact ⟨content, hsaw, hsome⟩

theorem getBlobRange_settles (config : S3StorageConfig) (key : Str) (start stop : ℕ) :
    Follows s3Discipline (fun q result => Settles D q (.read result))
      ⟨⟨config, .getBlobRange key start stop⟩, none, .idle⟩
      (S3.getBlobRange config key start stop) := by
  have hreads : (S3Op.getBlobRange key start stop).ReadsBody key := Or.inr ⟨start, stop, rfl⟩
  have hidle : Unsettled ⟨config, .getBlobRange key start stop⟩
      ⟨⟨config, .getBlobRange key start stop⟩, none, .idle⟩ :=
    ⟨rfl, fun agrees he => by cases he⟩
  unfold S3.getBlobRange
  by_cases hlt : stop < start
  · rw [if_pos hlt]
    exact hidle.settles fun _ => hreads.other (by simp)
  by_cases heq : start = stop
  · rw [if_neg hlt, if_pos heq]
    refine (headBlob_follows ⟨config, .getBlobRange key start stop⟩
      (by simp [S3Op.asksHead, heq])).bind fun q result h => ?_
    cases result with
    | error e => exact h.1.settles fun _ => hreads.other (h.2 key)
    | ok metadata =>
      obtain ⟨hcall, agrees, hstage, hagrees⟩ := h
      refine settles_of_settled _ hcall hstage fun e he => ?_
      obtain ⟨content, hsaw, hsome, hdescribes⟩ := hagrees e he
      rw [Explains, if_pos heq]
      exact ⟨content, hsaw, hsome, hdescribes, rfl⟩
  · rw [if_neg hlt, if_neg heq]
    cases hk : providerKey config key with
    | error e => exact hidle.settles fun _ => hreads.other (providerKey_ne_missing hk)
    | ok object =>
      have hplace : placeOf config key = .ok (config.bucket, object) :=
        placeOf_eq_ok.mpr ⟨hk, rfl⟩
      have hrange : start < stop := by omega
      refine ⟨.range hplace hrange, fun reply => ?_⟩
      cases reply with
      | error text =>
        refine missing_follows ?_
          (spent_unsettled.settles fun _ => hreads.other (by simp [mapS3Error]))
        refine settles_of_settled ⟨config, .getBlobRange key start stop⟩ rfl rfl
          fun e he => ?_
        rw [he]
        exact hreads.missing hplace
      | ok output =>
        refine settles_of_settled ⟨config, .getBlobRange key start stop⟩ rfl rfl
          fun e he => ?_
        obtain ⟨content, rfl, hholds⟩ := he
        obtain ⟨hstreams, hlength⟩ := hholds start stop hrange rfl
        rw [Explains, if_neg heq]
        exact ⟨hrange, content, ⟨_, hplace, rfl⟩, describes_reported hlength key output.eTag,
          fun b hb => body_of_streams hstreams hb⟩

theorem copyBlob_settles (config : S3StorageConfig) (src dst : Str)
    (hplain : (⟨config, .copyBlob src dst⟩ : Invocation).Plain) :
    Follows s3Discipline (fun q result => Settles D q (.done result))
      ⟨⟨config, .copyBlob src dst⟩, none, .idle⟩ (S3.copyBlob config src dst) := by
  have hother : ∀ {e : StorageError}, e ≠ .missingBlob src → ∀ events,
      Attempted config (.copyBlob src dst) events →
        Explains D config (.copyBlob src dst) (.done (.error e)) events := by
    intro e hne events hevents
    rw [Explains, if_neg hne]
    exact hevents
  have hidle : Unsettled ⟨config, .copyBlob src dst⟩
      ⟨⟨config, .copyBlob src dst⟩, none, .idle⟩ := ⟨rfl, fun agrees he => by cases he⟩
  unfold S3.copyBlob
  cases hsrc : providerKey config src with
  | error e => exact hidle.settles (hother (providerKey_ne_missing hsrc))
  | ok fromKey =>
    cases hdst : providerKey config dst with
    | error e => exact hidle.settles (hother (providerKey_ne_missing hdst))
    | ok toKey =>
      have hfrom : placeOf config src = .ok (config.bucket, fromKey) :=
        placeOf_eq_ok.mpr ⟨hsrc, rfl⟩
      have hto : placeOf config dst = .ok (config.bucket, toKey) := placeOf_eq_ok.mpr ⟨hdst, rfl⟩
      have hreads : S3Call.reads (.copyObject config.bucket toKey
          (config.bucket ++ '/' :: fromKey)) = some (config.bucket, fromKey) := by
        rw [S3Call.reads, readCopySource_eq_self_iff.mpr (hplain src dst rfl _ hfrom)]
      refine ⟨.copy hfrom hto (hplain src dst rfl _ hfrom), fun reply => ?_⟩
      cases reply with
      | ok _ =>
        refine settles_of_settled ⟨config, .copyBlob src dst⟩ rfl rfl fun e he => ?_
        obtain ⟨place, hplace, he⟩ := he
        rw [hreads, Option.mem_some] at hplace
        exact ⟨e, ⟨_, _, hfrom, hto, by rw [he, hplace]⟩, rfl⟩
      | error text =>
        have hphase : S3Phase.advance ⟨⟨config, .copyBlob src dst⟩, none, .idle⟩
            (.copyObject config.bucket toKey (config.bucket ++ '/' :: fromKey)) (.error text) =
            ⟨⟨config, .copyBlob src dst⟩, none,
              missingStage (some (config.bucket, fromKey)) text⟩ := by
          rw [← hreads]
          rfl
        refine follows_of_eq hphase (missing_follows ?_ ?_)
        · refine settles_of_settled ⟨config, .copyBlob src dst⟩ rfl rfl fun e he => ?_
          rw [he, Explains, if_pos rfl]
          exact ⟨_, hfrom, rfl⟩
        · exact spent_unsettled.settles (hother (by simp [mapS3Error]))

/-- Every call keeps to its phases, and its event explains what it returns. -/
theorem invocation_follows (D : Digest) (call : Invocation) (hplain : call.Plain) :
    Follows s3Discipline (Settles D) ⟨call, none, .idle⟩ (call.prog D) := by
  obtain ⟨config, op⟩ := call
  cases op with
  | putBlob key body options => exact (putBlob_settles config key).bind fun _ _ h => h
  | putBlobIfNotExists key body options =>
    exact (putBlobIfNotExists_settles config key).bind fun _ _ h => h
  | getBlob key => exact (getBlob_settles config key).bind fun _ _ h => h
  | getBlobRange key start stop =>
    exact (getBlobRange_settles config key start stop).bind fun _ _ h => h
  | headBlob key => exact (headBlob_settles config key).bind fun _ _ h => h
  | blobExists key => exact (blobExists_settles config key).bind fun _ _ h => h
  | copyBlob src dst => exact (copyBlob_settles config src dst hplain).bind fun _ _ h => h
  | deleteBlob key => exact (deleteBlob_settles config key).bind fun _ _ h => h

end Phases

end GraphqlOrmStorage.S3
