import GraphqlOrmStorage.S3Parts
import GraphqlOrmStorage.S3Copy
import GraphqlOrmStorage.Ranges

/-!
# The server behind the S3 backend

What the requests of the backend do to the objects of a server and to the multipart
uploads that are open there. A request is served, and then its reply may still be
lost; or it is refused and changes nothing. The text of an error tells a missing
object and a failed condition from everything else, and tells the truth.
-/
namespace GraphqlOrmStorage.S3

open Text Program Prog

/-- A bucket, and the key of an object in it. -/
abbrev Place := Str × Str

/-- What the server knows of a multipart upload; identifiers are not issued twice. -/
inductive UploadStatus where
  | unused
  | receiving (parts : ℤ → Option Bytes)
  | closed

structure Store where
  objects : Place → Option Bytes
  uploads : Upload → UploadStatus

namespace Store

/-- The store with another content at a place. -/
def put (s : Store) (place : Place) (content : Option Bytes) : Store :=
  { s with objects := Function.update s.objects place content }

/-- The store with another status of an upload. -/
def track (s : Store) (u : Upload) (status : UploadStatus) : Store :=
  { s with uploads := Function.update s.uploads u status }

@[simp] theorem put_objects (s : Store) (place : Place) (content : Option Bytes) :
    (s.put place content).objects = Function.update s.objects place content := rfl

@[simp] theorem put_uploads (s : Store) (place : Place) (content : Option Bytes) :
    (s.put place content).uploads = s.uploads := rfl

@[simp] theorem track_objects (s : Store) (u : Upload) (status : UploadStatus) :
    (s.track u status).objects = s.objects := rfl

@[simp] theorem track_uploads (s : Store) (u : Upload) (status : UploadStatus) :
    (s.track u status).uploads = Function.update s.uploads u status := rfl

end Store

/-! ### Uploads in parts -/

/-- The listed parts put together, if each of them was received. -/
def assembled (parts : ℤ → Option Bytes) : List CompletedPart → Option Bytes
  | [] => some []
  | p :: rest =>
    match parts p.partNumber, assembled parts rest with
    | some part, some content => some (part ++ content)
    | _, _ => none

/-- The numbers of the listed parts ascend. -/
def Ascending (parts : List CompletedPart) : Prop :=
  parts.Pairwise fun p p' => p.partNumber < p'.partNumber

instance (parts : List CompletedPart) : Decidable (Ascending parts) :=
  inferInstanceAs (Decidable (parts.Pairwise fun p p' => p.partNumber < p'.partNumber))

/-- The bytes of some parts. -/
def partBytes (sent : List SentPart) : Bytes := (sent.map Prod.fst).flatten

@[simp] theorem partBytes_nil : partBytes [] = [] := rfl

@[simp] theorem partBytes_append (sent sent' : List SentPart) :
    partBytes (sent ++ sent') = partBytes sent ++ partBytes sent' := by
  simp [partBytes]

@[simp] theorem partBytes_singleton (part : Bytes) (eTag : Option Str) :
    partBytes [(part, eTag)] = part := by
  simp [partBytes]

/-- What the server holds after some parts, numbered from `first` on. A number that comes
again replaces the part it had. -/
def receivedFrom : ℕ → List SentPart → (ℤ → Option Bytes) → ℤ → Option Bytes
  | _, [], parts => parts
  | first, (part, _) :: sent, parts =>
    receivedFrom (first + 1) sent (Function.update parts (partNumber first) (some part))

def received (sent : List SentPart) : ℤ → Option Bytes := receivedFrom 0 sent fun _ => none

theorem receivedFrom_append (first : ℕ) (sent : List SentPart) (part : Bytes) (eTag : Option Str)
    (parts : ℤ → Option Bytes) : receivedFrom first (sent ++ [(part, eTag)]) parts =
      Function.update (receivedFrom first sent parts) (partNumber (first + sent.length))
        (some part) := by
  induction sent generalizing first parts with
  | nil => rfl
  | cons p sent ih =>
    rw [List.cons_append, receivedFrom, ih, receivedFrom, List.length_cons]
    rw [show first + 1 + sent.length = first + (sent.length + 1) by omega]

theorem received_append (sent : List SentPart) (part : Bytes) (eTag : Option Str) :
    received (sent ++ [(part, eTag)]) =
      Function.update (received sent) (partNumber sent.length) (some part) := by
  rw [received, receivedFrom_append, Nat.zero_add]
  rfl

/-- Parts with other numbers leave a part alone. -/
theorem receivedFrom_other (first : ℕ) (sent : List SentPart) (parts : ℤ → Option Bytes) {n : ℤ}
    (h : ∀ p ∈ completedParts partNumber first sent, n < p.partNumber) :
    receivedFrom first sent parts n = parts n := by
  induction sent generalizing first parts with
  | nil => rfl
  | cons p sent ih =>
    simp only [completedParts, List.mem_cons, forall_eq_or_imp] at h
    rw [receivedFrom, ih _ _ h.2, Function.update_of_ne (ne_of_lt h.1)]

/-- A completion that the server can serve puts together what was sent. -/
theorem assembled_receivedFrom (first : ℕ) (sent : List SentPart) (parts : ℤ → Option Bytes)
    (h : Ascending (completedParts partNumber first sent)) :
    assembled (receivedFrom first sent parts) (completedParts partNumber first sent) =
      some (partBytes sent) := by
  induction sent generalizing first parts with
  | nil => rfl
  | cons p sent ih =>
    obtain ⟨part, eTag⟩ := p
    obtain ⟨hfirst, hrest⟩ := List.pairwise_cons.mp h
    simp only [completedParts, assembled, receivedFrom, ih _ _ hrest,
      receivedFrom_other _ _ _ hfirst, Function.update_self]
    rfl

/-! ### Served requests -/

/-- Without an error the reads of a body return this content. -/
def Streams (body : List (Except Str Bytes)) (content : Bytes) : Prop :=
  ∀ chunks : List Bytes, body = chunks.map .ok → chunks.flatten = content

/-- A response about some content: its bytes, and its length where that is told. -/
def GetObjectOutput.Holds (output : GetObjectOutput) (content : Bytes) : Prop :=
  Streams output.body content ∧ ∀ n ∈ output.contentLength, n = content.length

/-- `If-None-Match: *`. -/
def Condition (s : Store) (place : Place) (ifNoneMatch : Option Str) : Prop :=
  ifNoneMatch ≠ none → s.objects place = none

/-- The request is served: what it replies and what it does. -/
def Served (s : Store) : (c : S3Call) → S3Call.Reply c → Store → Prop
  | .putObject bucket key body _ ifNoneMatch, reply, s' =>
    reply = .ok () ∧ Condition s (bucket, key) ifNoneMatch ∧ s' = s.put (bucket, key) (some body)
  | .createMultipartUpload bucket key _, reply, s' => ∃ uploadId told,
    reply = .ok told ∧ (∀ t ∈ told, t = uploadId) ∧ s.uploads ⟨bucket, key, uploadId⟩ = .unused ∧
      s' = s.track ⟨bucket, key, uploadId⟩ (.receiving fun _ => none)
  | .uploadPart bucket key uploadId partNumber body, reply, s' => ∃ eTag parts,
    reply = .ok eTag ∧ s.uploads ⟨bucket, key, uploadId⟩ = .receiving parts ∧
      s' = s.track ⟨bucket, key, uploadId⟩
        (.receiving (Function.update parts partNumber (some body)))
  | .completeMultipartUpload bucket key uploadId listed ifNoneMatch, reply, s' => ∃ parts content,
    reply = .ok () ∧ s.uploads ⟨bucket, key, uploadId⟩ = .receiving parts ∧ Ascending listed ∧
      assembled parts listed = some content ∧ Condition s (bucket, key) ifNoneMatch ∧
      s' = (s.track ⟨bucket, key, uploadId⟩ .closed).put (bucket, key) (some content)
  | .abortMultipartUpload bucket key uploadId, reply, s' =>
    reply = .ok () ∧ s' = s.track ⟨bucket, key, uploadId⟩ .closed
  | .getObject bucket key none, reply, s' => ∃ content output,
    reply = .ok output ∧ s.objects (bucket, key) = some content ∧ output.Holds content ∧ s' = s
  | .getObject bucket key (some range), reply, s' => ∃ content output,
    reply = .ok output ∧ s.objects (bucket, key) = some content ∧ s' = s ∧
      ∀ start stop, start < stop → range = rangeHeader start stop →
        output.Holds (Ranges.slice content start stop)
  | .headObject bucket key, reply, s' => ∃ content output,
    reply = .ok output ∧ s.objects (bucket, key) = some content ∧
      (∀ n ∈ output.contentLength, n = content.length) ∧ s' = s
  | .copyObject bucket key copySource, reply, s' => ∃ source content,
    reply = .ok () ∧ readCopySource copySource = some source ∧
      (source.version = none → s.objects (source.bucket, source.key) = some content) ∧
      s' = s.put (bucket, key) (some content)
  | .deleteObject bucket key, reply, s' => reply = .ok () ∧ s' = s.put (bucket, key) none

/-- The reply of a request that failed with this text. -/
def failed (text : Str) : (c : S3Call) → S3Call.Reply c
  | .putObject .. | .completeMultipartUpload .. | .abortMultipartUpload .. | .copyObject ..
  | .deleteObject .. => (.error text : Except Str Unit)
  | .createMultipartUpload .. | .uploadPart .. => (.error text : Except Str (Option Str))
  | .getObject .. => (.error text : Except Str GetObjectOutput)
  | .headObject .. => (.error text : Except Str HeadObjectOutput)

/-- The text says that a condition of the request failed. -/
def saysCondition (text : Str) : Bool := isPreconditionError (mapS3Error text)

/-- The place that a request reads, where that is a place as such. -/
def S3Call.reads : S3Call → Option Place
  | .getObject bucket key _ | .headObject bucket key => some (bucket, key)
  | .copyObject _ _ copySource => match readCopySource copySource with
    | some ⟨bucket, key, none⟩ => some (bucket, key)
    | _ => none
  | _ => none

/-- The place that a conditional request writes. -/
def S3Call.creates : S3Call → Option Place
  | .putObject bucket key _ _ (some _) | .completeMultipartUpload bucket key _ _ (some _) =>
    some (bucket, key)
  | _ => none

/-- The text of a refusal tells the truth about what the request reads or creates. -/
def Truthful (s : Store) (c : S3Call) (text : Str) : Prop :=
  (isMissingError text = true → ∀ place ∈ c.reads, s.objects place = none) ∧
    (saysCondition text = true → ∀ place ∈ c.creates, s.objects place ≠ none)

/-- The ways in which a request can end. -/
inductive Answers (s : Store) (c : S3Call) : S3Call.Reply c → Store → Prop
  | served {reply : S3Call.Reply c} {s' : Store} : Served s c reply s' → Answers s c reply s'
  | lost {reply : S3Call.Reply c} {s' : Store} (text : Str) : Served s c reply s' →
    isMissingError text = false → saysCondition text = false → Answers s c (failed text c) s'
  | refused (text : Str) : Truthful s c text → Answers s c (failed text c) s

/-! ### Uploads that a request does not name -/

/-- The upload that a request names. -/
def S3Call.upload : S3Call → Option Upload
  | .uploadPart bucket key uploadId _ _ | .completeMultipartUpload bucket key uploadId _ _
  | .abortMultipartUpload bucket key uploadId => some ⟨bucket, key, uploadId⟩
  | _ => none

variable {s s' : Store} {c : S3Call} {reply : S3Call.Reply c} {u : Upload}

theorem Served.uploads_other (h : Served s c reply s') (hc : c.upload ≠ some u)
    (hu : s.uploads u ≠ .unused) : s'.uploads u = s.uploads u := by
  cases c with
  | putObject bucket key body contentType ifNoneMatch => rw [h.2.2]; rfl
  | createMultipartUpload bucket key contentType =>
    obtain ⟨uploadId, told, _, _, hunused, hs⟩ := h
    rw [hs, Store.track_uploads, Function.update_of_ne]
    rintro rfl
    exact hu hunused
  | uploadPart bucket key uploadId partNumber body =>
    obtain ⟨eTag, parts, _, _, hs⟩ := h
    rw [hs, Store.track_uploads, Function.update_of_ne]
    exact fun he => hc (congrArg some he.symm)
  | completeMultipartUpload bucket key uploadId listed ifNoneMatch =>
    obtain ⟨parts, content, _, _, _, _, _, hs⟩ := h
    rw [hs, Store.put_uploads, Store.track_uploads, Function.update_of_ne]
    exact fun he => hc (congrArg some he.symm)
  | abortMultipartUpload bucket key uploadId =>
    rw [h.2, Store.track_uploads, Function.update_of_ne]
    exact fun he => hc (congrArg some he.symm)
  | getObject bucket key range =>
    cases range with
    | none =>
      obtain ⟨content, output, _, _, _, hs⟩ := h
      rw [hs]
    | some range =>
      obtain ⟨content, output, _, _, hs, _⟩ := h
      rw [hs]
  | headObject bucket key =>
    obtain ⟨content, output, _, _, _, hs⟩ := h
    rw [hs]
  | copyObject bucket key copySource =>
    obtain ⟨source, content, _, _, _, hs⟩ := h
    rw [hs]
    rfl
  | deleteObject bucket key => rw [h.2]; rfl

theorem Served.uploads_used (h : Served s c reply s') (hu : s.uploads u ≠ .unused) :
    s'.uploads u ≠ .unused := by
  by_cases hc : c.upload = some u
  · cases c with
    | uploadPart bucket key uploadId partNumber body =>
      obtain ⟨eTag, parts, _, _, hs⟩ := h
      rw [hs, Store.track_uploads, ← Option.some.inj hc, Function.update_self]
      simp
    | completeMultipartUpload bucket key uploadId listed ifNoneMatch =>
      obtain ⟨parts, content, _, _, _, _, _, hs⟩ := h
      rw [hs, Store.put_uploads, Store.track_uploads, ← Option.some.inj hc, Function.update_self]
      simp
    | abortMultipartUpload bucket key uploadId =>
      rw [h.2, Store.track_uploads, ← Option.some.inj hc, Function.update_self]
      simp
    | putObject | createMultipartUpload | getObject | headObject | copyObject | deleteObject =>
      cases hc
  · rwa [h.uploads_other hc hu]

theorem Answers.uploads_other (h : Answers s c reply s') (hc : c.upload ≠ some u)
    (hu : s.uploads u ≠ .unused) : s'.uploads u = s.uploads u := by
  cases h with
  | served h => exact h.uploads_other hc hu
  | lost text h _ _ => exact h.uploads_other hc hu
  | refused text _ => rfl

theorem Answers.uploads_used (h : Answers s c reply s') (hu : s.uploads u ≠ .unused) :
    s'.uploads u ≠ .unused := by
  cases h with
  | served h => exact h.uploads_used hu
  | lost text h _ _ => exact h.uploads_used hu
  | refused text _ => exact hu

end GraphqlOrmStorage.S3
