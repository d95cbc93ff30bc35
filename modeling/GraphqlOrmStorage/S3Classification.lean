import GraphqlOrmStorage.S3Blob

/-!
# Errors told apart by their text

The S3 backend searches the debug text of an error for some twenty patterns. A
server may quote the key in its response, and then the key is searched as well.
An occurrence of a pattern lies in what the server wrote, or it has letters of
the key in it; only occurrences of the second kind depend on the key, and keys
that are themselves patterns, or complete one, change what a failure is taken for.
-/
namespace GraphqlOrmStorage.S3

open Text Program Prog

/-! ### Texts that quote a key -/

/-- The text that the server writes around and between the occurrences of the key. -/
def render (pieces : List Str) (key : Str) : Str := key.intercalate pieces

/-- An occurrence of the pattern has letters of an occurrence of the key in it. -/
def KeyForms (pattern : Str) (pieces : List Str) (key : Str) : Prop :=
  ∃ front back u v, pieces = front ++ back ∧ front ≠ [] ∧ back ≠ [] ∧
    render pieces key = u ++ pattern ++ v ∧
    u.length < (render front key).length + key.length ∧
    (render front key).length < u.length + pattern.length

section Occurrences

variable {pattern key : Str} {pieces : List Str}

@[simp] theorem render_singleton (q key : Str) : render [q] key = q :=
  List.intercalate_singleton

theorem render_cons_cons (q q' : Str) (rest : List Str) (key : Str) :
    render (q :: q' :: rest) key = q ++ (key ++ render (q' :: rest) key) := by
  rw [render, List.intercalate_cons_cons, List.append_assoc]
  rfl

theorem render_cons {q : Str} {rest : List Str} (hrest : rest ≠ []) (key : Str) :
    render (q :: rest) key = q ++ (key ++ render rest key) := by
  cases rest with
  | nil => exact absurd rfl hrest
  | cons q' rest => exact render_cons_cons q q' rest key

/-- What one piece has in it, the text has in it. -/
theorem infix_render {q : Str} (hq : q ∈ pieces) (key : Str) : q <:+: render pieces key := by
  induction pieces with
  | nil => cases hq
  | cons p rest ih =>
    by_cases hrest : rest = []
    · subst hrest
      rw [List.mem_singleton.mp hq, render_singleton]
    · rw [render_cons hrest]
      cases List.mem_cons.mp hq with
      | inl hp => exact hp ▸ (List.prefix_append _ _).isInfix
      | inr hmem =>
        exact (ih hmem).trans
          ((List.suffix_append key _).isInfix.trans (List.suffix_append p _).isInfix)

/-- An occurrence in three texts one after another: in the first, touching the second, or in the
third. -/
theorem occurrence_cases {u v x k y : Str} (h : x ++ (k ++ y) = u ++ pattern ++ v) :
    pattern <:+: x ∨
      (u.length < x.length + k.length ∧ x.length < u.length + pattern.length) ∨
      ∃ u', u = x ++ k ++ u' ∧ y = u' ++ pattern ++ v := by
  by_cases hbefore : u.length + pattern.length ≤ x.length
  · have hbegins : u ++ pattern <+: x := by
      have hlen : (u ++ pattern).length ≤ x.length := by
        rw [List.length_append]
        exact hbefore
      exact List.prefix_of_prefix_length_le ⟨v, h.symm⟩ (List.prefix_append x _) hlen
    exact Or.inl ((List.suffix_append u pattern).isInfix.trans hbegins.isInfix)
  · by_cases hafter : x.length + k.length ≤ u.length
    · have hbegins : x ++ k <+: u := by
        have hlen : (x ++ k).length ≤ u.length := by
          rw [List.length_append]
          exact hafter
        refine List.prefix_of_prefix_length_le ⟨y, List.append_assoc x k y⟩ ?_ hlen
        exact ⟨pattern ++ v, by rw [h, List.append_assoc]⟩
      obtain ⟨u', hu⟩ := hbegins
      refine Or.inr (Or.inr ⟨u', hu.symm, ?_⟩)
      rw [← hu, ← List.append_assoc x k y, List.append_assoc (x ++ k), List.append_assoc (x ++ k)]
        at h
      rw [List.append_cancel_left h, List.append_assoc]
    · exact Or.inr (Or.inl ⟨by omega, by omega⟩)

/-- A pattern occurs in what the server wrote, or with letters of the key in it. -/
theorem infix_render_iff (hpattern : pattern ≠ []) : pattern <:+: render pieces key ↔
    (∃ q ∈ pieces, pattern <:+: q) ∨ KeyForms pattern pieces key := by
  constructor
  · induction pieces with
    | nil =>
      intro h
      exact absurd (List.infix_nil.mp h) hpattern
    | cons q rest ih =>
      intro h
      by_cases hrest : rest = []
      · subst hrest
        rw [render_singleton] at h
        exact Or.inl ⟨q, List.mem_singleton.mpr rfl, h⟩
      · obtain ⟨u, v, huv⟩ := h
        rw [render_cons hrest] at huv
        rcases occurrence_cases huv.symm with hin | ⟨hleft, hright⟩ | ⟨u', hu, htail⟩
        · exact Or.inl ⟨q, List.mem_cons_self, hin⟩
        · refine Or.inr ⟨[q], rest, u, v, rfl, by simp, hrest, ?_, ?_, ?_⟩
          · rw [render_cons hrest, huv]
          · rwa [render_singleton]
          · rwa [render_singleton]
        · rcases ih ⟨u', v, htail.symm⟩ with ⟨q', hq', hin⟩ | hforms
          · exact Or.inl ⟨q', List.mem_cons_of_mem q hq', hin⟩
          · obtain ⟨front, back, w, z, hsplit, hfront, hback, hrender, hleft, hright⟩ := hforms
            refine Or.inr ⟨q :: front, back, q ++ key ++ w, z, ?_, by simp, hback, ?_, ?_, ?_⟩
            · rw [hsplit, List.cons_append]
            · rw [render_cons hrest, hrender]
              simp only [List.append_assoc]
            · rw [render_cons hfront]
              simp only [List.length_append]
              omega
            · rw [render_cons hfront]
              simp only [List.length_append]
              omega
  · rintro (⟨q, hq, hin⟩ | ⟨front, back, u, v, -, -, -, hrender, -, -⟩)
    · exact hin.trans (infix_render hq key)
    · exact ⟨u, v, hrender.symm⟩

/-- A text before the first piece. -/
def prepend (text : Str) : List Str → List Str
  | [] => [text]
  | q :: rest => (text ++ q) :: rest

theorem render_prepend (text : Str) (pieces : List Str) (key : Str) :
    render (prepend text pieces) key = text ++ render pieces key := by
  match pieces with
  | [] => simp [prepend, render]
  | [q] => simp [prepend]
  | q :: q' :: rest => simp [prepend, render_cons_cons]

theorem render_map (f : Char → Char) (pieces : List Str) (key : Str) :
    render (pieces.map (List.map f)) (key.map f) = (render pieces key).map f := by
  induction pieces with
  | nil => rfl
  | cons q rest ih =>
    cases rest with
    | nil => simp
    | cons q' rest =>
      simp only [List.map_cons] at ih ⊢
      rw [render_cons_cons, render_cons_cons, ih]
      simp

end Occurrences

/-! ### A server that refuses -/

/-- Uploads are opened and parts are taken; every other request fails with the text. -/
def refusing (text : Str) : (c : S3Call) → Unit → S3Call.Reply c × Unit
  | .createMultipartUpload .., _ => (.ok (some "u".toList), ())
  | .uploadPart .., _ => (.ok none, ())
  | .putObject .., _ | .completeMultipartUpload .., _ | .abortMultipartUpload .., _
  | .copyObject .., _ | .deleteObject .., _ => (.error text, ())
  | .getObject .., _ => (.error text, ())
  | .headObject .., _ => (.error text, ())

/-- What a call returns when the server refuses. -/
def refused {α : Type} (text : Str) (p : S3M α) : α := (p.exec (refusing text) ()).1

section Refusing

variable {text : Str} {config : S3StorageConfig} {key : Str} {options : BlobPutOptions} {D : Digest}

@[simp] theorem refused_ret {α : Type} (a : α) : refused text (.ret a : S3M α) = a := rfl

@[simp] theorem refused_bind {α β : Type} (p : S3M α) (f : α → S3M β) :
    refused text (p.bind f) = refused text (f (refused text p)) := by
  simp only [refused, Program.Prog.exec_bind]

@[simp] theorem refused_call {α : Type} (c : S3Call) (k : S3Call.Reply c → S3M α) :
    refused text (.call c k) = refused text (k (refusing text c ()).1) := rfl

theorem providerKey_error {e : StorageError} (h : providerKey config key = .error e) :
    ∃ k, e = .invalidStorageKey k := by
  have hvalidate : ∀ k, validateBlobKey k = .error e → e = .invalidStorageKey k := by
    intro k hk
    by_cases hv : ValidKey k
    · rw [validateBlobKey_eq_ok.mpr hv] at hk
      cases hk
    · rw [validateBlobKey_error hv] at hk
      exact (Except.error.inj hk).symm
  unfold providerKey at h
  split at h
  · rename_i e' hkey
    cases h
    exact ⟨key, hvalidate key hkey⟩
  · split at h
    · cases h
    · rename_i raw _
      simp only at h
      split at h
      · cases h
      · split at h
        · rename_i e' hroot
          cases h
          exact ⟨_, hvalidate _ hroot⟩
        · cases h

/-- Whether valid keys can be encoded is a matter of the configuration. -/
theorem providerKey_ok_congr {key' : Str} (hkey : validateBlobKey key = .ok ())
    (hkey' : validateBlobKey key' = .ok ()) :
    (∃ object, providerKey config key = .ok object) ↔
      ∃ object, providerKey config key' = .ok object := by
  unfold providerKey
  rw [hkey, hkey']
  cases config.keyPrefix with
  | none => simp
  | some raw =>
    by_cases hroot : trimMatches '/' raw = []
    · simp [hroot]
    · cases hvalidate : validateBlobKey (trimMatches '/' raw) with
      | error e => simp [hroot, hvalidate]
      | ok _ => simp [hroot, hvalidate]

/-- `get_blob` reports a missing blob just when the text is taken for one. -/
theorem refused_getBlob : refused text (getBlob config key) = .error (.missingBlob key) ↔
    (∃ object, providerKey config key = .ok object) ∧ isMissingError text = true := by
  cases hkey : providerKey config key with
  | error e =>
    obtain ⟨k, he⟩ := providerKey_error hkey
    simp [getBlob, hkey, he]
  | ok object =>
    by_cases htext : isMissingError text = true
    · simp [getBlob, hkey, request, perform, refusing, htext]
    · simp [getBlob, hkey, request, perform, refusing, htext, mapS3Error]

/-- `head_blob` reports that there is no blob just when the text is taken for that. -/
theorem refused_headBlob : refused text (headBlob config key) = .ok none ↔
    (∃ object, providerKey config key = .ok object) ∧ isMissingError text = true := by
  cases hkey : providerKey config key with
  | error e => simp [headBlob, hkey]
  | ok object =>
    by_cases htext : isMissingError text = true
    · simp [headBlob, hkey, request, perform, refusing, htext]
    · simp [headBlob, hkey, request, perform, refusing, htext]

theorem refused_uploadFullParts (object : Str) (buffer : Bytes)
    (multipart : Option MultipartUploadState) : ∃ rest state,
    refused text (uploadFullParts config object options buffer multipart) = .ok (rest, state) := by
  induction hlength : buffer.length using Nat.strong_induction_on generalizing buffer multipart with
  | h n ih =>
    rw [uploadFullParts]
    by_cases hfull : multipartPartSize ≤ buffer.length
    · have hshorter : (buffer.drop multipartPartSize).length < n := by
        have hpos : 0 < multipartPartSize := by decide
        rw [List.length_drop]
        omega
      cases multipart with
      | none =>
        simpa [hfull, openUpload, createMultipartUpload, uploadPart, request, perform, refusing]
          using ih _ hshorter _ _ rfl
      | some state =>
        simpa [hfull, openUpload, uploadPart, request, perform, refusing]
          using ih _ hshorter _ _ rfl
    · exact ⟨buffer, multipart, by simp [hfull]⟩

/-- The loop ends without an error just when the body has none. -/
theorem refused_uploadChunks (object : Str) (items : List (Except StorageError Bytes))
    (p : UploadProgress D) :
    (∃ q, refused text (uploadChunks config object options items p) = .ok q) ↔
      firstError items = none := by
  induction items generalizing p with
  | nil => simp [uploadChunks, firstError]
  | cons item items ih =>
    cases item with
    | error e => simp [uploadChunks, firstError]
    | ok chunk =>
      have hfull : ∃ rest state, refused text (uploadFullParts config object options
          (p.buffer ++ chunk) p.multipart) = .ok (rest, state) :=
        refused_uploadFullParts object _ _
      obtain ⟨rest, state, hparts⟩ := hfull
      simp [uploadChunks, hparts, firstError, ih]

theorem refused_finishUpload (object : Str) (p : UploadProgress D) :
    refused text (finishUpload config object options true p) = .ok none ↔
      isPreconditionError (mapS3Error text) = true := by
  cases hopen : p.multipart with
  | none =>
    simp [finishUpload, hopen, putSingleBlob, request, perform, refusing, published]
  | some state =>
    by_cases hrest : p.buffer = []
    · simp [finishUpload, hopen, uploadLastPart, hrest, completeMultipartUpload, request,
        perform, refusing, published]
    · simp [finishUpload, hopen, uploadLastPart, hrest, uploadPart, completeMultipartUpload,
        request, perform, refusing, published]

/-- `put_blob_if_not_exists` reports an existing blob just when the text is taken for that. -/
theorem refused_putBlobIfNotExists (body : StorageByteStream) :
    refused text (putBlobIfNotExists D config key body options) = .ok none ↔
      (∃ object, providerKey config key = .ok object) ∧ firstError body.inner = none ∧
        isPreconditionError (mapS3Error text) = true := by
  cases hkey : providerKey config key with
  | error e => simp [putBlobIfNotExists, putBlobInner, hkey]
  | ok object =>
    have hchunks : (∃ q, refused text (uploadChunks config object options body.inner
        (⟨[], D.new, 0, none⟩ : UploadProgress D)) = .ok q) ↔ firstError body.inner = none :=
      refused_uploadChunks object body.inner _
    cases hloop : refused text (uploadChunks config object options body.inner
        (⟨[], D.new, 0, none⟩ : UploadProgress D)) with
    | error e =>
      have hitems : firstError body.inner ≠ none := by
        rw [hloop] at hchunks
        simpa using hchunks
      simp [putBlobIfNotExists, putBlobInner, hkey, hloop, hitems]
    | ok q =>
      have hitems : firstError body.inner = none := hchunks.mp ⟨q, hloop⟩
      simp [putBlobIfNotExists, putBlobInner, hkey, hloop, hitems, refused_finishUpload]

end Refusing


/-! ### Classification -/

/-- The patterns of `is_missing_error`. -/
def missingPatterns : List String :=
  ["NoSuchKey", "NotFound", "Not Found", "status: 404", "code: 404"]

/-- The patterns of `is_precondition_error`. -/
def preconditionPatterns : List String :=
  ["PreconditionFailed", "Precondition Failed", "status: 412", "code: 412"]

/-- The patterns of `is_retryable_s3_message`. -/
def retryablePatterns : List String :=
  ["timeout", "timed out", "dispatch", "connection", "throttl", "slowdown", "temporarily",
    "status: 5", "code: 5"]

/-- The text in which the pieces of a provider error are displayed. -/
def displayed (pieces : List Str) : List Str :=
  prepend ("storage provider error for ".toList ++ StorageBackend.s3.asStr ++ ": ".toList) pieces

/-- For two keys quoted in one text, the three searches answer alike, and so do the calls that
depend on them, whatever the configuration and the body. -/
structure SameAnswers (pieces : List Str) (key key' : Str) : Prop where
  missing : isMissingError (render pieces key) = isMissingError (render pieces key')
  precondition : isPreconditionError (mapS3Error (render pieces key)) =
    isPreconditionError (mapS3Error (render pieces key'))
  retryable : (mapS3Error (render pieces key)).isRetryable =
    (mapS3Error (render pieces key')).isRetryable
  getBlob : ∀ config,
    refused (render pieces key) (S3.getBlob config key) = .error (.missingBlob key) ↔
      refused (render pieces key') (S3.getBlob config key') = .error (.missingBlob key')
  headBlob : ∀ config, refused (render pieces key) (S3.headBlob config key) = .ok none ↔
    refused (render pieces key') (S3.headBlob config key') = .ok none
  putBlobIfNotExists : ∀ D config body options,
    refused (render pieces key) (S3.putBlobIfNotExists D config key body options) = .ok none ↔
      refused (render pieces key') (S3.putBlobIfNotExists D config key' body options) = .ok none

/-- What the server wrote decides, or the two keys agree on whether they form some pattern. -/
def Decided (patterns : List String) (pieces : List Str) (key key' : Str) : Prop :=
  (∃ pattern ∈ patterns, ∃ q ∈ pieces, pattern.toList <:+: q) ∨
    ((∃ pattern ∈ patterns, KeyForms pattern.toList pieces key) ↔
      ∃ pattern ∈ patterns, KeyForms pattern.toList pieces key')

section Classification

variable {patterns : List String} {pieces : List Str} {key key' : Str}

theorem any_contains_iff (hpatterns : ∀ pattern ∈ patterns, pattern.toList ≠ []) :
    patterns.any (contains (render pieces key)) = true ↔
      (∃ pattern ∈ patterns, ∃ q ∈ pieces, pattern.toList <:+: q) ∨
        ∃ pattern ∈ patterns, KeyForms pattern.toList pieces key := by
  simp only [List.any_eq_true, contains, decide_eq_true_eq]
  constructor
  · rintro ⟨pattern, hmem, hin⟩
    cases (infix_render_iff (hpatterns pattern hmem)).mp hin with
    | inl h => exact Or.inl ⟨pattern, hmem, h⟩
    | inr h => exact Or.inr ⟨pattern, hmem, h⟩
  · rintro (⟨pattern, hmem, h⟩ | ⟨pattern, hmem, h⟩)
    · exact ⟨pattern, hmem, (infix_render_iff (hpatterns pattern hmem)).mpr (Or.inl h)⟩
    · exact ⟨pattern, hmem, (infix_render_iff (hpatterns pattern hmem)).mpr (Or.inr h)⟩

/-- A search for patterns answers alike for two keys just when it is decided without them. -/
theorem any_contains_eq_iff (hpatterns : ∀ pattern ∈ patterns, pattern.toList ≠ []) :
    patterns.any (contains (render pieces key)) = patterns.any (contains (render pieces key')) ↔
      Decided patterns pieces key key' := by
  rw [Bool.eq_iff_iff, any_contains_iff hpatterns, any_contains_iff hpatterns, Decided]
  by_cases hwritten : ∃ pattern ∈ patterns, ∃ q ∈ pieces, pattern.toList <:+: q
  · simp only [hwritten, true_or]
  · simp only [hwritten, false_or]

theorem isMissingError_eq (text : Str) :
    isMissingError text = missingPatterns.any (contains text) := by
  simp only [isMissingError, missingPatterns, List.any_cons, List.any_nil, Bool.or_false,
    Bool.or_assoc]

theorem isPreconditionError_mapS3Error (pieces : List Str) (key : Str) :
    isPreconditionError (mapS3Error (render pieces key)) =
      preconditionPatterns.any (contains (render (displayed pieces) key)) := by
  simp only [displayed, render_prepend, mapS3Error, isPreconditionError, preconditionPatterns,
    List.any_cons, List.any_nil, Bool.or_false, Bool.or_assoc]

theorem isRetryable_mapS3Error (pieces : List Str) (key : Str) :
    (mapS3Error (render pieces key)).isRetryable =
      retryablePatterns.any
        (contains (render (pieces.map toAsciiLowercase) (toAsciiLowercase key))) := by
  have hlower : render (pieces.map toAsciiLowercase) (toAsciiLowercase key) =
      toAsciiLowercase (render pieces key) := render_map _ pieces key
  rw [hlower]
  simp only [mapS3Error, StorageError.isRetryable, isRetryableS3Message, retryablePatterns,
    List.any_cons, List.any_nil, Bool.or_false, Bool.or_assoc]

end Classification

end GraphqlOrmStorage.S3
