import GraphqlOrmStorage.S3Isolation
import GraphqlOrmStorage.StoreContract

/-!
# The S3 backend as a blob store

Against a server that is prompt, one that serves every request it can and otherwise says
what is missing or in the way, each call of the backend does what the trait is for: what
it answers and leaves behind depends on the contents under the keys alone, on neither the
chunks of a body nor the parts it is sent in.
-/
namespace GraphqlOrmStorage.S3

open Text Program Program.Prog Contract
open Local (BlobMap concatBody)

/-! ### A prompt server -/

/-- The reply tells what it can. -/
def Informative : (c : S3Call) → S3Call.Reply c → Prop
  | .createMultipartUpload .., reply => ∃ uploadId, reply = .ok (some uploadId)
  | .getObject _ _ none, reply => ∃ (output : GetObjectOutput) (chunks : List Bytes),
      reply = .ok output ∧ output.body = chunks.map .ok
  | .headObject .., reply => ∃ output, reply = .ok output ∧ output.contentLength.isSome
  | _, _ => True

/-- Nothing that the request reads is missing, and nothing that it creates is there. -/
def Unopposed (s : Store) (c : S3Call) : Prop :=
  (∀ place ∈ c.reads, s.objects place ≠ none) ∧ ∀ place ∈ c.creates, s.objects place = none

/-- A request is served; or it is refused, with a text that says why if that is for what it
reads or creates. -/
inductive Prompt (s : Store) (c : S3Call) : S3Call.Reply c → Store → Prop
  | served {reply : S3Call.Reply c} {s' : Store} : Served s c reply s' → Informative c reply →
    Prompt s c reply s'
  | missing (text : Str) : (∃ place ∈ c.reads, s.objects place = none) →
    isMissingError text = true → Prompt s c (failed text c) s
  | conflict (text : Str) : (∃ place ∈ c.creates, s.objects place ≠ none) →
    saysCondition text = true → Prompt s c (failed text c) s
  | rejected (text : Str) : Unopposed s c → (∀ reply s', ¬ Served s c reply s') →
    Prompt s c (failed text c) s

/-- One chunk is a body of its bytes. -/
theorem streams_singleton (content : Bytes) : Streams [.ok content] content := by
  intro chunks hchunks
  have hone : [content] = chunks := List.map_injective_iff.mpr (fun _ _ => Except.ok.inj) hchunks
  simp [← hone]

/-- A request that can be served can be served with all that its reply can tell. -/
theorem Served.informative {s s' : Store} {c : S3Call} {reply : S3Call.Reply c}
    (h : Served s c reply s') : ∃ reply' s'', Served s c reply' s'' ∧ Informative c reply' := by
  cases c with
  | createMultipartUpload bucket key contentType =>
    obtain ⟨uploadId, told, _, _, hunused, hs⟩ := h
    exact ⟨.ok (some uploadId), s', ⟨uploadId, some uploadId, rfl, by simp, hunused, hs⟩,
      uploadId, rfl⟩
  | getObject bucket key range =>
    cases range with
    | none =>
      obtain ⟨content, output, _, hcontent, _, hs⟩ := h
      exact ⟨.ok ⟨none, none, [.ok content]⟩, s',
        ⟨content, _, rfl, hcontent, ⟨streams_singleton content, by simp⟩, hs⟩, _, [content], rfl,
        rfl⟩
    | some range => exact ⟨reply, s', h, trivial⟩
  | headObject bucket key =>
    obtain ⟨content, output, _, hcontent, _, hs⟩ := h
    exact ⟨.ok ⟨some content.length, none⟩, s', ⟨content, _, rfl, hcontent, by simp, hs⟩, _, rfl,
      rfl⟩
  | putObject | uploadPart | completeMultipartUpload | abortMultipartUpload | copyObject
  | deleteObject => exact ⟨reply, s', h, trivial⟩

/-- Every request is answered. -/
theorem prompt_total (s : Store) (c : S3Call) : ∃ reply s', Prompt s c reply s' := by
  by_cases hserved : ∃ reply s', Served s c reply s'
  · obtain ⟨reply, s', h⟩ := hserved
    obtain ⟨reply', s'', h', hinformative⟩ := h.informative
    exact ⟨reply', s'', .served h' hinformative⟩
  · by_cases hreads : ∀ place ∈ c.reads, s.objects place ≠ none
    · by_cases hcreates : ∀ place ∈ c.creates, s.objects place = none
      · exact ⟨_, s, .rejected [] ⟨hreads, hcreates⟩ fun reply s' h => hserved ⟨reply, s', h⟩⟩
      · push Not at hcreates
        exact ⟨_, s, .conflict "PreconditionFailed".toList hcreates (by decide)⟩
    · push Not at hreads
      exact ⟨_, s, .missing "NoSuchKey".toList hreads (by decide)⟩

/-- How a request ends. -/
theorem Prompt.ends {s s' : Store} {c : S3Call} {reply : S3Call.Reply c}
    (h : Prompt s c reply s') : (Served s c reply s' ∧ Informative c reply) ∨
      ∃ text, reply = failed text c ∧ s' = s ∧
        ((∃ place ∈ c.reads, s.objects place = none) ∧ isMissingError text = true ∨
          (∃ place ∈ c.creates, s.objects place ≠ none) ∧ saysCondition text = true ∨
          Unopposed s c ∧ ∀ reply s', ¬ Served s c reply s') := by
  cases h with
  | served h hinformative => exact Or.inl ⟨h, hinformative⟩
  | missing text h hsaid => exact Or.inr ⟨text, rfl, rfl, Or.inl ⟨h, hsaid⟩⟩
  | conflict text h hsaid => exact Or.inr ⟨text, rfl, rfl, Or.inr (Or.inl ⟨h, hsaid⟩)⟩
  | rejected text h hnot => exact Or.inr ⟨text, rfl, rfl, Or.inr (Or.inr ⟨h, hnot⟩)⟩

/-- A request that reads and creates nothing is served if it can be. -/
theorem Prompt.of_servable {s s' : Store} {c : S3Call} {reply : S3Call.Reply c}
    (h : Prompt s c reply s') (hreads : c.reads = none) (hcreates : c.creates = none)
    (hservable : ∃ reply s', Served s c reply s') : Served s c reply s' ∧ Informative c reply := by
  rcases h.ends with hserved | ⟨text, _, _, hmissing | hconflict | hrejected⟩
  · exact hserved
  · simp [hreads] at hmissing
  · simp [hcreates] at hconflict
  · obtain ⟨reply', s'', hserved⟩ := hservable
    exact absurd hserved (hrejected.2 reply' s'')

/-- A request that reads one place finds it, or is told that it is missing. -/
theorem Prompt.of_reads {s s' : Store} {c : S3Call} {reply : S3Call.Reply c} (place : Place)
    (h : Prompt s c reply s') (hreads : c.reads = some place) (hcreates : c.creates = none)
    (hservable : ∀ content, s.objects place = some content → ∃ reply s', Served s c reply s') :
    (Served s c reply s' ∧ Informative c reply) ∨
      s.objects place = none ∧ s' = s ∧
        ∃ text, reply = failed text c ∧ isMissingError text = true := by
  rcases h.ends with hserved | ⟨text, hreply, hs, hmissing | hconflict | hrejected⟩
  · exact Or.inl hserved
  · obtain ⟨⟨place', hplace, hnone⟩, hsaid⟩ := hmissing
    obtain rfl := Option.some.inj (hreads.symm.trans hplace)
    exact Or.inr ⟨hnone, hs, text, hreply, hsaid⟩
  · simp [hcreates] at hconflict
  · obtain ⟨content, hcontent⟩ := Option.ne_none_iff_exists'.mp (hrejected.1.1 place hreads)
    obtain ⟨reply', s'', hserved⟩ := hservable content hcontent
    exact absurd hserved (hrejected.2 reply' s'')

/-- A request that writes one place, on a condition or not, writes it or is told that the condition
fails. -/
theorem Prompt.of_creates {s s' : Store} {c : S3Call} {reply : S3Call.Reply c} (place : Place)
    (condition : Option Str) (h : Prompt s c reply s') (hreads : c.reads = none)
    (hcreates : c.creates = condition.map fun _ => place)
    (hservable : Condition s place condition → ∃ reply s', Served s c reply s') :
    (Served s c reply s' ∧ Informative c reply) ∨
      condition ≠ none ∧ s.objects place ≠ none ∧ s' = s ∧
        ∃ text, reply = failed text c ∧ saysCondition text = true := by
  rcases h.ends with hserved | ⟨text, hreply, hs, hmissing | hconflict | hrejected⟩
  · exact Or.inl hserved
  · simp [hreads] at hmissing
  · obtain ⟨⟨place', hplace, hfull⟩, hsaid⟩ := hconflict
    rw [hcreates] at hplace
    obtain ⟨header, hheader, rfl⟩ := Option.map_eq_some_iff.mp hplace
    exact Or.inr ⟨by simp [hheader], hfull, hs, text, hreply, hsaid⟩
  · obtain ⟨reply', s'', hserved⟩ := hservable fun hcondition => by
      obtain ⟨header, hheader⟩ := Option.ne_none_iff_exists'.mp hcondition
      exact hrejected.1.2 place (by simp [hcreates, hheader])
    exact absurd hserved (hrejected.2 reply' s'')

/-! What a prompt server answers to each request. -/

section Requests

variable {s s' : Store} {bucket key : Str}

theorem prompt_putObject {b : Bytes} {contentType condition : Option Str} {reply : Except Str Unit}
    (h : Prompt s (.putObject bucket key b contentType condition) reply s') :
    Condition s (bucket, key) condition ∧ reply = .ok () ∧ s' = s.put (bucket, key) (some b) ∨
      condition ≠ none ∧ s.objects (bucket, key) ≠ none ∧ s' = s ∧
        ∃ text, reply = .error text ∧ saysCondition text = true := by
  rcases h.of_creates (bucket, key) condition rfl
    (by cases condition <;> rfl) (fun hcondition => ⟨.ok (), _, rfl, hcondition, rfl⟩)
    with ⟨⟨hreply, hcondition, hs⟩, _⟩ | hconflict
  · exact Or.inl ⟨hcondition, hreply, hs⟩
  · exact Or.inr hconflict

theorem prompt_createMultipartUpload {contentType : Option Str} {reply : Except Str (Option Str)}
    (hsupply : ∃ uploadId, s.uploads ⟨bucket, key, uploadId⟩ = .unused)
    (h : Prompt s (.createMultipartUpload bucket key contentType) reply s') :
    ∃ uploadId, reply = .ok (some uploadId) ∧
      s' = s.track ⟨bucket, key, uploadId⟩ (.receiving fun _ => none) := by
  obtain ⟨unused, hunused⟩ := hsupply
  obtain ⟨⟨uploadId, told, hreply, htold, _, hs⟩, uploadId', hreply'⟩ := h.of_servable rfl rfl
    ⟨.ok (some unused), _, unused, some unused, rfl, by simp, hunused, rfl⟩
  obtain rfl : some uploadId' = told := Except.ok.inj (hreply'.symm.trans hreply)
  obtain rfl := htold uploadId' rfl
  exact ⟨uploadId', hreply', hs⟩

theorem prompt_uploadPart {uploadId : Str} {number : ℤ} {b : Bytes} {parts : ℤ → Option Bytes}
    {reply : Except Str (Option Str)}
    (hupload : s.uploads ⟨bucket, key, uploadId⟩ = .receiving parts)
    (h : Prompt s (.uploadPart bucket key uploadId number b) reply s') :
    ∃ eTag, reply = .ok eTag ∧ s' = s.track ⟨bucket, key, uploadId⟩
      (.receiving (Function.update parts number (some b))) := by
  obtain ⟨⟨eTag, parts', hreply, hparts, hs⟩, _⟩ := h.of_servable rfl rfl
    ⟨.ok none, _, none, parts, rfl, hupload, rfl⟩
  obtain rfl := UploadStatus.receiving.inj (hupload.symm.trans hparts)
  exact ⟨eTag, hreply, hs⟩

theorem prompt_completeMultipartUpload {uploadId : Str} {listed : List CompletedPart}
    {condition : Option Str} {parts : ℤ → Option Bytes} {b : Bytes} {reply : Except Str Unit}
    (hupload : s.uploads ⟨bucket, key, uploadId⟩ = .receiving parts) (hlisted : Ascending listed)
    (hb : assembled parts listed = some b)
    (h : Prompt s (.completeMultipartUpload bucket key uploadId listed condition) reply s') :
    Condition s (bucket, key) condition ∧ reply = .ok () ∧
        s' = (s.track ⟨bucket, key, uploadId⟩ .closed).put (bucket, key) (some b) ∨
      condition ≠ none ∧ s.objects (bucket, key) ≠ none ∧ s' = s ∧
        ∃ text, reply = .error text ∧ saysCondition text = true := by
  rcases h.of_creates (bucket, key) condition rfl
    (by cases condition <;> rfl)
    (fun hcondition => ⟨.ok (), _, parts, b, rfl, hupload, hlisted, hb, hcondition, rfl⟩)
    with ⟨⟨parts', b', hreply, hparts, _, hb', hcondition, hs⟩, _⟩ | hconflict
  · obtain rfl := UploadStatus.receiving.inj (hupload.symm.trans hparts)
    obtain rfl := Option.some.inj (hb.symm.trans hb')
    exact Or.inl ⟨hcondition, hreply, hs⟩
  · exact Or.inr hconflict

theorem prompt_abortMultipartUpload {uploadId : Str} {reply : Except Str Unit}
    (h : Prompt s (.abortMultipartUpload bucket key uploadId) reply s') :
    s' = s.track ⟨bucket, key, uploadId⟩ .closed :=
  (h.of_servable rfl rfl ⟨.ok (), _, rfl, rfl⟩).1.2

theorem prompt_getObject {reply : Except Str GetObjectOutput}
    (h : Prompt s (.getObject bucket key none) reply s') : s' = s ∧
      ((∃ (output : GetObjectOutput) (chunks : List Bytes), reply = .ok output ∧
          output.body = chunks.map .ok ∧ s.objects (bucket, key) = some chunks.flatten) ∨
        s.objects (bucket, key) = none ∧
          ∃ text, reply = .error text ∧ isMissingError text = true) := by
  rcases h.of_reads (bucket, key) rfl rfl (fun content hcontent =>
      ⟨.ok ⟨none, none, [.ok content]⟩, s, content, _, rfl, hcontent,
        ⟨streams_singleton content, by simp⟩, rfl⟩)
    with ⟨⟨content, output, hreply, hcontent, hholds, hs⟩, output', chunks, hreply', hchunks⟩ |
      ⟨hnone, hs, htext⟩
  · obtain rfl := Except.ok.inj (hreply.symm.trans hreply')
    exact ⟨hs, Or.inl ⟨output, chunks, hreply, hchunks, by rw [hholds.1 chunks hchunks, hcontent]⟩⟩
  · exact ⟨hs, Or.inr ⟨hnone, htext⟩⟩

theorem prompt_headObject {reply : Except Str HeadObjectOutput}
    (h : Prompt s (.headObject bucket key) reply s') : s' = s ∧
      ((∃ output content, reply = .ok output ∧ s.objects (bucket, key) = some content ∧
          output.contentLength = some (content.length : ℤ)) ∨
        s.objects (bucket, key) = none ∧
          ∃ text, reply = .error text ∧ isMissingError text = true) := by
  rcases h.of_reads (bucket, key) rfl rfl (fun content hcontent =>
      ⟨.ok ⟨some content.length, none⟩, s, content, _, rfl, hcontent, by simp, rfl⟩)
    with ⟨⟨content, output, hreply, hcontent, hlength, hs⟩, output', hreply', hsome⟩ |
      ⟨hnone, hs, htext⟩
  · obtain rfl := Except.ok.inj (hreply.symm.trans hreply')
    obtain ⟨n, hn⟩ := Option.isSome_iff_exists.mp hsome
    exact ⟨hs, Or.inl ⟨output, content, hreply, hcontent, by rw [hn, hlength n hn]⟩⟩
  · exact ⟨hs, Or.inr ⟨hnone, htext⟩⟩

theorem prompt_copyObject {source : Place} {reply : Except Str Unit}
    (hplain : PlainSource source.1 source.2)
    (h : Prompt s (.copyObject bucket key (source.1 ++ '/' :: source.2)) reply s') :
    (∃ b, s.objects source = some b ∧ reply = .ok () ∧ s' = s.put (bucket, key) (some b)) ∨
      s.objects source = none ∧ s' = s ∧
        ∃ text, reply = .error text ∧ isMissingError text = true := by
  have hread := readCopySource_eq_self_iff.mpr hplain
  have hreads : S3Call.reads (.copyObject bucket key (source.1 ++ '/' :: source.2)) =
      some source := by
    simp only [S3Call.reads, hread]
  rcases h.of_reads source hreads rfl (fun content hcontent =>
      ⟨.ok (), _, _, content, rfl, hread, fun _ => hcontent, rfl⟩)
    with ⟨⟨source', b, hreply, hsource, hb, hs⟩, _⟩ | hmissing
  · obtain rfl := Option.some.inj (hread.symm.trans hsource)
    exact Or.inl ⟨b, hb rfl, hreply, hs⟩
  · exact Or.inr hmissing

theorem prompt_deleteObject {reply : Except Str Unit}
    (h : Prompt s (.deleteObject bucket key) reply s') :
    reply = .ok () ∧ s' = s.put (bucket, key) none :=
  (h.of_servable rfl rfl ⟨.ok (), _, rfl, rfl⟩).1

end Requests

/-! ### Uploads -/

section Uploads

variable {s₀ s : Store} {config : S3StorageConfig} {object : Str} {options : BlobPutOptions}
  {multipart : Option MultipartUploadState} {sent : List SentPart}

theorem ensures_request {α : Type} {c : S3Call} {k : S3Call.Reply c → S3M α}
    {post : Store → α → Prop} :
    Ensures Prompt s ((request c).bind k) post ↔
      ∀ reply s', Prompt s c reply s' → Ensures Prompt s' (k reply) post := ensures_call

/-- Only so many upload identifiers have been issued. -/
def Supplied (s : Store) : Prop := {u | s.uploads u ≠ .unused}.Finite

theorem Supplied.track (h : Supplied s) (u : Upload) (status : UploadStatus) :
    Supplied (s.track u status) := by
  refine (Set.Finite.insert u h).subset fun u' hu' => ?_
  by_cases heq : u' = u
  · exact Or.inl heq
  · refine Or.inr ?_
    simpa [Function.update_of_ne heq] using hu'

theorem Supplied.exists_unused (h : Supplied s) (bucket key : Str) :
    ∃ uploadId, s.uploads ⟨bucket, key, uploadId⟩ = .unused := by
  by_contra hnone
  push Not at hnone
  have hinjective : Function.Injective fun uploadId : Str => (⟨bucket, key, uploadId⟩ : Upload) :=
    fun _ _ heq => (Upload.mk.inj heq).2.2
  exact Set.infinite_range_of_injective hinjective
    (h.subset (Set.range_subset_iff.mpr fun uploadId => hnone uploadId))

/-- Full parts of a body have been sent and nothing else has changed. -/
structure Sending (s₀ : Store) (config : S3StorageConfig) (object : Str)
    (multipart : Option MultipartUploadState) (sent : List SentPart) (s : Store) : Prop where
  objects : s.objects = s₀.objects
  supplied : Supplied s
  upload : match multipart with
    | none => sent = []
    | some state => ∃ uploadId, state = stateAfter uploadId sent ∧
        s.uploads ⟨config.bucket, object, uploadId⟩ = .receiving (received sent)
  full : ∀ part ∈ sent, part.1.length = multipartPartSize

theorem Sending.size (h : Sending s₀ config object multipart sent s) :
    (partBytes sent).length = sent.length * multipartPartSize := by
  have hsizes : (sent.map Prod.fst).map List.length = sent.map fun _ => multipartPartSize := by
    rw [List.map_map]
    exact List.map_congr_left h.full
  rw [partBytes, List.length_flatten, hsizes, List.map_const', List.sum_replicate, smul_eq_mul]

/-- An upload is open afterwards. -/
theorem openUpload_ensures (h : Sending s₀ config object multipart sent s) :
    Ensures Prompt s (openUpload config object options multipart) fun s' result => ∃ state,
      result = .ok state ∧ Sending s₀ config object (some state) sent s' := by
  cases multipart with
  | some state => exact ensures_ret.mpr ⟨state, rfl, h⟩
  | none =>
    obtain ⟨hobjects, hsupplied, hsent, hfull⟩ := h
    have hnil : sent = [] := hsent
    refine ensures_request.mpr fun reply s' hprompt => ?_
    obtain ⟨uploadId, rfl, rfl⟩ := prompt_createMultipartUpload
      (hsupplied.exists_unused config.bucket object) hprompt
    refine ensures_ret.mpr ⟨_, rfl, hobjects, hsupplied.track _ _, ⟨uploadId, ?_, ?_⟩, hfull⟩
    · rw [hnil]
      rfl
    · rw [Store.track_uploads, Function.update_self, hnil]
      rfl

/-- One more part has been sent. -/
theorem uploadPart_ensures {uploadId : Str} (part : Bytes)
    (hupload : s.uploads ⟨config.bucket, object, uploadId⟩ = .receiving (received sent)) :
    Ensures Prompt s (uploadPart config object (stateAfter uploadId sent) part)
      fun s' result => ∃ eTag, result = .ok (stateAfter uploadId (sent ++ [(part, eTag)])) ∧
        s' = s.track ⟨config.bucket, object, uploadId⟩
          (.receiving (received (sent ++ [(part, eTag)]))) := by
  refine ensures_request.mpr fun reply s' hprompt => ?_
  obtain ⟨eTag, rfl, rfl⟩ := prompt_uploadPart hupload hprompt
  refine ensures_ret.mpr ⟨eTag, ?_, ?_⟩
  · simp only [stateAfter_add uploadId sent part eTag]
  · simp only [received_append, stateAfter]

/-- Full parts are cut off the buffer and sent. -/
theorem uploadFullParts_ensures (buffer : Bytes)
    (h : Sending s₀ config object multipart sent s) :
    Ensures Prompt s (uploadFullParts config object options buffer multipart)
      fun s' result => ∃ rest multipart' sent', result = .ok (rest, multipart') ∧
        Sending s₀ config object multipart' sent' s' ∧
          partBytes sent' ++ rest = partBytes sent ++ buffer := by
  induction hn : buffer.length using Nat.strong_induction_on
    generalizing buffer multipart sent s with
  | _ n ih =>
    rw [uploadFullParts]
    by_cases hlong : multipartPartSize ≤ buffer.length
    · rw [dif_pos hlong]
      refine (openUpload_ensures h).bind fun s₁ opened hopened => ?_
      obtain ⟨state, rfl, hsending⟩ := hopened
      obtain ⟨uploadId, rfl, hupload⟩ := hsending.upload
      refine (uploadPart_ensures (buffer.take multipartPartSize) hupload).bind
        fun s₂ result hresult => ?_
      obtain ⟨eTag, rfl, rfl⟩ := hresult
      have hnext : Sending s₀ config object
          (some (stateAfter uploadId (sent ++ [(buffer.take multipartPartSize, eTag)])))
          (sent ++ [(buffer.take multipartPartSize, eTag)])
          (s₁.track ⟨config.bucket, object, uploadId⟩
            (.receiving (received (sent ++ [(buffer.take multipartPartSize, eTag)])))) := by
        refine ⟨hsending.objects, hsending.supplied.track _ _, ⟨uploadId, rfl, ?_⟩, ?_⟩
        · rw [Store.track_uploads, Function.update_self]
        · intro part hpart
          rcases List.mem_append.mp hpart with hpart | hpart
          · exact hsending.full part hpart
          · rw [List.mem_singleton.mp hpart, List.length_take, min_eq_left hlong]
      have hless : (buffer.drop multipartPartSize).length < n := by
        have hpos : 0 < multipartPartSize := by decide
        rw [List.length_drop]
        omega
      refine (ih _ hless _ hnext rfl).mono fun s' result hrest => ?_
      obtain ⟨rest, multipart', sent', hresult, hsending', hbytes⟩ := hrest
      refine ⟨rest, multipart', sent', hresult, hsending', ?_⟩
      rw [hbytes, partBytes_append, partBytes_singleton, List.append_assoc, List.take_append_drop]
    · rw [dif_neg hlong]
      exact ensures_ret.mpr ⟨buffer, multipart, sent, rfl, h, rfl⟩

/-- A body that fails is not published. -/
theorem uploadChunks_failed {D : Digest} {items : List (Except StorageError Bytes)}
    {e : StorageError} (hitems : firstError items = some e) (p : UploadProgress D)
    (h : Sending s₀ config object p.multipart sent s) :
    Ensures Prompt s (uploadChunks config object options items p) fun s' result =>
      result = .error e ∧ s'.objects = s₀.objects ∧ Supplied s' := by
  induction items generalizing p sent s with
  | nil => cases hitems
  | cons item items ih =>
    cases item with
    | error e' =>
      obtain rfl : e' = e := Option.some.inj hitems
      exact ensures_ret.mpr ⟨rfl, h.objects, h.supplied⟩
    | ok chunk =>
      refine (uploadFullParts_ensures (p.buffer ++ chunk) h).bind fun s₁ cut hcut => ?_
      obtain ⟨rest, multipart', sent', rfl, hsending, _⟩ := hcut
      exact ih hitems _ hsending

/-! ### Publishing -/

/-- The numbers of parts ascend as long as they are counted. -/
theorem ascending_completedParts (first : ℕ) (sent : List SentPart)
    (h : first + sent.length ≤ maxParts) : Ascending (completedParts partNumber first sent) := by
  have hlater : ∀ (from_ : ℕ) (sent : List SentPart), from_ + sent.length ≤ maxParts →
      ∀ part ∈ completedParts partNumber from_ sent, (from_ : ℤ) + 1 ≤ part.partNumber := by
    intro from_ sent
    induction sent generalizing from_ with
    | nil => simp [completedParts]
    | cons p sent ih =>
      intro hle part hpart
      rw [List.length_cons] at hle
      rcases List.mem_cons.mp hpart with rfl | hpart
      · simp only [partNumber_of_lt (show from_ < maxParts by omega), ordinal, le_refl]
      · have := ih (from_ + 1) (by omega) part hpart
        push_cast at this
        omega
  induction sent generalizing first with
  | nil => exact List.Pairwise.nil
  | cons p sent ih =>
    rw [List.length_cons] at h
    refine List.pairwise_cons.mpr ⟨fun part hpart => ?_, ih (first + 1) (by omega)⟩
    have := hlater (first + 1) sent (by omega) part hpart
    simp only [partNumber_of_lt (show first < maxParts by omega), ordinal]
    push_cast at this
    omega

/-- The largest body that the parts can be numbered for. -/
def maxBody : ℕ := maxParts * multipartPartSize

/-- A write to a place that nothing was to be in, or that takes any content. -/
def Published (s₀ : Store) (place : Place) (b : Bytes) (ifNotExists : Bool)
    (outcome : BlobWriteOutcome) (s : Store)
    (result : Except StorageError (Option BlobWriteOutcome)) : Prop :=
  Supplied s ∧
    ((ifNotExists = true → s₀.objects place = none) ∧ result = .ok (some outcome) ∧
        s.objects = Function.update s₀.objects place (some b) ∨
      ifNotExists = true ∧ s₀.objects place ≠ none ∧ result = .ok none ∧ s.objects = s₀.objects)

theorem condition_ifNoneMatch {place : Place} {ifNotExists : Bool} :
    Condition s place (ifNoneMatch ifNotExists) ↔
      (ifNotExists = true → s.objects place = none) := by
  cases ifNotExists <;> simp [Condition, ifNoneMatch]

theorem ifNoneMatch_ne_none {ifNotExists : Bool} :
    ifNoneMatch ifNotExists ≠ none ↔ ifNotExists = true := by
  cases ifNotExists <;> simp [ifNoneMatch]

theorem published_conflict {ifNotExists : Bool} {text : Str} (outcome : BlobWriteOutcome)
    (hif : ifNotExists = true) (hsaid : saysCondition text = true) :
    published ifNotExists outcome (.error (mapS3Error text)) = .ok none := by
  have hcond : isPreconditionError (mapS3Error text) = true := hsaid
  simp [published, hif, hcond]

theorem putSingleBlob_ensures (b : Bytes) (ifNotExists : Bool) (outcome : BlobWriteOutcome)
    (hobjects : s.objects = s₀.objects) (hsupplied : Supplied s) :
    Ensures Prompt s (putSingleBlob config object b options ifNotExists) fun s' result =>
      Published s₀ (config.bucket, object) b ifNotExists outcome s'
        (published ifNotExists outcome result) := by
  refine ensures_request.mpr fun reply s' hprompt => ?_
  rcases prompt_putObject hprompt with ⟨hcondition, rfl, rfl⟩ | ⟨hif, hfull, rfl, text, rfl, hsaid⟩
  · rw [condition_ifNoneMatch, hobjects] at hcondition
    exact ensures_ret.mpr ⟨hsupplied, Or.inl ⟨hcondition, rfl, by rw [Store.put_objects, hobjects]⟩⟩
  · rw [hobjects] at hfull
    exact ensures_ret.mpr ⟨hsupplied, Or.inr ⟨ifNoneMatch_ne_none.mp hif, hfull,
      published_conflict outcome (ifNoneMatch_ne_none.mp hif) hsaid, hobjects⟩⟩

theorem completeMultipartUpload_ensures {uploadId : Str} (ifNotExists : Bool)
    (outcome : BlobWriteOutcome) (hobjects : s.objects = s₀.objects) (hsupplied : Supplied s)
    (hupload : s.uploads ⟨config.bucket, object, uploadId⟩ = .receiving (received sent))
    (hcount : sent.length ≤ maxParts) :
    Ensures Prompt s (completeMultipartUpload config object (stateAfter uploadId sent) ifNotExists)
      fun s' result => Published s₀ (config.bucket, object) (partBytes sent) ifNotExists outcome s'
        (published ifNotExists outcome result) := by
  have hascending := ascending_completedParts 0 sent (by rwa [Nat.zero_add])
  refine ensures_request.mpr fun reply s' hprompt => ?_
  rcases prompt_completeMultipartUpload hupload hascending
      (assembled_receivedFrom 0 sent _ hascending) hprompt with
    ⟨hcondition, rfl, rfl⟩ | ⟨hif, hfull, rfl, text, rfl, hsaid⟩
  · rw [condition_ifNoneMatch, hobjects] at hcondition
    exact ensures_ret.mpr ⟨hsupplied.track _ _, Or.inl ⟨hcondition, rfl, by
      rw [Store.put_objects, Store.track_objects, hobjects]⟩⟩
  · rw [hobjects] at hfull
    refine ensures_request.mpr fun aborted s'' habort => ?_
    obtain rfl := prompt_abortMultipartUpload habort
    exact ensures_ret.mpr ⟨hsupplied.track _ _, Or.inr ⟨ifNoneMatch_ne_none.mp hif, hfull,
      published_conflict outcome (ifNoneMatch_ne_none.mp hif) hsaid, hobjects⟩⟩

/-- What is left of a body is sent, and the upload published. -/
theorem finishUpload_ensures {D : Digest} (options : BlobPutOptions) (ifNotExists : Bool)
    (p : UploadProgress D) {b : Bytes} (h : Sending s₀ config object p.multipart sent s)
    (hb : partBytes sent ++ p.buffer = b)
    (hsize : b.length ≤ maxBody) :
    Ensures Prompt s (finishUpload config object options ifNotExists p)
      (Published s₀ (config.bucket, object) b ifNotExists
        ⟨p.sizeBytes, lowerHex (D.finalize p.hasher)⟩) := by
  have hcounted := h.size
  obtain ⟨buffer, hasher, sizeBytes, multipart⟩ := p
  obtain ⟨hobjects, hsupplied, hupload, hfull⟩ := h
  cases multipart with
  | none =>
    obtain rfl : sent = [] := hupload
    obtain rfl : buffer = b := hb
    exact (putSingleBlob_ensures buffer ifNotExists _ hobjects hsupplied).bind
      fun s' result hresult => ensures_ret.mpr hresult
  | some state =>
    obtain ⟨uploadId, rfl, hreceiving⟩ := hupload
    have hlast : Ensures Prompt s (uploadLastPart config object (stateAfter uploadId sent) buffer)
        fun s' result => ∃ sent', result = .ok (stateAfter uploadId sent') ∧
          partBytes sent' = b ∧ sent'.length ≤ maxParts ∧ s'.objects = s₀.objects ∧ Supplied s' ∧
            s'.uploads ⟨config.bucket, object, uploadId⟩ = .receiving (received sent') := by
      have hpos : 0 < multipartPartSize := by decide
      have hlength : sent.length * multipartPartSize + buffer.length ≤
          maxParts * multipartPartSize := by
        rw [← hcounted, ← List.length_append, hb]
        exact hsize
      unfold uploadLastPart
      by_cases hempty : buffer = []
      · rw [if_pos hempty]
        refine ensures_ret.mpr ⟨sent, rfl, ?_, ?_, hobjects, hsupplied, hreceiving⟩
        · rw [← hb, hempty, List.append_nil]
        · exact Nat.le_of_mul_le_mul_right (by omega) hpos
      · rw [if_neg hempty]
        refine (uploadPart_ensures buffer hreceiving).mono fun s' result hresult => ?_
        obtain ⟨eTag, rfl, rfl⟩ := hresult
        refine ⟨_, rfl, ?_, ?_, hobjects, hsupplied.track _ _, ?_⟩
        · rw [partBytes_append, partBytes_singleton, hb]
        · have hbuffer := List.length_pos_iff.mpr hempty
          have hless : sent.length < maxParts :=
            Nat.lt_of_mul_lt_mul_right (a := multipartPartSize) (by omega)
          rw [List.length_append, List.length_singleton]
          omega
        · rw [Store.track_uploads, Function.update_self]
    refine hlast.bind fun s' result hresult => ?_
    obtain ⟨sent', rfl, rfl, hcount, hobjects', hsupplied', hreceiving'⟩ := hresult
    exact (completeMultipartUpload_ensures ifNotExists _ hobjects' hsupplied' hreceiving'
      hcount).bind fun s'' result hresult => ensures_ret.mpr hresult

/-- A whole write. -/
theorem putBlobInner_ensures {D : Digest} {key : Str} {place : Place} {body : StorageByteStream}
    {b : Bytes} (ifNotExists : Bool) (hplace : placeOf config key = .ok place)
    (hbody : body.body = .ok b) (hsize : b.length ≤ maxBody) (hsupplied : Supplied s) :
    Ensures Prompt s (putBlobInner D config key body options ifNotExists)
      (Published s place b ifNotExists (outcomeOf D b)) := by
  obtain ⟨hkey, hbucket⟩ := placeOf_eq_ok.mp hplace
  rw [putBlobInner_eq hbody]
  simp only [putWhole, hkey]
  have hstart : Sending s config place.2 none [] s := ⟨rfl, hsupplied, rfl, by simp⟩
  refine (uploadFullParts_ensures b hstart).bind fun s' result hresult => ?_
  obtain ⟨rest, multipart', sent', rfl, hsending, hbytes⟩ := hresult
  have hfinish := finishUpload_ensures options ifNotExists
    (⟨rest, D.update D.new b, min b.length u64Max, multipart'⟩ : UploadProgress D) hsending hbytes
    hsize
  rw [← hbucket] at hfinish
  exact hfinish

/-- A write whose body fails. -/
theorem putBlobInner_failed {D : Digest} {key : Str} {place : Place} {body : StorageByteStream}
    {e : StorageError} (ifNotExists : Bool) (hplace : placeOf config key = .ok place)
    (hbody : body.body = .error e) (hsupplied : Supplied s) :
    Ensures Prompt s (putBlobInner D config key body options ifNotExists) fun s' result =>
      result = .error e ∧ s'.objects = s.objects ∧ Supplied s' := by
  obtain ⟨hkey, _⟩ := placeOf_eq_ok.mp hplace
  simp only [putBlobInner, hkey]
  have hstart : Sending s config place.2 none [] s := ⟨rfl, hsupplied, rfl, by simp⟩
  refine (uploadChunks_failed (body_eq_error.mp hbody) _ hstart).bind fun s' result hresult => ?_
  obtain ⟨rfl, hobjects, hsupplied'⟩ := hresult
  exact ensures_ret.mpr ⟨rfl, hobjects, hsupplied'⟩

end Uploads

/-! ### Calls -/

/-- A call of the trait on this backend. -/
def storeCall (D : Digest) (config : S3StorageConfig) : StoreCall → S3M StoreAnswer
  | .putBlob key body options => do return .wrote (← putBlob D config key body options)
  | .putBlobIfNotExists key body options => do
    return .created (← putBlobIfNotExists D config key body options)
  | .getBlob key => do
    match ← getBlob config key with
    | .error e => return .read (.error (.error e))
    | .ok blob => return .read (collectStorageStream blob.body)
  | .headBlob key => do return .described ((← headBlob config key).map (Option.map keyAndSize))
  | .blobExists key => do return .found (← blobExists config key)
  | .copyBlob src dst => do return .done (← copyBlob config src dst)
  | .deleteBlob key => do return .done (← deleteBlob config key)

/-- The call is made against the server and returns. -/
def Does (D : Digest) (config : S3StorageConfig) (s : Store) (q : StoreCall) (a : StoreAnswer)
    (s' : Store) : Prop :=
  ∃ log, RunsIn Prompt s (storeCall D config q) log s' a

/-- The objects that stand for keys hold what the map says. -/
structure Represents (config : S3StorageConfig) (s : Store) (M : BlobMap) : Prop where
  contents : ∀ key place, placeOf config key = .ok place → s.objects place = M key
  supplied : Supplied s

/-- What the backend can do: bodies for which the part numbers are enough, and copies to another
object from one whose name the server reads as it is meant. -/
def StoreLimits (config : S3StorageConfig) (_M : BlobMap) (q : StoreCall) : Prop :=
  q.size ≤ maxBody ∧ ∀ src dst, q = .copyBlob src dst → src ≠ dst ∧
    ∀ place, placeOf config src = .ok place → PlainSource place.1 place.2

section Calls

variable {D : Digest} {config : S3StorageConfig} {s s' : Store} {M : BlobMap} {key : Str}
  {place : Place}

theorem exists_placeOf (husable : PrefixUsable config) (hk : ValidKey key) :
    ∃ place, placeOf config key = .ok place := by
  by_cases hroot : listRoot config = []
  · exact ⟨(config.bucket, key), placeOf_eq_ok.mpr
      ⟨(providerKey_eq_ok_of_root_nil hroot).mpr ⟨hk, rfl⟩, rfl⟩⟩
  · exact ⟨(config.bucket, _), placeOf_eq_ok.mpr
      ⟨(providerKey_eq_ok_of_root hroot).mpr ⟨hk, husable.resolve_left hroot, rfl⟩, rfl⟩⟩

theorem valid_of_placeOf (hplace : placeOf config key = .ok place) : ValidKey key :=
  (placeOf_iff.mp hplace).2.1

theorem Represents.put (h : Represents config s M) (hplace : placeOf config key = .ok place)
    (content : Option Bytes) (hobjects : s'.objects = Function.update s.objects place content)
    (hsupplied : Supplied s') : Represents config s' (Function.update M key content) := by
  refine ⟨fun key' place' hplace' => ?_, hsupplied⟩
  rw [hobjects, Function.update_apply, Function.update_apply]
  by_cases heq : key' = key
  · subst heq
    obtain rfl := Except.ok.inj (hplace.symm.trans hplace')
    rw [if_pos rfl, if_pos rfl]
  · have hne : place' ≠ place := by
      rintro rfl
      exact heq (placeOf_injective hplace' hplace)
    rw [if_neg heq, if_neg hne, h.contents key' place' hplace']

theorem Represents.same (h : Represents config s M) (hobjects : s'.objects = s.objects)
    (hsupplied : Supplied s') : Represents config s' M :=
  ⟨fun key place hplace => by rw [hobjects, h.contents key place hplace], hsupplied⟩

/-- What a call answers and leaves behind is what the service does. -/
def Conforms (D : Digest) (config : S3StorageConfig) (M : BlobMap) (q : StoreCall) (s : Store)
    (a : StoreAnswer) : Prop :=
  a = (serve D M q).1 ∧ Represents config s (serve D M q).2

theorem conforms_of_valid {q : StoreCall} (hk : ∀ key ∈ q.keys, ValidKey key) {a : StoreAnswer} :
    Conforms D config M q s a ↔
      a = (answerValid D M q).1 ∧ Represents config s (answerValid D M q).2 := by
  rw [Conforms, serve_of_valid hk]

/-- A call on a key that is not valid makes no request. -/
theorem storeCall_invalid (h : Represents config s M) {q : StoreCall} (hq : q.keys = [key])
    (hk : ¬ ValidKey key) : Ensures Prompt s (storeCall D config q) (Conforms D config M q) := by
  have hprovider := providerKey_of_not_valid config hk
  unfold Conforms
  rw [serve_of_invalid hq hk]
  cases q with
  | putBlob | putBlobIfNotExists | getBlob | headBlob | blobExists | deleteBlob =>
    obtain rfl : _ = key := by simpa [StoreCall.keys] using hq
    simp only [storeCall, putBlob, putBlobIfNotExists, putBlobInner, getBlob, blobExists, headBlob,
      deleteBlob, hprovider]
    exact ensures_ret.mpr ⟨rfl, h⟩
  | copyBlob src dst => simp [StoreCall.keys] at hq

theorem putBlob_conforms (h : Represents config s M) (hplace : placeOf config key = .ok place)
    {body : StorageByteStream} {options : BlobPutOptions}
    (hsize : (concatBody body).length ≤ maxBody) :
    Ensures Prompt s (storeCall D config (.putBlob key body options))
      (Conforms D config M (.putBlob key body options)) := by
  have hkeys : ∀ key' ∈ (StoreCall.putBlob key body options).keys, ValidKey key' := by
    simpa [StoreCall.keys] using valid_of_placeOf hplace
  cases hbody : body.body with
  | error e =>
    refine ensures_bind.mpr (ensures_bind.mpr ((putBlobInner_failed false hplace hbody
      h.supplied).mono fun s' result hresult => ?_))
    obtain ⟨rfl, hobjects, hsupplied⟩ := hresult
    refine ensures_ret.mpr (ensures_ret.mpr ((conforms_of_valid hkeys).mpr ?_))
    simp only [answerValid, hbody]
    exact ⟨trivial, h.same hobjects hsupplied⟩
  | ok b =>
    rw [Local.concatBody_eq hbody] at hsize
    refine ensures_bind.mpr (ensures_bind.mpr ((putBlobInner_ensures false hplace hbody hsize
      h.supplied).mono fun s' result hresult => ?_))
    obtain ⟨hsupplied, ⟨_, rfl, hobjects⟩ | ⟨hif, _⟩⟩ := hresult
    · refine ensures_ret.mpr (ensures_ret.mpr ((conforms_of_valid hkeys).mpr ?_))
      simp only [answerValid, hbody]
      exact ⟨trivial, h.put hplace _ hobjects hsupplied⟩
    · cases hif

theorem putBlobIfNotExists_conforms (h : Represents config s M)
    (hplace : placeOf config key = .ok place) {body : StorageByteStream}
    {options : BlobPutOptions} (hsize : (concatBody body).length ≤ maxBody) :
    Ensures Prompt s (storeCall D config (.putBlobIfNotExists key body options))
      (Conforms D config M (.putBlobIfNotExists key body options)) := by
  have hkeys : ∀ key' ∈ (StoreCall.putBlobIfNotExists key body options).keys, ValidKey key' := by
    simpa [StoreCall.keys] using valid_of_placeOf hplace
  have hcontents := h.contents key place hplace
  cases hbody : body.body with
  | error e =>
    refine ensures_bind.mpr ((putBlobInner_failed true hplace hbody
      h.supplied).mono fun s' result hresult => ?_)
    obtain ⟨rfl, hobjects, hsupplied⟩ := hresult
    refine ensures_ret.mpr ((conforms_of_valid hkeys).mpr ?_)
    simp only [answerValid, hbody]
    exact ⟨trivial, h.same hobjects hsupplied⟩
  | ok b =>
    rw [Local.concatBody_eq hbody] at hsize
    refine ensures_bind.mpr ((putBlobInner_ensures true hplace hbody hsize
      h.supplied).mono fun s' result hresult => ?_)
    refine ensures_ret.mpr ((conforms_of_valid hkeys).mpr ?_)
    obtain ⟨hsupplied, ⟨hnone, rfl, hobjects⟩ | ⟨_, hfull, rfl, hobjects⟩⟩ := hresult
    · rw [hcontents] at hnone
      simp only [answerValid, hbody, hnone rfl]
      exact ⟨trivial, h.put hplace _ hobjects hsupplied⟩
    · rw [hcontents] at hfull
      obtain ⟨old, hold⟩ := Option.ne_none_iff_exists'.mp hfull
      simp only [answerValid, hbody, hold]
      exact ⟨trivial, h.same hobjects hsupplied⟩

theorem getBlob_conforms (h : Represents config s M) (hplace : placeOf config key = .ok place) :
    Ensures Prompt s (storeCall D config (.getBlob key))
      (Conforms D config M (.getBlob key)) := by
  have hkeys : ∀ key' ∈ (StoreCall.getBlob key).keys, ValidKey key' := by
    simpa [StoreCall.keys] using valid_of_placeOf hplace
  obtain ⟨hprovider, hbucket⟩ := placeOf_eq_ok.mp hplace
  have hcontents := h.contents key place hplace
  simp only [storeCall, getBlob, hprovider]
  refine ensures_bind.mpr (ensures_request.mpr fun reply s' hprompt => ?_)
  obtain ⟨rfl, ⟨output, chunks, rfl, hchunks, hobject⟩ | ⟨hnone, text, rfl, hsaid⟩⟩ :=
    prompt_getObject hprompt
  · rw [← hbucket] at hobject
    have hM : M key = some chunks.flatten := hcontents.symm.trans hobject
    have hread : collectStorageStream ⟨bodyStream "stream" key output.body, none⟩ =
        .ok chunks.flatten := by
      have hbody : bodyStream "stream" key output.body = chunks.map .ok := by
        rw [hchunks, bodyStream, List.map_map]
        rfl
      simp [collectStorageStream, hbody, Local.collectChunks_map_ok]
    refine ensures_ret.mpr (ensures_ret.mpr ((conforms_of_valid hkeys).mpr ?_))
    simp only [answerValid, hM, hread]
    exact ⟨trivial, h⟩
  · rw [← hbucket] at hnone
    have hM : M key = none := hcontents.symm.trans hnone
    simp only [hsaid, if_true]
    refine ensures_ret.mpr (ensures_ret.mpr ((conforms_of_valid hkeys).mpr ?_))
    simp only [answerValid, hM]
    exact ⟨trivial, h⟩

/-- What the metadata of a key say. -/
theorem headBlob_ensures (h : Represents config s M) (hplace : placeOf config key = .ok place) :
    Ensures Prompt s (headBlob config key) fun s' result => s' = s ∧
      result.map (Option.map keyAndSize) = .ok ((M key).map fun b => (key, some b.length)) := by
  obtain ⟨hprovider, hbucket⟩ := placeOf_eq_ok.mp hplace
  have hcontents := h.contents key place hplace
  simp only [headBlob, hprovider]
  refine ensures_request.mpr fun reply s' hprompt => ?_
  obtain ⟨rfl, ⟨output, content, rfl, hobject, hlength⟩ | ⟨hnone, text, rfl, hsaid⟩⟩ :=
    prompt_headObject hprompt
  · rw [← hbucket] at hobject
    have hM : M key = some content := hcontents.symm.trans hobject
    refine ensures_ret.mpr ⟨rfl, ?_⟩
    simp [Except.map, keyAndSize, hlength, reportedSize, hM]
  · rw [← hbucket] at hnone
    have hM : M key = none := hcontents.symm.trans hnone
    simp only [hsaid, if_true]
    refine ensures_ret.mpr ⟨rfl, ?_⟩
    simp [Except.map, hM]

theorem headBlob_conforms (h : Represents config s M) (hplace : placeOf config key = .ok place) :
    Ensures Prompt s (storeCall D config (.headBlob key))
      (Conforms D config M (.headBlob key)) := by
  have hkeys : ∀ key' ∈ (StoreCall.headBlob key).keys, ValidKey key' := by
    simpa [StoreCall.keys] using valid_of_placeOf hplace
  refine (headBlob_ensures h hplace).bind fun s' result hresult => ?_
  obtain ⟨rfl, hmetadata⟩ := hresult
  exact ensures_ret.mpr ((conforms_of_valid hkeys).mpr ⟨congrArg _ hmetadata, h⟩)

theorem blobExists_conforms (h : Represents config s M) (hplace : placeOf config key = .ok place) :
    Ensures Prompt s (storeCall D config (.blobExists key))
      (Conforms D config M (.blobExists key)) := by
  have hkeys : ∀ key' ∈ (StoreCall.blobExists key).keys, ValidKey key' := by
    simpa [StoreCall.keys] using valid_of_placeOf hplace
  refine ensures_bind.mpr ((headBlob_ensures h hplace).bind fun s' result hresult => ?_)
  obtain ⟨rfl, hmetadata⟩ := hresult
  cases result with
  | error e => cases hmetadata
  | ok metadata =>
    have hsome : metadata.isSome = (M key).isSome := by
      have hmap := congrArg Option.isSome (Except.ok.inj hmetadata)
      simpa using hmap
    refine ensures_ret.mpr (ensures_ret.mpr ((conforms_of_valid hkeys).mpr ⟨?_, h⟩))
    rw [hsome]
    rfl

theorem copyBlob_conforms {src dst : Str} {source : Place} (h : Represents config s M)
    (hsource : placeOf config src = .ok source) (hplace : placeOf config dst = .ok place)
    (hplain : PlainSource source.1 source.2) :
    Ensures Prompt s (storeCall D config (.copyBlob src dst))
      (Conforms D config M (.copyBlob src dst)) := by
  have hkeys : ∀ key' ∈ (StoreCall.copyBlob src dst).keys, ValidKey key' := by
    simp [StoreCall.keys, valid_of_placeOf hsource, valid_of_placeOf hplace]
  obtain ⟨hfrom, hbucket⟩ := placeOf_eq_ok.mp hsource
  obtain ⟨hto, hbucket'⟩ := placeOf_eq_ok.mp hplace
  have hcontents := h.contents src source hsource
  simp only [storeCall, copyBlob, hfrom, hto]
  refine ensures_bind.mpr (ensures_request.mpr fun reply s' hprompt => ?_)
  rw [show config.bucket ++ '/' :: source.2 = source.1 ++ '/' :: source.2 by rw [hbucket]]
    at hprompt
  rcases prompt_copyObject hplain hprompt with ⟨b, hobject, rfl, rfl⟩ |
    ⟨hnone, rfl, text, rfl, hsaid⟩
  · have hM : M src = some b := hcontents.symm.trans hobject
    refine ensures_ret.mpr (ensures_ret.mpr ((conforms_of_valid hkeys).mpr ?_))
    simp only [answerValid, hM]
    refine ⟨trivial, h.put hplace _ ?_ h.supplied⟩
    rw [Store.put_objects, ← hbucket']
  · have hM : M src = none := hcontents.symm.trans hnone
    simp only [hsaid, if_true]
    refine ensures_ret.mpr (ensures_ret.mpr ((conforms_of_valid hkeys).mpr ?_))
    simp only [answerValid, hM]
    exact ⟨trivial, h⟩

theorem deleteBlob_conforms (h : Represents config s M) (hplace : placeOf config key = .ok place) :
    Ensures Prompt s (storeCall D config (.deleteBlob key))
      (Conforms D config M (.deleteBlob key)) := by
  have hkeys : ∀ key' ∈ (StoreCall.deleteBlob key).keys, ValidKey key' := by
    simpa [StoreCall.keys] using valid_of_placeOf hplace
  obtain ⟨hprovider, hbucket⟩ := placeOf_eq_ok.mp hplace
  simp only [storeCall, deleteBlob, hprovider]
  refine ensures_bind.mpr (ensures_request.mpr fun reply s' hprompt => ?_)
  obtain ⟨rfl, rfl⟩ := prompt_deleteObject hprompt
  refine ensures_ret.mpr (ensures_ret.mpr ((conforms_of_valid hkeys).mpr ⟨rfl, ?_⟩))
  refine h.put hplace none ?_ h.supplied
  rw [Store.put_objects, ← hbucket]

/-- A copy that names a key that is not valid makes no request. -/
theorem copyBlob_invalid {src dst : Str} (h : Represents config s M) (husable : PrefixUsable config)
    (hnot : ¬ ValidKey src ∨ ValidKey src ∧ ¬ ValidKey dst) :
    Ensures Prompt s (storeCall D config (.copyBlob src dst))
      (Conforms D config M (.copyBlob src dst)) := by
  obtain ⟨key, rfl, hserve⟩ := serve_copyBlob_of_invalid (D := D) (M := M) hnot
  unfold Conforms
  rw [hserve]
  rcases hnot with hsrc | ⟨hsrc, hdst⟩
  · simp only [storeCall, copyBlob, providerKey_of_not_valid config hsrc, if_neg hsrc]
    exact ensures_ret.mpr ⟨rfl, h⟩
  · obtain ⟨source, hsource⟩ := exists_placeOf husable hsrc
    simp only [storeCall, copyBlob, (placeOf_eq_ok.mp hsource).1,
      providerKey_of_not_valid config hdst, if_pos hsrc]
    exact ensures_ret.mpr ⟨rfl, h⟩

/-- Every call does what the service does. -/
theorem storeCall_conforms (husable : PrefixUsable config) (h : Represents config s M)
    {q : StoreCall} (hlimits : StoreLimits config M q) :
    Ensures Prompt s (storeCall D config q) (Conforms D config M q) := by
  obtain ⟨hsize, hcopy⟩ := hlimits
  by_cases hvalid : ∀ key ∈ q.keys, ValidKey key
  · have hplaces : ∀ key ∈ q.keys, ∃ place, placeOf config key = .ok place :=
      fun key hkey => exists_placeOf husable (hvalid key hkey)
    cases q with
    | putBlob key body options =>
      obtain ⟨place, hplace⟩ := hplaces key (by simp [StoreCall.keys])
      exact putBlob_conforms h hplace hsize
    | putBlobIfNotExists key body options =>
      obtain ⟨place, hplace⟩ := hplaces key (by simp [StoreCall.keys])
      exact putBlobIfNotExists_conforms h hplace hsize
    | getBlob key =>
      obtain ⟨place, hplace⟩ := hplaces key (by simp [StoreCall.keys])
      exact getBlob_conforms h hplace
    | headBlob key =>
      obtain ⟨place, hplace⟩ := hplaces key (by simp [StoreCall.keys])
      exact headBlob_conforms h hplace
    | blobExists key =>
      obtain ⟨place, hplace⟩ := hplaces key (by simp [StoreCall.keys])
      exact blobExists_conforms h hplace
    | copyBlob src dst =>
      obtain ⟨source, hsource⟩ := hplaces src (by simp [StoreCall.keys])
      obtain ⟨place, hplace⟩ := hplaces dst (by simp [StoreCall.keys])
      exact copyBlob_conforms h hsource hplace ((hcopy src dst rfl).2 source hsource)
    | deleteBlob key =>
      obtain ⟨place, hplace⟩ := hplaces key (by simp [StoreCall.keys])
      exact deleteBlob_conforms h hplace
  · cases q with
    | copyBlob src dst =>
      refine copyBlob_invalid h husable ?_
      by_cases hsrc : ValidKey src
      · exact Or.inr ⟨hsrc, fun hdst => hvalid (by simp [StoreCall.keys, hsrc, hdst])⟩
      · exact Or.inl hsrc
    | putBlob key | putBlobIfNotExists key | getBlob key | headBlob key | blobExists key
    | deleteBlob key =>
      exact storeCall_invalid h rfl fun hk => hvalid (by simp [StoreCall.keys, hk])

/-- The backend refines the service. -/
theorem does_refines (D : Digest) (husable : PrefixUsable config) :
    Refines (Does D config) (Represents config) (StoreLimits config) (serve D) Eq :=
  fun _ _ _ a s' h hlimits ⟨log, hrun⟩ => storeCall_conforms husable h hlimits log s' a hrun

theorem does_answers (D : Digest) (config : S3StorageConfig) (s : Store) (q : StoreCall) :
    ∃ a s', Does D config s q a s' := by
  obtain ⟨log, s', a, hrun⟩ := exists_run prompt_total (storeCall D config q) s
  exact ⟨a, s', log, hrun⟩

end Calls

end GraphqlOrmStorage.S3
