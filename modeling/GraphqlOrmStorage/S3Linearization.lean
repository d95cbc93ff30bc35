import GraphqlOrmStorage.S3Interleaving

/-!
# Overlapping calls of the S3 backend have an order

An upload that a call has open belongs to it alone and holds the parts that the call has
sent. So a completion that is served stores the whole body, and each step of a pool is no
event or one event that its call is there to make. In every state that overlapping calls
reach there is an order of their events that leads to the objects of the server; and what
a call returned is explained by its events in that order.
-/
namespace GraphqlOrmStorage.S3

open Text Program Program.Prog

variable {D : Digest} {s s' : Store} {q : S3Phase} {c : S3Call} {reply : S3Call.Reply c}

/-! ### Uploads -/

/-- An upload in progress holds the parts sent so far. -/
def S3Phase.Holds (s : Store) (q : S3Phase) : Prop :=
  ∀ u sent, q.upload = some u → q.stage = .uploading sent →
    s.uploads u = .receiving (received sent)

/-- The calls have uploads of their own, which the server has issued. -/
structure OwnUploads (s : Store) (qs : List S3Phase) : Prop where
  holds : ∀ q ∈ qs, q.Holds s
  used : ∀ q ∈ qs, ∀ u, q.upload = some u → s.uploads u ≠ .unused
  distinct : qs.Pairwise fun q q' => ∀ u, q.upload = some u → q'.upload ≠ some u

/-- A call names no upload but its own. -/
theorem S3Phase.Issues.upload_eq (h : q.Issues c) {u : Upload} (hu : c.upload = some u) :
    q.upload = some u := by
  cases h <;> exact hu

theorem holds_without (h : q.upload = none) : q.Holds s := by
  intro u sent hu
  rw [h] at hu
  cases hu

/-- What a step does to the call's own upload. -/
theorem Answers.own_upload (ha : Answers s c reply s') (hq : q.Issues c) (hh : q.Holds s)
    (hu : ∀ u, q.upload = some u → s.uploads u ≠ .unused) :
    (q.advance c reply).Holds s' ∧
      ((q.advance c reply).upload = q.upload ∨
        ∃ u, (q.advance c reply).upload = some u ∧ s.uploads u = .unused ∧
          s'.uploads u ≠ .unused) := by
  cases hq with
  | putObject hbody hb hplace =>
    exact ⟨fun u sent _ hs => absurd hs publishStage_ne_uploading, Or.inl rfl⟩
  | create hbody hplace =>
    cases ha with
    | served h =>
      obtain ⟨uploadId, told, rfl, htold, hunused, rfl⟩ := h
      cases told with
      | none => exact ⟨holds_without rfl, Or.inl rfl⟩
      | some t =>
        obtain rfl : t = uploadId := htold t rfl
        refine ⟨fun u sent hu hs => ?_, Or.inr ⟨_, rfl, hunused, by simp⟩⟩
        obtain rfl := Option.some.inj hu
        obtain rfl : [] = sent := S3Stage.uploading.inj hs
        rw [Store.track_uploads, Function.update_self]
        rfl
    | lost text h _ _ => exact ⟨holds_without rfl, Or.inl rfl⟩
    | refused text _ => exact ⟨holds_without rfl, Or.inl rfl⟩
  | @part call u sent b =>
    cases ha with
    | served h =>
      obtain ⟨eTag, parts, rfl, hparts, rfl⟩ := h
      refine ⟨fun u' sent' hu' hs => ?_, Or.inl rfl⟩
      obtain rfl := Option.some.inj hu'
      obtain rfl : sent ++ [(b, eTag)] = sent' := S3Stage.uploading.inj hs
      have hreceived := hh u sent rfl rfl
      rw [hparts, UploadStatus.receiving.injEq] at hreceived
      rw [Store.track_uploads, Function.update_self, received_append, hreceived]
    | lost text h _ _ => exact ⟨fun u' sent' _ hs => (by cases hs), Or.inl rfl⟩
    | refused text _ => exact ⟨fun u' sent' _ hs => (by cases hs), Or.inl rfl⟩
  | complete hbody hb hplace =>
    exact ⟨fun u sent _ hs => absurd hs publishStage_ne_uploading, Or.inl rfl⟩
  | abort hstage => exact ⟨fun u sent _ hs => absurd hs (hstage sent), Or.inl rfl⟩
  | get _ | range _ _ | head _ _ | copy _ _ _ | delete _ =>
    cases reply with
    | ok output => exact ⟨holds_without rfl, Or.inl rfl⟩
    | error text => exact ⟨holds_without rfl, Or.inl rfl⟩

theorem OwnUploads.step {before after : List S3Phase} (h : OwnUploads s (before ++ q :: after))
    (hq : q.Issues c) (ha : Answers s c reply s') :
    OwnUploads s' (before ++ q.advance c reply :: after) := by
  obtain ⟨hholds, hused, hdistinct⟩ := h
  obtain ⟨hown, hupload⟩ := ha.own_upload hq (hholds q (by simp)) (hused q (by simp))
  rw [List.pairwise_middle fun h u hu' hu => h u hu hu', List.pairwise_cons] at hdistinct
  have hother : ∀ o ∈ before ++ after, ∀ u, o.upload = some u →
      s'.uploads u = s.uploads u := fun o ho u hu =>
    ha.uploads_other (fun hc => hdistinct.1 o ho u (hq.upload_eq hc) hu)
      (hused o (by
        simp only [List.mem_append, List.mem_cons] at ho ⊢
        tauto) u hu)
  have hsplit : ∀ {o : S3Phase}, o ∈ before ++ q.advance c reply :: after →
      o = q.advance c reply ∨ o ∈ before ++ after := by
    intro o ho
    simp only [List.mem_append, List.mem_cons] at ho ⊢
    tauto
  have hmem : ∀ {o : S3Phase}, o ∈ before ++ after → o ∈ before ++ q :: after := by
    intro o ho
    simp only [List.mem_append, List.mem_cons] at ho ⊢
    tauto
  refine ⟨fun o ho => ?_, fun o ho u hu => ?_, ?_⟩
  · rcases hsplit ho with rfl | ho
    · exact hown
    · intro u sent hu hs
      rw [hother o ho u hu]
      exact hholds o (hmem ho) u sent hu hs
  · rcases hsplit ho with rfl | ho
    · rcases hupload with heq | ⟨u', hu', _, hunused⟩
      · exact ha.uploads_used (hused q (by simp) u (heq ▸ hu))
      · rw [hu', Option.some.injEq] at hu
        exact hu ▸ hunused
    · rw [hother o ho u hu]
      exact hused o (hmem ho) u hu
  · rw [List.pairwise_middle fun h u hu' hu => h u hu hu', List.pairwise_cons]
    refine ⟨fun o ho u hu hu' => ?_, hdistinct.2⟩
    rcases hupload with heq | ⟨u₀, hu₀, hunused, _⟩
    · exact hdistinct.1 o ho u (heq ▸ hu) hu'
    · rw [hu₀, Option.some.injEq] at hu
      exact hused o (hmem ho) u hu' (hu ▸ hunused)

/-! ### Events -/

theorem makes_writeOf (call : Invocation) {body : StorageByteStream} {place : Place} {b : Bytes}
    (hbody : call.op.body = some body) (hb : body.body = .ok b)
    (hplace : placeOf call.config call.op.key = .ok place) :
    Makes call.config call.op (writeOf call place b) := by
  obtain ⟨config, op⟩ := call
  cases op with
  | putBlob key body' options =>
    obtain rfl := Option.some.inj hbody
    exact ⟨place, b, hplace, hb, rfl⟩
  | putBlobIfNotExists key body' options =>
    obtain rfl := Option.some.inj hbody
    exact ⟨place, b, hplace, hb, rfl⟩
  | getBlob | getBlobRange | headBlob | blobExists | copyBlob | deleteBlob => cases hbody

section Publishing

variable {call : Invocation} {upload : Option Upload} {place : Place} {b : Bytes} {text : Str}

theorem writeOf_effect (call : Invocation) (h : Condition s place (ifNoneMatch call.op.ifNotExists)) :
    (writeOf call place b).Effect s.objects (Function.update s.objects place (some b)) := by
  unfold writeOf
  cases hop : call.op.ifNotExists with
  | false => rfl
  | true => exact ⟨h (by simp [ifNoneMatch, hop]), rfl⟩

/-- The publishing request was served. -/
theorem publish_admits (hmakes : Makes call.config call.op (writeOf call place b)) :
    S3Phase.Admits ⟨call, upload,
      publishStage place b (ifNoneMatch call.op.ifNotExists) (.ok ())⟩
      [writeOf call place b] := by
  refine ⟨_, ?_, Or.inl hmakes, rfl⟩
  cases hop : call.op.ifNotExists <;> simp [ifNoneMatch, writeOf, hop]

/-- It was served and its reply was lost. -/
theorem publish_lost_admits (hsaid : saysCondition text = false)
    (hmakes : Makes call.config call.op (writeOf call place b)) : S3Phase.Admits ⟨call, upload,
      publishStage place b (ifNoneMatch call.op.ifNotExists) (.error text)⟩
      [writeOf call place b] := by
  simp only [publishStage, hsaid, and_false, Bool.false_eq_true, if_false]
  exact Or.inr ⟨_, hmakes, rfl⟩

/-- It was refused, for its condition or otherwise. -/
theorem publish_refused (call : Invocation) (upload : Option Upload) (b : Bytes)
    (hplace : placeOf call.config call.op.key = .ok place)
    (htruth : saysCondition text = true → call.op.ifNotExists = true → s.objects place ≠ none) :
    S3Phase.Admits ⟨call, upload,
      publishStage place b (ifNoneMatch call.op.ifNotExists) (.error text)⟩ [] ∨
    ∃ e : BlobChange, e.Effect s.objects s.objects ∧ S3Phase.Admits ⟨call, upload,
      publishStage place b (ifNoneMatch call.op.ifNotExists) (.error text)⟩ [e] := by
  by_cases hcond : ifNoneMatch call.op.ifNotExists ≠ none ∧ saysCondition text
  · have hop : call.op.ifNotExists = true := by
      by_contra hop
      simp [ifNoneMatch, hop] at hcond
    obtain ⟨content, hcontent⟩ := Option.ne_none_iff_exists'.mp (htruth hcond.2 hop)
    refine Or.inr ⟨.saw place (some content), ⟨hcontent, rfl⟩, ?_⟩
    simp only [publishStage, if_pos hcond]
    exact ⟨_, ⟨content, rfl⟩, Or.inr ⟨_, call.op.key_mem, place, _, hplace, rfl⟩, rfl⟩
  · simp only [publishStage, if_neg hcond]
    exact Or.inl (Or.inl rfl)

/-- A reading request was refused. -/
theorem missing_refused {key : Str} (hkey : key ∈ call.op.keys)
    (hplace : placeOf call.config key = .ok place)
    (htruth : isMissingError text = true → s.objects place = none) :
    S3Phase.Admits ⟨call, upload, missingStage (some place) text⟩ [] ∨
    ∃ e : BlobChange, e.Effect s.objects s.objects ∧
      S3Phase.Admits ⟨call, upload, missingStage (some place) text⟩ [e] := by
  by_cases hm : isMissingError text
  · refine Or.inr ⟨.saw place none, ⟨htruth hm, rfl⟩, ?_⟩
    simp only [missingStage, if_pos hm]
    exact ⟨_, ⟨place, rfl, rfl⟩, Or.inr ⟨key, hkey, place, _, hplace, rfl⟩, rfl⟩
  · simp only [missingStage, if_neg hm]
    exact Or.inl (Or.inl rfl)

end Publishing

/-- What a step does to the objects: nothing that counts, or one event of the call. -/
def Steps (s s' : Store) (q' : S3Phase) (events : List BlobChange) : Prop :=
  (s'.objects = s.objects ∧ q'.Admits events) ∨
    ∃ e : BlobChange, e.Effect s.objects s'.objects ∧ q'.Admits (events ++ [e])

/-- A reading request that fails. -/
theorem steps_missing {call : Invocation} {upload : Option Upload} {place : Place} {text : Str}
    (key : Str) (hkey : key ∈ call.op.keys) (hplace : placeOf call.config key = .ok place)
    (htruth : isMissingError text = true → s.objects place = none) :
    Steps s s ⟨call, upload, missingStage (some place) text⟩ [] := by
  rcases missing_refused hkey hplace htruth with h | ⟨e, heff, hadm⟩
  · exact Or.inl ⟨rfl, h⟩
  · exact Or.inr ⟨e, heff, hadm⟩

/-- A reading request whose reply was lost. -/
theorem steps_unread {call : Invocation} {upload : Option Upload} {place : Option Place}
    {text : Str} (hobjects : s'.objects = s.objects) (hm : isMissingError text = false) :
    Steps s s' ⟨call, upload, missingStage place text⟩ [] := by
  refine Or.inl ⟨hobjects, ?_⟩
  simp only [missingStage, hm, Bool.false_eq_true, if_false]
  exact Or.inl rfl

theorem Answers.steps (ha : Answers s c reply s') (hq : q.Issues c) (hh : q.Holds s)
    {events : List BlobChange} (he : q.Admits events) : Steps s s' (q.advance c reply) events := by
  cases hq with
  | @putObject config op body b bucket object contentType hbody hb hplace =>
    obtain rfl : events = [] := he
    have hmakes := makes_writeOf ⟨config, op⟩ hbody hb hplace
    cases ha with
    | served h =>
      obtain ⟨rfl, hcond, rfl⟩ := h
      exact Or.inr ⟨_, writeOf_effect ⟨config, op⟩ hcond, publish_admits hmakes⟩
    | lost text h _ hsaid =>
      obtain ⟨_, hcond, rfl⟩ := h
      exact Or.inr ⟨_, writeOf_effect ⟨config, op⟩ hcond,
        publish_lost_admits hsaid hmakes⟩
    | refused text htruth =>
      have hrefused : saysCondition text = true → op.ifNotExists = true →
          s.objects (bucket, object) ≠ none := fun hsaid hop =>
        htruth.2 hsaid _ (by simp [S3Call.creates, ifNoneMatch, hop])
      rcases publish_refused ⟨config, op⟩ none b hplace hrefused with
        h | ⟨e, heff, hadm⟩
      · exact Or.inl ⟨rfl, h⟩
      · exact Or.inr ⟨e, heff, hadm⟩
  | @complete config op body u sent hbody hb hplace =>
    obtain rfl : events = [] := he
    have hmakes := makes_writeOf ⟨config, op⟩ hbody hb hplace
    have hserved : ∀ {reply'}, Served s (.completeMultipartUpload u.bucket u.key u.uploadId
        (completedParts partNumber 0 sent) (ifNoneMatch op.ifNotExists)) reply' s' →
        (writeOf ⟨config, op⟩ (u.bucket, u.key) (partBytes sent)).Effect s.objects s'.objects := by
      intro reply' h
      obtain ⟨parts, content, _, hparts, hasc, hassembled, hcond, rfl⟩ := h
      have hreceived := hh u sent rfl rfl
      rw [hparts, UploadStatus.receiving.injEq] at hreceived
      rw [hreceived, received, assembled_receivedFrom 0 sent _ hasc, Option.some.injEq]
        at hassembled
      rw [← hassembled]
      exact writeOf_effect ⟨config, op⟩ hcond
    cases ha with
    | served h =>
      have heff := hserved h
      obtain ⟨parts, content, rfl, _⟩ := h
      exact Or.inr ⟨_, heff, publish_admits hmakes⟩
    | lost text h _ hsaid => exact Or.inr ⟨_, hserved h, publish_lost_admits hsaid hmakes⟩
    | refused text htruth =>
      have hrefused : saysCondition text = true → op.ifNotExists = true →
          s.objects (u.bucket, u.key) ≠ none := fun hsaid hop =>
        htruth.2 hsaid _ (by simp [S3Call.creates, ifNoneMatch, hop])
      rcases publish_refused ⟨config, op⟩ (some u) (partBytes sent)
        hplace hrefused with h | ⟨e, heff, hadm⟩
      · exact Or.inl ⟨rfl, h⟩
      · exact Or.inr ⟨e, heff, hadm⟩
  | create hbody hplace =>
    obtain rfl : events = [] := he
    cases ha with
    | served h =>
      obtain ⟨uploadId, told, rfl, _, _, rfl⟩ := h
      cases told with
      | none => exact Or.inl ⟨rfl, Or.inl rfl⟩
      | some t => exact Or.inl ⟨rfl, rfl⟩
    | lost text h _ _ =>
      obtain ⟨uploadId, told, _, _, _, rfl⟩ := h
      exact Or.inl ⟨rfl, Or.inl rfl⟩
    | refused text _ => exact Or.inl ⟨rfl, Or.inl rfl⟩
  | part =>
    obtain rfl : events = [] := he
    cases ha with
    | served h =>
      obtain ⟨eTag, parts, rfl, _, rfl⟩ := h
      exact Or.inl ⟨rfl, rfl⟩
    | lost text h _ _ =>
      obtain ⟨eTag, parts, _, _, rfl⟩ := h
      exact Or.inl ⟨rfl, Or.inl rfl⟩
    | refused text _ => exact Or.inl ⟨rfl, Or.inl rfl⟩
  | abort hstage =>
    cases ha with
    | served h =>
      obtain ⟨_, rfl⟩ := h
      exact Or.inl ⟨rfl, he⟩
    | lost text h _ _ =>
      obtain ⟨_, rfl⟩ := h
      exact Or.inl ⟨rfl, he⟩
    | refused text _ => exact Or.inl ⟨rfl, he⟩
  | get hplace =>
    obtain rfl : events = [] := he
    cases ha with
    | served h =>
      obtain ⟨content, output, rfl, hcontent, hholds, rfl⟩ := h
      exact Or.inr ⟨.saw _ (some content), ⟨hcontent, rfl⟩, _, ⟨content, rfl, hholds⟩,
        Or.inr ⟨_, S3Op.key_mem _, _, _, hplace, rfl⟩, rfl⟩
    | lost text h hm _ =>
      obtain ⟨content, output, _, _, _, rfl⟩ := h
      exact steps_unread rfl hm
    | refused text htruth =>
      exact steps_missing _ (S3Op.key_mem _) hplace fun hm => htruth.1 hm _ rfl
  | range hplace hlt =>
    obtain rfl : events = [] := he
    cases ha with
    | served h =>
      obtain ⟨content, output, rfl, hcontent, rfl, hholds⟩ := h
      exact Or.inr ⟨.saw _ (some content), ⟨hcontent, rfl⟩, _, ⟨content, rfl, hholds⟩,
        Or.inr ⟨_, S3Op.key_mem _, _, _, hplace, rfl⟩, rfl⟩
    | lost text h hm _ =>
      obtain ⟨content, output, _, _, rfl, _⟩ := h
      exact steps_unread rfl hm
    | refused text htruth =>
      exact steps_missing _ (S3Op.key_mem _) hplace fun hm => htruth.1 hm _ rfl
  | head hop hplace =>
    obtain rfl : events = [] := he
    cases ha with
    | served h =>
      obtain ⟨content, output, rfl, hcontent, hlength, rfl⟩ := h
      exact Or.inr ⟨.saw _ (some content), ⟨hcontent, rfl⟩, _, ⟨content, rfl, hlength⟩,
        Or.inr ⟨_, S3Op.key_mem _, _, _, hplace, rfl⟩, rfl⟩
    | lost text h hm _ =>
      obtain ⟨content, output, _, _, _, rfl⟩ := h
      exact steps_unread rfl hm
    | refused text htruth =>
      exact steps_missing _ (S3Op.key_mem _) hplace fun hm => htruth.1 hm _ rfl
  | @copy config src dst bucket object bucket' object' hsrc hdst hplain =>
    obtain rfl : events = [] := he
    have hreads : S3Call.reads (.copyObject bucket' object' (bucket ++ '/' :: object)) =
        some (bucket, object) := by
      rw [S3Call.reads, readCopySource_eq_self_iff.mpr hplain]
    have hserved : ∀ {reply'}, Served s (.copyObject bucket' object' (bucket ++ '/' :: object))
        reply' s' → (MapEvent.copied (bucket, object) (bucket', object') : BlobChange).Effect
          s.objects s'.objects := by
      intro reply' h
      obtain ⟨source, content, _, hsource, hcontent, rfl⟩ := h
      rw [readCopySource_eq_self_iff.mpr hplain, Option.some.injEq] at hsource
      subst hsource
      exact ⟨content, hcontent rfl, rfl⟩
    cases ha with
    | served h =>
      have heff := hserved h
      obtain ⟨source, content, rfl, _⟩ := h
      exact Or.inr ⟨_, heff, _, ⟨_, hreads, rfl⟩, Or.inl ⟨_, _, hsrc, hdst, rfl⟩, rfl⟩
    | lost text h hm _ =>
      refine Or.inr ⟨_, hserved h, ?_⟩
      have hspent : missingStage (S3Call.reads (.copyObject bucket' object'
          (bucket ++ '/' :: object))) text = .spent := by
        simp [missingStage, hm]
      show S3Phase.Admits ⟨_, _, missingStage _ text⟩ _
      rw [hspent]
      exact Or.inr ⟨_, ⟨_, _, hsrc, hdst, rfl⟩, rfl⟩
    | refused text htruth =>
      show Steps s s ⟨_, _, missingStage _ text⟩ []
      rw [hreads]
      exact steps_missing src List.mem_cons_self hsrc fun hm => htruth.1 hm _ hreads
  | delete hplace =>
    obtain rfl : events = [] := he
    cases ha with
    | served h =>
      obtain ⟨rfl, rfl⟩ := h
      exact Or.inr ⟨.erased _, rfl, _, rfl, Or.inl ⟨_, hplace, rfl⟩, rfl⟩
    | lost text h _ _ =>
      obtain ⟨_, rfl⟩ := h
      exact Or.inr ⟨.erased _, rfl, Or.inr ⟨_, ⟨_, hplace, rfl⟩, rfl⟩⟩
    | refused text _ => exact Or.inl ⟨rfl, Or.inl rfl⟩

/-! ### Pools of calls -/

/-- One request of one call. -/
abbrev Runs : Store × List S3Thread → Store × List S3Thread → Prop :=
  Reach s3Discipline.next Answers fun _ _ _ => True

theorem S3Phase.advance_call (q : S3Phase) (c : S3Call) (reply : S3Call.Reply c) :
    (q.advance c reply).call = q.call := by
  unfold S3Phase.advance
  split <;> first | rfl | (split <;> rfl)

/-- A call is at most one event, which leads from the objects of the server to others. -/
def explanation (D : Digest) :
    Explanation S3Phase Store S3Result (Place → Option Bytes) BlobChange Invocation where
  callOf := S3Phase.call
  abs := Store.objects
  effect := MapEvent.Effect
  fits call events := events.length ≤ 1 ∧ ∀ e ∈ events, Fits call.config call.op e
  explains call := Explains D call.config call.op

theorem S3Phase.Admits.fits {events : List BlobChange} (h : q.Admits events) :
    events.length ≤ 1 ∧ ∀ e ∈ events, Fits q.call.config q.call.op e := by
  obtain ⟨call, upload, stage⟩ := q
  cases stage with
  | idle | uploading sent =>
    obtain rfl : events = [] := h
    simp
  | spent =>
    rcases h with rfl | ⟨e, hmakes, rfl⟩
    · simp
    · exact ⟨le_rfl, fun e' he' => List.mem_singleton.mp he' ▸ Or.inl hmakes⟩
  | settled agrees =>
    obtain ⟨e, _, hfits, rfl⟩ := h
    exact ⟨le_rfl, fun e' he' => List.mem_singleton.mp he' ▸ hfits⟩

theorem explanation_sound (D : Digest) : (explanation D).Sound s3Discipline Answers OwnUploads
    (fun _ => S3Phase.Admits) (Settles D) where
  label := S3Phase.advance_call
  keeps _ _ _ _ _ _ _ h hq ha := h.step hq ha
  event _ _ _ _ q _ _ h hq ha _ he := ha.steps hq (h.holds q (by simp)) he
  others _ _ _ _ _ _ _ _ _ _ _ _ _ he := he
  fits _ _ _ he := he.fits
  explains _ _ _ _ hsettles he := hsettles _ he

theorem calls_start (D : Digest) {calls : List Invocation} (hplain : ∀ call ∈ calls, call.Plain) :
    (explanation D).Starts s3Discipline (fun _ => S3Phase.Admits) (Settles D)
      (Invocation.start D) calls where
  callOf _ := rfl
  admits_iff _ _ _ := Iff.rfl
  follows call hcall := invocation_follows D call (hplain call hcall)

theorem ownUploads_start (D : Digest) (calls : List Invocation) (s : Store) :
    OwnUploads s (calls.map fun call => (call.start D).phase) := by
  have hnone : ∀ q ∈ calls.map fun call => (call.start D).phase, q.upload = none := by
    intro q hq
    obtain ⟨call, _, rfl⟩ := List.mem_map.mp hq
    rfl
  refine ⟨fun q hq => holds_without (hnone q hq), fun q hq u hu => ?_, ?_⟩
  · rw [hnone q hq] at hu
    cases hu
  · refine List.pairwise_of_forall_mem_list fun q hq q' _ u hu => ?_
    rw [hnone q hq] at hu
    cases hu

/-- The order explains what the calls have done since the server was in the state `s`. -/
abbrev Ordered (D : Digest) (calls : List Invocation) (s : Store) :
    List (ℕ × BlobChange) → Store × List S3Thread → Prop :=
  OrderedAs (explanation D) (Invocation.start D) calls s.objects

/-- An order for one state. -/
theorem Runs.ordered {calls : List Invocation} (hplain : ∀ call ∈ calls, call.Plain)
    {y : Store × List S3Thread} (hy : Runs (s, calls.map (Invocation.start D)) y) :
    ∃ order, Ordered D calls s order y := by
  obtain ⟨order, _, h, _⟩ := (explanation_sound D).ordered (calls_start D hplain)
    (ownUploads_start D calls s) hy .refl
  exact ⟨order, h⟩

/-- An event of an order is one that its call can be. -/
theorem fits_of_ordered {calls : List Invocation} {order : List (ℕ × BlobChange)}
    {y : Store × List S3Thread} (h : Ordered D calls s order y) {e : ℕ × BlobChange}
    (he : e ∈ order) : ∃ call, calls[e.1]? = some call ∧ Fits call.config call.op e.2 := by
  obtain ⟨call, events, hcall, hfits, hmem⟩ := h.of_mem he
  exact ⟨call, hcall, hfits.2 _ hmem⟩

/-- Single puts, whole reads and deletions are served; every other request is refused. -/
def serveWhole : (c : S3Call) → Store → S3Call.Reply c × Store
  | .putObject bucket key body _ none, s => (.ok (), s.put (bucket, key) (some body))
  | .putObject bucket key body _ (some _), s =>
    match s.objects (bucket, key) with
    | none => (.ok (), s.put (bucket, key) (some body))
    | some _ => (.error "PreconditionFailed".toList, s)
  | .getObject bucket key none, s =>
    match s.objects (bucket, key) with
    | some content => (.ok ⟨some content.length, none, [.ok content]⟩, s)
    | none => (.error "NoSuchKey".toList, s)
  | .deleteObject bucket key, s => (.ok (), s.put (bucket, key) none)
  | c, s => (failed [] c, s)

theorem truthful_empty (s : Store) (c : S3Call) : Truthful s c [] :=
  ⟨fun h => absurd h (by decide), fun h => absurd h (by decide)⟩

theorem serveWhole_answers (s : Store) (c : S3Call) :
    Answers s c (serveWhole c s).1 (serveWhole c s).2 := by
  cases c with
  | putObject bucket key body contentType ifNoneMatch =>
    cases ifNoneMatch with
    | none => exact .served ⟨rfl, fun h => absurd rfl h, rfl⟩
    | some value =>
      cases hs : s.objects (bucket, key) with
      | none =>
        simp only [serveWhole, hs]
        exact .served ⟨rfl, fun _ => hs, rfl⟩
      | some content =>
        simp only [serveWhole, hs]
        refine .refused (c := .putObject bucket key body contentType (some value)) _
          ⟨fun h => absurd h (by decide), fun _ place hplace => ?_⟩
        rw [← Option.some.inj hplace, hs]
        simp
  | getObject bucket key range =>
    cases range with
    | some range => exact .refused [] (truthful_empty s _)
    | none =>
      cases hs : s.objects (bucket, key) with
      | some content =>
        simp only [serveWhole, hs]
        refine .served ⟨content, _, rfl, hs, ⟨fun chunks hchunks => ?_, by simp⟩, rfl⟩
        have hone : chunks = [content] := by
          rw [show ([.ok content] : List (Except Str Bytes)) = [content].map .ok from rfl] at hchunks
          exact (List.map_injective_iff.mpr (fun a b h => Except.ok.inj h) hchunks).symm
        simp [hone]
      | none =>
        simp only [serveWhole, hs]
        refine .refused (c := .getObject bucket key none) _
          ⟨fun _ place hplace => ?_, fun h => absurd h (by decide)⟩
        rw [← Option.some.inj hplace, hs]
  | deleteObject bucket key => exact .served ⟨rfl, rfl⟩
  | createMultipartUpload | uploadPart | completeMultipartUpload | abortMultipartUpload
  | headObject | copyObject => exact .refused [] (truthful_empty s _)

/-- No objects, and no upload was ever issued. -/
def emptyStore : Store := ⟨fun _ => none, fun _ => .unused⟩

/-- A schedule is executed request by request. -/
theorem serveWhole_runs (x : Store × List S3Thread) (schedule : List ℕ) :
    Runs x (runSchedule s3Discipline.next serveWhole x schedule) := by
  refine runSchedule_reach serveWhole_answers ?_
  induction schedule generalizing x with
  | nil => trivial
  | cons i rest ih => exact ⟨fun _ _ => trivial, ih _⟩

/-- A put, a read and a conditional put of one key. -/
def sampleCalls : List Invocation :=
  [⟨⟨"b".toList, none⟩, .putBlob "k".toList (.fromBytes [1]) ⟨none⟩⟩,
    ⟨⟨"b".toList, none⟩, .getBlob "k".toList⟩,
    ⟨⟨"b".toList, none⟩, .putBlobIfNotExists "k".toList (.fromBytes [2]) ⟨none⟩⟩]

/-- The calls on an empty server, after the requests of a schedule. -/
def sampleRun (schedule : List ℕ) : Store × List S3Thread :=
  runSchedule s3Discipline.next serveWhole
    (emptyStore, sampleCalls.map (Invocation.start Digest.sha256)) schedule

theorem sampleCalls_plain : ∀ call ∈ sampleCalls, call.Plain := by
  intro call hcall src dst hop
  simp only [sampleCalls, List.mem_cons, List.not_mem_nil, or_false] at hcall
  rcases hcall with rfl | rfl | rfl <;> cases hop

end GraphqlOrmStorage.S3
