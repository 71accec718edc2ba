import IcecastCommon.Encoding.EmptyWrite

/- The loop that ends a stream: flush until nothing is pending. A call drains what is
   pending first, and when that succeeds it queues a chunk of its own, so how many
   terminating chunks there are depends on how the backend splits them. -/
namespace IcecastCommon.Encoding
open Library

/-! The loop. -/

/-- One call to flush, as its environment sees it. -/
structure FlushAttempt where
  answers : List Answer
  memExt : Bool
  memBuf : Bool

/-- `httpp_encoding_write(self, NULL, 0, cb, userdata)`. -/
def flushAttempt (c : FlushAttempt) (st : HttppEncoding × Bytes) : HttppEncoding × Bytes :=
  let (_, self, _, accepted) :=
    httppEncodingWrite c.memExt c.memBuf st.1 none (some backend) (c.answers, st.2)
  (self, accepted)

/-- The caller flushes until nothing is pending; `none` when these are not all of the
calls, or too many. -/
def flushLoop : List FlushAttempt → HttppEncoding × Bytes → Option (HttppEncoding × Bytes)
  | [], _ => none
  | c :: cs, st =>
    let st' := flushAttempt c st
    if httppEncodingPending st'.1 = 0 then if cs.isEmpty then some st' else none else flushLoop cs st'

/-- Behind what was pending there is one terminating chunk on the wire, with or without the
text of the queued metadata. -/
def OneTerminator (st st' : HttppEncoding × Bytes) : Prop :=
  ∃ memExt, st'.2 = produced st ++ endChunk (queuedText memExt st.1)

/-- The call finds nothing pending behind its first attempt, and memory for a chunk. -/
def Queues (c : FlushAttempt) (st : HttppEncoding × Bytes) : Prop :=
  Drains c.answers st.1 ∧ c.memBuf = true

instance (c : FlushAttempt) (st : HttppEncoding × Bytes) : Decidable (Queues c st) :=
  inferInstanceAs (Decidable (_ ≤ _ ∧ _))

/-- How many calls of the loop do. -/
def terminators : List FlushAttempt → HttppEncoding × Bytes → Nat
  | [], _ => 0
  | c :: cs, st => (if Queues c st then 1 else 0) + terminators cs (flushAttempt c st)

/-! The texts of the terminating chunks. -/

/-- The metadata `T` has gone into at most one of the texts; `T'` is what is still queued. -/
def Spent (T : Bytes) (texts : List Bytes) (T' : Bytes) : Prop :=
  texts.flatten = [] ∧ (T' = T ∨ T' = []) ∨ texts.flatten = T ∧ T' = []

theorem Spent.trans {T T' T'' : Bytes} {texts texts' : List Bytes} (h : Spent T texts T')
    (h' : Spent T' texts' T'') : Spent T (texts ++ texts') T'' := by
  unfold Spent at h h' ⊢
  rw [List.flatten_append]
  rcases h with ⟨hnone, rfl | rfl⟩ | ⟨hall, rfl⟩
  · rw [hnone]
    exact h'
  · rcases h' with ⟨hnone', h''⟩ | ⟨hnone', h''⟩
    · rw [hnone, hnone']
      exact Or.inl ⟨rfl, Or.inr (h''.elim id id)⟩
    · rw [hnone, hnone']
      exact Or.inl ⟨rfl, Or.inr h''⟩
  · have hnone' : texts'.flatten = [] := h'.elim And.left And.left
    have hnone'' : T'' = [] := h'.elim (fun h => h.2.elim id id) And.right
    rw [hall, hnone', List.append_nil]
    exact Or.inr ⟨rfl, hnone''⟩

/-- One call queues the terminating chunk that `Queues` says. -/
theorem flushAttempt_spec {W : Bytes} {st : HttppEncoding × Bytes} (H : Written W st) (c : FlushAttempt) :
    ∃ texts, Written (W ++ texts.flatMap endChunk) (flushAttempt c st) ∧
      texts.length = (if Queues c st then 1 else 0) ∧
      Spent (queuedText true st.1) texts (queuedText true (flushAttempt c st).1) := by
  obtain ⟨self, accepted⟩ := st
  obtain ⟨ret, self', answers', accepted', hwrite, hcases⟩ :=
    httppEncodingWrite_spec H c.answers c.memExt c.memBuf none
  obtain ⟨htaken, hkept⟩ := httppEncodingWrite_meta H hwrite
  have hst : flushAttempt c (self, accepted) = (self', accepted') := by
    simp only [flushAttempt, hwrite]
  rw [hst]
  have hleft : queuedText true self' = queuedText true self ∨ queuedText true self' = [] := by
    rw [queuedText, queuedText]
    by_cases hdrains : Drains c.answers self
    · rw [htaken hdrains]
      cases c.memExt
      · exact Or.inl rfl
      · exact Or.inr rfl
    · rw [hkept hdrains]
      exact Or.inl rfl
  rcases hcases with ⟨hno, _, H'⟩ | ⟨hyes, _, H'⟩
  · refine ⟨[], ?_, (if_neg hno).symm, Or.inl ⟨rfl, hleft⟩⟩
    rw [List.flatMap_nil, List.append_nil]
    exact H'
  · refine ⟨[queuedText c.memExt self], ?_, (if_pos hyes).symm, ?_⟩
    · rw [List.flatMap_singleton]
      exact H'
    · rw [Spent, List.flatten_singleton]
      cases hmem : c.memExt with
      | false => exact Or.inl ⟨if_neg Bool.false_ne_true, hleft⟩
      | true =>
        refine Or.inr ⟨rfl, ?_⟩
        rw [queuedText, htaken hyes.1, hmem]
        rfl

/-- The loop puts as many terminating chunks behind what was pending as calls queue one. -/
theorem flushLoop_spec {W : Bytes} {st st' : HttppEncoding × Bytes} (H : Written W st)
    {cs : List FlushAttempt} (h : flushLoop cs st = some st') :
    ∃ texts, st'.2 = W ++ texts.flatMap endChunk ∧ texts.length = terminators cs st ∧
      Spent (queuedText true st.1) texts (queuedText true st'.1) := by
  induction cs generalizing W st with
  | nil => cases h
  | cons c cs ih =>
    -- on the calls; the text of this one stands in front of those behind it
    obtain ⟨texts, H₁, hlen, hspent⟩ := flushAttempt_spec H c
    rw [flushLoop] at h
    rw [terminators]
    by_cases hpending : httppEncodingPending (flushAttempt c st).1 = 0
    · rw [if_pos hpending] at h
      cases cs with
      | cons d ds => cases h
      | nil =>
        obtain rfl := Option.some.inj h
        refine ⟨texts, ?_, hlen, hspent⟩
        rw [pending_eq, List.length_eq_zero_iff] at hpending
        have htotal := H₁.total
        rw [hpending, List.append_nil] at htotal
        exact htotal
    · rw [if_neg hpending] at h
      obtain ⟨texts', haccepted, hlen', hspent'⟩ := ih H₁ h
      refine ⟨texts ++ texts', ?_, ?_, hspent.trans hspent'⟩
      · rw [haccepted, List.flatMap_append, List.append_assoc]
      · rw [List.length_append, hlen, hlen']

/-! One terminating chunk. -/

theorem endChunk_length (text : Bytes) : (endChunk text).length = text.length + 7 := by
  have hzero : (printLx 0).length = 1 := by decide
  simp only [endChunk, List.length_append, hzero, crlf, List.length_cons, List.length_nil]
  omega

theorem endChunks_length (texts : List Bytes) :
    (texts.flatMap endChunk).length = texts.flatten.length + 7 * texts.length := by
  induction texts with
  | nil => rfl
  | cons text texts ih =>
    rw [List.flatMap_cons, List.length_append, ih, endChunk_length, List.flatten_cons, List.length_append,
      List.length_cons]
    omega

/-- A terminating chunk without a text is told from one with a text by its second byte. -/
theorem endChunk_second (t s s' : Bytes) : endChunk [] ++ s ≠ endChunk (semicolon :: t) ++ s' := by
  intro h
  have hsecond := congrArg (fun b : Bytes => b[1]?) h
  exact absurd hsecond (by
    show some cr ≠ some semicolon
    decide)

/-- Several terminating chunks are not one. -/
theorem endChunk_eq_iff {self : HttppEncoding} {T' : Bytes} {texts : List Bytes}
    (hspent : Spent (queuedText true self) texts T') :
    (∃ memExt, texts.flatMap endChunk = endChunk (queuedText memExt self)) ↔ texts.length = 1 := by
  have hfalse : queuedText false self = [] := by
    rw [queuedText]
    rfl
  have hflat : texts.flatten = [] ∨ texts.flatten = queuedText true self := hspent.imp And.left And.left
  constructor
  · rintro ⟨memExt, h⟩
    have hlen := congrArg List.length h
    rw [endChunks_length, endChunk_length] at hlen
    have hempty : texts.length = 0 → texts.flatten = [] := by
      intro hzero
      rw [List.length_eq_zero_iff.mp hzero]
      rfl
    cases memExt with
    | false =>
      rw [hfalse, List.length_nil] at hlen
      by_cases hzero : texts.length = 0
      · rw [hempty hzero, hzero] at hlen
        exact absurd hlen (by decide)
      · omega
    | true =>
      rcases hflat with hnone | hall
      · rcases queuedText_head true self with htext | ⟨t, htext⟩
        · rw [hnone, htext] at hlen
          rw [List.length_nil] at hlen
          omega
        · -- the first chunk would have to have the text and does not have it
          cases texts with
          | nil =>
            rw [List.length_nil, hnone, List.length_nil] at hlen
            omega
          | cons text texts =>
            obtain ⟨hfirst, _⟩ := List.append_eq_nil_iff.mp (List.flatten_cons.symm.trans hnone)
            rw [List.flatMap_cons, hfirst, htext, ← List.append_nil (endChunk (semicolon :: t))] at h
            exact absurd h (endChunk_second t _ _)
      · rw [hall] at hlen
        omega
  · intro hone
    obtain ⟨text, rfl⟩ := List.length_eq_one_iff.mp hone
    rw [List.flatten_singleton] at hflat
    rw [List.flatMap_singleton]
    rcases hflat with h | h
    · exact ⟨false, by rw [h, hfalse]⟩
    · exact ⟨true, by rw [h]⟩

/-- The loop leaves one terminating chunk on the wire exactly when one of its calls finds
nothing pending behind its first attempt and gets memory for the chunk. -/
theorem flush_loop {st st' : HttppEncoding × Bytes} {cs : List FlushAttempt}
    (hproc : st.1.process = .chunked) (hok : st.1.bufWriteEncoded.Ok) (h : flushLoop cs st = some st') :
    OneTerminator st st' ↔ terminators cs st = 1 := by
  have H : Written (produced st) st := ⟨hproc, hok, rfl⟩
  obtain ⟨texts, haccepted, hlen, hspent⟩ := flushLoop_spec H h
  rw [← hlen, ← endChunk_eq_iff hspent, OneTerminator, haccepted]
  simp only [List.append_cancel_left_eq]

/-- An encoder that has written one byte to the backend. -/
def oneWritten : HttppEncoding × Bytes := (httppEncodingNew .chunked, [49, 13, 10, 97, 13, 10])

theorem flush_loop_once : OneTerminator oneWritten (flushAttempt ⟨[.all], true, true⟩ oneWritten) := by
  have h : flushLoop [⟨[.all], true, true⟩] oneWritten =
      some (flushAttempt ⟨[.all], true, true⟩ oneWritten) := by decide
  exact (flush_loop rfl Buf.null_ok h).mpr (by decide)

/-- The backend takes three bytes of the terminating chunk and the others in the next call. -/
theorem flush_loop_twice : (∃ rets, writeNew [Data.call ⟨[97], List.cons_ne_nil _ _⟩] = some (rets, oneWritten)) ∧
    ∃ st', flushLoop [⟨[.accept 3], true, true⟩, ⟨[.all, .all], true, true⟩] oneWritten = some st' ∧
    st'.2 = [49, 13, 10, 97, 13, 10, 48, 13, 10, 13, 10, 13, 10, 48, 13, 10, 13, 10, 13, 10] ∧
    ¬ OneTerminator oneWritten st' := by
  refine ⟨⟨_, rfl⟩, _, rfl, by decide, ?_⟩
  intro ⟨memExt, h⟩
  cases memExt
  all_goals exact absurd h (by decide)

end IcecastCommon.Encoding
