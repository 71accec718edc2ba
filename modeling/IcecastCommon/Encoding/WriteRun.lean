import IcecastCommon.Encoding.Write
import IcecastCommon.Encoding.Stream
import IcecastCommon.Library.Calls

/- Runs of `httpp_encoding_write` against a backend that may take any part of what it is
   offered. `Written` is the invariant: the bytes taken and the bytes pending are the
   chunks written so far. -/
namespace IcecastCommon.Encoding
open Library

/-! Calls. -/

/-- What the backend does when it is offered bytes. -/
inductive Answer where
  | fail
  | accept (n : Nat)
  | all

/-- The backend: its userdata are the answers to come and the bytes it took. -/
def backend : WriteCallback (List Answer × Bytes) := fun offered (answers, accepted) =>
  match answers with
  | .accept n :: answers =>
    let k := min n offered.length
    (k, answers, accepted ++ offered.take k)
  | .all :: answers => (offered.length, answers, accepted ++ offered)
  | .fail :: answers => (-1, answers, accepted)
  | [] => (-1, [], accepted)

/-- A call on an encoder; the allocations of a call to write may fail. -/
inductive WriteCall where
  | data (buf : Bytes) (nonempty : buf ≠ []) (answers : List Answer) (memExt memBuf : Bool)
  | flush (answers : List Answer) (memExt memBuf : Bool)
  | appendMeta (new : List HttppMeta)

/-- A call; the state has the bytes the backend took. -/
def writeStep (c : WriteCall) (st : HttppEncoding × Bytes) :
    Option (Int × (HttppEncoding × Bytes)) :=
  match c with
  | .data buf _ answers memExt memBuf =>
    let (ret, self, _, accepted) :=
      httppEncodingWrite memExt memBuf st.1 (some buf) (some backend) (answers, st.2)
    some (ret, self, accepted)
  | .flush answers memExt memBuf =>
    let (ret, self, _, accepted) :=
      httppEncodingWrite memExt memBuf st.1 none (some backend) (answers, st.2)
    some (ret, self, accepted)
  | .appendMeta new => some (0, httppEncodingAppendMeta st.1 new, st.2)

def writeNew (calls : List WriteCall) : Option (List Int × (HttppEncoding × Bytes)) :=
  runCalls writeStep calls (httppEncodingNew .chunked, [])

/-! What the calls write. -/

/-- The extension text of the queued metadata, if there is memory for it. -/
def queuedText (memExt : Bool) (self : HttppEncoding) : Bytes :=
  if memExt = true then cString (self.metaWrite.flatMap writeExtension) else []

/-- `hexlen extensions CRLF data CRLF`. -/
def dataChunk (text data : Bytes) : Bytes :=
  printLx data.length ++ text ++ crlf ++ data ++ crlf

/-- The chunk a flush writes. -/
def endChunk (text : Bytes) : Bytes := printLx 0 ++ text ++ crlf ++ (crlf ++ crlf)

/-- What a call in a state contributes to the output, by the number it returned: a data
call that returned a positive number its chunk, a flush that found nothing pending behind
its first attempt the terminating chunk. -/
def contribution (c : WriteCall) (st : HttppEncoding × Bytes) (ret : Int) : Bytes :=
  match c with
  | .data buf _ _ memExt _ =>
    if 0 < ret then dataChunk (queuedText memExt st.1) (buf.take ret.toNat) else []
  | .flush answers memExt memBuf =>
    let (self, _) := flushOutput st.1 (some backend) (answers, st.2)
    if httppEncodingPending self = 0 ∧ memBuf = true then endChunk (queuedText memExt st.1) else []
  | .appendMeta _ => []

/-- The contributions of a sequence of calls. -/
def contributions : List WriteCall → HttppEncoding × Bytes → Bytes
  | [], _ => []
  | c :: calls, st =>
    match writeStep c st with
    | none => []
    | some (ret, st') => contribution c st ret ++ contributions calls st'

/-! The invariant. -/

/-- The bytes taken and the bytes pending are `W`. -/
structure Written (W : Bytes) (st : HttppEncoding × Bytes) : Prop where
  chunked : st.1.process = .chunked
  ok : st.1.bufWriteEncoded.Ok
  total : st.2 ++ st.1.bufWriteEncoded.rest = W

theorem pending_eq (self : HttppEncoding) :
    httppEncodingPending self = self.bufWriteEncoded.rest.length := by
  unfold httppEncodingPending
  rw [Buf.rest_length]
  split_ifs with h
  · simp only [Buf.left, Buf.len, h, Option.getD_none, List.length_nil, Nat.zero_sub]
  · rfl

/-! One attempt to flush. -/

/-- What the backend takes when it is offered `k` bytes next. -/
def firstTaken (answers : List Answer) (k : Nat) : Nat :=
  match answers with
  | .accept n :: _ => min n k
  | .all :: _ => k
  | _ => 0

/-- The next answer takes everything that is pending. -/
def Drains (answers : List Answer) (self : HttppEncoding) : Prop :=
  httppEncodingPending self ≤ firstTaken answers (httppEncodingPending self)

theorem firstTaken_le (answers : List Answer) (k : Nat) : firstTaken answers k ≤ k := by
  unfold firstTaken
  split
  · exact Nat.min_le_right _ k
  · exact Nat.le_refl k
  · exact Nat.zero_le k

theorem flushOutput_frame {σ : Type} (self : HttppEncoding) (cb : Option (WriteCallback σ)) (userdata : σ) :
    (flushOutput self cb userdata).1.metaWrite = self.metaWrite ∧
      (flushOutput self cb userdata).1.process = self.process := by
  unfold flushOutput
  cases cb with
  | none => exact ⟨rfl, rfl⟩
  | some cb =>
    cases self.bufWriteEncoded.mem with
    | none => exact ⟨rfl, rfl⟩
    | some mem =>
      dsimp only
      split_ifs
      all_goals exact ⟨rfl, rfl⟩

/-- The backend that is offered bytes takes some from their front. -/
theorem backend_took (answers : List Answer) (offered accepted : Bytes) :
    ∃ ret answers', backend offered (answers, accepted) =
        (ret, answers', accepted ++ offered.take (firstTaken answers offered.length)) ∧
      ret.toNat = firstTaken answers offered.length := by
  have nothing (as : List Answer) : ((-1, as, accepted) : Int × List Answer × Bytes) =
      (-1, as, accepted ++ offered.take 0) := by
    rw [List.take_zero, List.append_nil]
  cases answers with
  | nil => exact ⟨-1, [], nothing [], rfl⟩
  | cons a as =>
    cases a with
    | fail => exact ⟨-1, as, nothing as, rfl⟩
    | accept n => exact ⟨_, as, rfl, Int.toNat_natCast _⟩
    | all =>
      refine ⟨offered.length, as, ?_, Int.toNat_natCast _⟩
      show _ = ((offered.length : Int), as, accepted ++ offered.take offered.length)
      rw [List.take_length]
      rfl

/-- A flush moves what is taken from the buffer to the backend. -/
theorem flushOutput_taken {self : HttppEncoding} (hok : self.bufWriteEncoded.Ok) (answers : List Answer)
    (accepted : Bytes) :
    ∃ buf answers', flushOutput self (some backend) (answers, accepted) =
        ({ self with bufWriteEncoded := buf }, answers',
          accepted ++ self.bufWriteEncoded.rest.take (firstTaken answers self.bufWriteEncoded.rest.length)) ∧
      buf.Ok ∧
      buf.rest = self.bufWriteEncoded.rest.drop (firstTaken answers self.bufWriteEncoded.rest.length) := by
  unfold flushOutput
  cases hmem : self.bufWriteEncoded.mem with
  | none =>
    have hnil : self.bufWriteEncoded.rest = [] := by
      rw [Buf.rest, hmem, Option.getD_none, List.drop_nil]
    rw [hnil, List.take_nil, List.drop_nil, List.append_nil]
    exact ⟨self.bufWriteEncoded, answers, rfl, hok, hnil⟩
  | some mem =>
    have hrest : self.bufWriteEncoded.rest = mem.drop self.bufWriteEncoded.offset := by
      rw [Buf.rest, hmem, Option.getD_some]
    have hle : self.bufWriteEncoded.offset ≤ mem.length := by
      rw [Buf.Ok, Buf.len, hmem, Option.getD_some] at hok
      exact hok
    have hlen := congrArg List.length hrest
    rw [List.length_drop] at hlen
    obtain ⟨ret, answers', htook, hret⟩ := backend_took answers self.bufWriteEncoded.rest accepted
    have hk := firstTaken_le answers self.bufWriteEncoded.rest.length
    dsimp only
    rw [htook]
    generalize firstTaken answers self.bufWriteEncoded.rest.length = k at hret hk ⊢
    dsimp only
    -- a buffer that is empty then is freed
    by_cases hpos : 0 < ret
    · rw [if_pos hpos, hret]
      by_cases hend : self.bufWriteEncoded.offset + k = mem.length
      · rw [if_pos hend]
        refine ⟨Buf.null, answers', rfl, Buf.null_ok, ?_⟩
        rw [Buf.null_rest, List.drop_of_length_le (by omega)]
      · rw [if_neg hend]
        refine ⟨_, answers', rfl, ?_, ?_⟩
        · show self.bufWriteEncoded.offset + k ≤ mem.length
          omega
        · rw [Buf.some_rest, ← List.drop_drop, ← hrest]
    · have hzero : k = 0 := by omega
      rw [if_neg hpos, hzero, List.drop_zero]
      exact ⟨self.bufWriteEncoded, answers', rfl, hok, rfl⟩

/-- A flush moves bytes from the buffer to the backend. -/
theorem flushOutput_spec {W : Bytes} {self : HttppEncoding} {accepted : Bytes}
    (H : Written W (self, accepted)) (answers : List Answer) :
    ∃ buf answers' accepted', flushOutput self (some backend) (answers, accepted) =
        ({ self with bufWriteEncoded := buf }, answers', accepted') ∧
      Written W ({ self with bufWriteEncoded := buf }, accepted') ∧
      (httppEncodingPending { self with bufWriteEncoded := buf } = 0 ↔ Drains answers self) := by
  obtain ⟨buf, answers', hflush, hok, hrest⟩ := flushOutput_taken H.ok answers accepted
  dsimp only at hrest
  refine ⟨buf, answers', _, hflush, ⟨H.chunked, hok, ?_⟩, ?_⟩
  · show _ ++ buf.rest = W
    rw [hrest, List.append_assoc, List.take_append_drop]
    exact H.total
  · rw [pending_eq, Drains, pending_eq]
    show buf.rest.length = 0 ↔ _
    rw [hrest, List.length_drop]
    omega

/-! The metadata. -/

/-- Memory for the text takes the metadata out of the queue. -/
theorem encChunkedWriteExtensions_meta (memExt : Bool) (self : HttppEncoding) :
    (encChunkedWriteExtensions memExt self).2.metaWrite = if memExt = true then [] else self.metaWrite := by
  unfold encChunkedWriteExtensions
  by_cases hnil : self.metaWrite = []
  · rw [if_pos hnil, hnil, ite_self]
  · rw [if_neg hnil]
    cases memExt
    all_goals rfl

/-- Building the text is about the metadata only. -/
theorem encChunkedWriteExtensions_frame (memExt : Bool) (self : HttppEncoding) :
    (encChunkedWriteExtensions memExt self).2.process = self.process ∧
      (encChunkedWriteExtensions memExt self).2.bufWriteEncoded = self.bufWriteEncoded := by
  unfold encChunkedWriteExtensions
  split_ifs
  all_goals exact ⟨rfl, rfl⟩

/-- The extensions that are put into a chunk. -/
theorem encChunkedWriteExtensions_text (memExt : Bool) (self : HttppEncoding) :
    cString ((encChunkedWriteExtensions memExt self).1.getD []) = queuedText memExt self := by
  unfold queuedText encChunkedWriteExtensions
  by_cases hnil : self.metaWrite = []
  · rw [if_pos hnil, hnil]
    exact (ite_self _).symm
  · rw [if_neg hnil]
    cases memExt
    all_goals rfl

theorem queuedText_congr (memExt : Bool) (self : HttppEncoding) (buf : Buf) :
    queuedText memExt { self with bufWriteEncoded := buf } = queuedText memExt self := rfl

/-- Behind the first flush: the chunk that is put into the buffer, or nothing. -/
theorem encChunkedWrite_spec {W : Bytes} {self : HttppEncoding} {accepted : Bytes}
    (H : Written W (self, accepted)) (memExt memBuf : Bool) (buf : Option Bytes) :
    ∃ ret self', encChunkedWrite memExt memBuf self buf = (ret, self') ∧
      ((0 < httppEncodingPending self ∨ memBuf = false) ∧ ret ≤ 0 ∧ Written W (self', accepted) ∨
       httppEncodingPending self = 0 ∧ memBuf = true ∧
        ret = ((buf.getD []).take 1048576).length ∧
        Written (W ++ (printLx ((buf.getD []).take 1048576).length ++ queuedText memExt self ++ crlf ++
          ((buf.getD []).take 1048576 ++ if buf = none then crlf ++ crlf else crlf)))
          (self', accepted)) := by
  obtain ⟨hproc, hok, htotal⟩ := H
  have hext := encChunkedWriteExtensions_frame memExt self
  unfold encChunkedWrite
  by_cases hpend : 0 < httppEncodingPending self
  · rw [if_pos hpend]
    exact ⟨_, _, rfl, Or.inl ⟨Or.inl hpend, Int.le_refl 0, hproc, hok, htotal⟩⟩
  · rw [if_neg hpend]
    by_cases hmem : memBuf = false
    · simp only [if_pos hmem]
      refine ⟨_, _, rfl, Or.inl ⟨Or.inr hmem, by decide, ?_, ?_, ?_⟩⟩
      · exact hext.1.trans hproc
      · simp only [hext.2]
        exact hok
      · simp only [hext.2]
        exact htotal
    · simp only [if_neg hmem]
      have hnil : self.bufWriteEncoded.rest = [] := by
        rw [pending_eq] at hpend
        exact List.eq_nil_of_length_eq_zero (by omega)
      simp only at htotal
      rw [hnil, List.append_nil] at htotal
      refine ⟨_, _, rfl, Or.inr ⟨by omega, by simpa using hmem, rfl, ?_, Nat.zero_le _, ?_⟩⟩
      · exact hext.1.trans hproc
      · rw [Buf.some_rest, List.drop_zero, htotal]
        simp only [← encChunkedWriteExtensions_text, List.append_assoc]

/-! One call. -/

/-- On a chunked encoder a write is made of a flush, the chunk and a flush. -/
theorem httppEncodingWrite_chunked {σ : Type} {memExt memBuf : Bool} {self self₁ self₂ : HttppEncoding}
    {buf : Option Bytes} {cb : WriteCallback σ} {userdata userdata₁ : σ} {ret : Int}
    (hproc : self.process = .chunked) (hflush : flushOutput self (some cb) userdata = (self₁, userdata₁))
    (hwrite : encChunkedWrite memExt memBuf self₁ buf = (ret, self₂)) :
    httppEncodingWrite memExt memBuf self buf (some cb) userdata =
      (ret, flushOutput self₂ (some cb) userdata₁) := by
  have hproc₁ : self₁.process = .chunked := by
    have h := (flushOutput_frame self (some cb) userdata).2
    rw [hflush] at h
    exact h.trans hproc
  simp only [httppEncodingWrite, hflush, hproc₁, hwrite]

/-- The chunk a call puts into the output. -/
def chunkOf (text : Bytes) (buf : Option Bytes) : Bytes :=
  match buf with
  | none => endChunk text
  | some buf => dataChunk text (buf.take 1048576)

/-- A write adds nothing, or its chunk when all that was pending is taken first. -/
theorem httppEncodingWrite_spec {W : Bytes} {self : HttppEncoding} {accepted : Bytes}
    (H : Written W (self, accepted)) (answers : List Answer) (memExt memBuf : Bool) (buf : Option Bytes) :
    ∃ ret self' answers' accepted',
      httppEncodingWrite memExt memBuf self buf (some backend) (answers, accepted) =
        (ret, self', answers', accepted') ∧
      (¬ (Drains answers self ∧ memBuf = true) ∧ ret ≤ 0 ∧ Written W (self', accepted') ∨
       (Drains answers self ∧ memBuf = true) ∧ ret = ((buf.getD []).take 1048576).length ∧
        Written (W ++ chunkOf (queuedText memExt self) buf) (self', accepted')) := by
  obtain ⟨buf₁, answers₁, accepted₁, hflush₁, H₁, hdrains⟩ := flushOutput_spec H answers
  obtain ⟨ret, self₂, hwrite, hcases⟩ := encChunkedWrite_spec H₁ memExt memBuf buf
  rw [queuedText_congr] at hcases
  have hcall := httppEncodingWrite_chunked H.chunked hflush₁ hwrite
  -- bytes stay pending or the chunk gets no memory; or the chunk is behind the first flush
  -- and the second one may take some of it
  rcases hcases with ⟨hno, hret, H₂⟩ | ⟨hpending, hmem, hret, H₂⟩
  · obtain ⟨buf₃, answers₃, accepted₃, hflush₃, H₃, _⟩ := flushOutput_spec H₂ answers₁
    rw [hflush₃] at hcall
    refine ⟨ret, _, answers₃, accepted₃, hcall, Or.inl ⟨?_, hret, H₃⟩⟩
    intro ⟨hd, hmem⟩
    rcases hno with h | h
    · rw [hdrains.mpr hd] at h
      exact Nat.lt_irrefl 0 h
    · exact Bool.false_ne_true (h.symm.trans hmem)
  · obtain ⟨buf₃, answers₃, accepted₃, hflush₃, H₃, _⟩ := flushOutput_spec H₂ answers₁
    rw [hflush₃] at hcall
    refine ⟨ret, _, answers₃, accepted₃, hcall, Or.inr ⟨⟨hdrains.mp hpending, hmem⟩, hret, ?_⟩⟩
    cases buf with
    | none =>
      rw [Option.getD_none, List.take_nil, List.nil_append, if_pos rfl, List.length_nil] at H₃
      exact H₃
    | some buf =>
      rw [Option.getD_some, if_neg (Option.some_ne_none buf)] at H₃
      rw [chunkOf, dataChunk]
      simp only [List.append_assoc] at H₃ ⊢
      exact H₃

/-- The metadata is taken out of the queue when all that was pending is taken first, also
when the chunk then gets no memory. -/
theorem httppEncodingWrite_meta {W : Bytes} {self self' : HttppEncoding} {accepted accepted' : Bytes}
    (H : Written W (self, accepted)) {answers answers' : List Answer} {memExt memBuf : Bool}
    {buf : Option Bytes} {ret : Int} (h : httppEncodingWrite memExt memBuf self buf (some backend)
      (answers, accepted) = (ret, self', answers', accepted')) :
    (Drains answers self → self'.metaWrite = if memExt = true then [] else self.metaWrite) ∧
      (¬ Drains answers self → self'.metaWrite = self.metaWrite) := by
  obtain ⟨buf₁, answers₁, accepted₁, hflush₁, _, hdrains⟩ := flushOutput_spec H answers
  cases hwrite : encChunkedWrite memExt memBuf { self with bufWriteEncoded := buf₁ } buf with
  | mk ret₂ self₂ =>
  rw [httppEncodingWrite_chunked H.chunked hflush₁ hwrite] at h
  obtain ⟨hmeta₃, _⟩ := flushOutput_frame self₂ (some backend) (answers₁, accepted₁)
  rw [(Prod.mk.inj h).2] at hmeta₃
  rw [hmeta₃, ← hdrains]
  have hext := encChunkedWriteExtensions_meta memExt { self with bufWriteEncoded := buf₁ }
  unfold encChunkedWrite at hwrite
  constructor
  · intro hpending
    rw [if_neg (by omega)] at hwrite
    dsimp only at hwrite
    split_ifs at hwrite
    all_goals
      rw [← (Prod.mk.inj hwrite).2]
      exact hext
  · intro hpending
    rw [if_pos (by omega)] at hwrite
    rw [← (Prod.mk.inj hwrite).2]

/-- What a call may return. -/
def Returns (c : WriteCall) (ret : Int) : Prop :=
  match c with
  | .data buf .. => ret ≤ 0 ∨ ret = min 1048576 buf.length
  | .flush .. => ret ≤ 0
  | .appendMeta _ => ret = 0

/-- One call adds its contribution behind all earlier ones. -/
theorem writeStep_written {W : Bytes} {st : HttppEncoding × Bytes} (H : Written W st)
    (c : WriteCall) :
    ∃ ret st', writeStep c st = some (ret, st') ∧ Written (W ++ contribution c st ret) st' ∧
      Returns c ret := by
  obtain ⟨self, accepted⟩ := st
  cases c with
  | data buf nonempty answers memExt memBuf =>
    obtain ⟨ret, self', answers', accepted', hwrite, hcases⟩ :=
      httppEncodingWrite_spec H answers memExt memBuf (some buf)
    simp only [writeStep, hwrite, contribution]
    refine ⟨ret, (self', accepted'), rfl, ?_⟩
    rcases hcases with ⟨_, hret, H'⟩ | ⟨_, hret, H'⟩
    · rw [if_neg (by omega), List.append_nil]
      exact ⟨H', Or.inl hret⟩
    · rw [Option.getD_some, List.length_take] at hret
      have hpos := List.length_pos_iff.mpr nonempty
      have htake : buf.take ret.toNat = buf.take 1048576 := by
        rw [hret, Int.toNat_natCast, ← List.take_eq_take_min]
      rw [if_pos (by omega), htake]
      exact ⟨H', Or.inr hret⟩
  | flush answers memExt memBuf =>
    obtain ⟨ret, self', answers', accepted', hwrite, hcases⟩ :=
      httppEncodingWrite_spec H answers memExt memBuf none
    obtain ⟨buf₁, answers₁, accepted₁, hflush₁, _, hdrains⟩ := flushOutput_spec H answers
    simp only [writeStep, hwrite, contribution, hflush₁]
    refine ⟨ret, (self', accepted'), rfl, ?_⟩
    rw [← hdrains] at hcases
    rcases hcases with ⟨hno, hret, H'⟩ | ⟨hyes, hret, H'⟩
    · rw [if_neg hno, List.append_nil]
      exact ⟨H', hret⟩
    · rw [if_pos hyes]
      exact ⟨H', Int.le_of_eq hret⟩
  | appendMeta new =>
    refine ⟨0, _, rfl, ?_, rfl⟩
    rw [contribution, List.append_nil]
    exact ⟨H.chunked, H.ok, H.total⟩

/-- The step lemma along a sequence of calls. -/
theorem run_written {W : Bytes} {st : HttppEncoding × Bytes} (H : Written W st)
    (calls : List WriteCall) :
    ∃ rets st', runCalls writeStep calls st = some (rets, st') ∧
      Written (W ++ contributions calls st) st' ∧ List.Forall₂ Returns calls rets := by
  induction calls generalizing W st with
  | nil =>
    refine ⟨[], st, rfl, ?_, List.Forall₂.nil⟩
    rw [contributions, List.append_nil]
    exact H
  | cons c calls ih =>
    obtain ⟨ret, st1, hstep, H1, hret⟩ := writeStep_written H c
    obtain ⟨rets, st', hrun, H', hrets⟩ := ih H1
    refine ⟨ret :: rets, st', ?_, ?_, List.Forall₂.cons hret hrets⟩
    · rw [runCalls_cons hstep, hrun]
      rfl
    · simp only [contributions, hstep]
      rw [← List.append_assoc]
      exact H'

/-- The writer neither loses nor repeats a byte: what the backend took and what is pending
are the chunks of the calls, in their order. -/
theorem write_exact (calls : List WriteCall) :
    ∃ rets self accepted, writeNew calls = some (rets, self, accepted) ∧
      accepted ++ self.bufWriteEncoded.rest =
        contributions calls (httppEncodingNew .chunked, []) ∧
      httppEncodingPending self = self.bufWriteEncoded.rest.length ∧
      List.Forall₂ Returns calls rets := by
  have H : Written [] (httppEncodingNew .chunked, []) := ⟨rfl, Buf.null_ok, rfl⟩
  obtain ⟨rets, ⟨self, accepted⟩, hrun, H', hrets⟩ := run_written H calls
  exact ⟨rets, self, accepted, hrun, H'.total, pending_eq self, hrets⟩

end IcecastCommon.Encoding
