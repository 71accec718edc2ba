import IcecastCommon.Encoding.Body

/- Sequences of writes of buffers of any length, empty ones included. Up to a test of the
   pointer a write takes the path of a flush: an empty buffer gives a chunk of size 0, which
   ends the stream for the peer. -/
namespace IcecastCommon.Encoding
open Library

/-! Calls. -/

/-- A call on an encoder that is not flushed. -/
inductive OpenCall where
  | write (buf : Bytes) (answers : List Answer) (memExt memBuf : Bool)
  | appendMeta (new : List HttppMeta)

/-- What the backend took and what is pending. -/
def produced (st : HttppEncoding × Bytes) : Bytes := st.2 ++ st.1.bufWriteEncoded.rest

/-- A call; it gives the number returned and the bytes the output has got. -/
def openStep (c : OpenCall) (st : HttppEncoding × Bytes) :
    Option ((Int × Bytes) × (HttppEncoding × Bytes)) :=
  match c with
  | .write buf answers memExt memBuf =>
    let (ret, self, _, accepted) :=
      httppEncodingWrite memExt memBuf st.1 (some buf) (some backend) (answers, st.2)
    some ((ret, (produced (self, accepted)).drop (produced st).length), self, accepted)
  | .appendMeta new => some ((0, []), httppEncodingAppendMeta st.1 new, st.2)

/-- What the calls put into the output, the data they accepted and the metadata. -/
structure Sent where
  chunks : List Bytes
  data : Bytes
  metas : List HttppMeta

def Sent.grow (h : Sent) (c : OpenCall) (o : Int × Bytes) : Sent :=
  match c with
  | .write buf .. => ⟨h.chunks ++ [o.2], h.data ++ buf.take o.1.toNat, h.metas⟩
  | .appendMeta new => { h with metas := h.metas ++ new }

/-! The stream stays open. -/

/-- The size at the front of a chunk. -/
def chunkSize (c : Bytes) : Nat := hexValue (c.takeWhile fun c => decide (IsHex c))

/-- No chunk of size 0 is in the output. Without metadata the reference decoder gets the
data that has been accepted, when the stream is ended now. -/
structure StillOpen (h : Sent) (st : HttppEncoding × Bytes) : Prop where
  chunks : produced st = h.chunks.flatten
  sizes : ∀ c ∈ h.chunks, c ≠ [] → chunkSize c ≠ 0
  decodes : h.metas = [] → ∀ s, ∃ fuel, decodeBody fuel (produced st ++ (lastChunk ++ s)) = some (h.data, s)

/-- A call with an empty buffer is harmless when something stays pending behind the first
attempt to flush, or the chunk gets no memory. -/
def Harmless (c : OpenCall) (st : HttppEncoding × Bytes) : Prop :=
  match c with
  | .write buf answers _ memBuf => buf = [] → ¬ (Drains answers st.1 ∧ memBuf = true)
  | .appendMeta _ => True

/-! The size of a chunk. -/

/-- The text of the metadata is nothing, or it begins with a semicolon. -/
theorem queuedText_head (memExt : Bool) (self : HttppEncoding) :
    queuedText memExt self = [] ∨ ∃ t, queuedText memExt self = semicolon :: t := by
  have hone (cur : HttppMeta) : writeExtension cur = [] ∨ ∃ t, writeExtension cur = semicolon :: t := by
    unfold writeExtension
    cases cur.key with
    | none => exact Or.inl rfl
    | some key =>
      dsimp only
      split_ifs
      · exact Or.inl rfl
      all_goals exact Or.inr ⟨_, rfl⟩
  have hall (metas : List HttppMeta) : metas.flatMap writeExtension = [] ∨
      ∃ t, metas.flatMap writeExtension = semicolon :: t := by
    induction metas with
    | nil => exact Or.inl rfl
    | cons cur metas ih =>
      rw [List.flatMap_cons]
      rcases hone cur with h | ⟨t, h⟩
      · rw [h]
        exact ih
      · rw [h]
        exact Or.inr ⟨_, rfl⟩
  rw [queuedText]
  split_ifs
  · rcases hall self.metaWrite with h | ⟨t, h⟩
    · rw [h]
      exact Or.inl rfl
    · rw [h]
      exact Or.inr ⟨cString t, rfl⟩
  · exact Or.inl rfl

theorem chunkSize_digits {ds : Bytes} (hhex : ∀ c ∈ ds, IsHex c) {c : UInt8} (hc : ¬ IsHex c) (s : Bytes) :
    chunkSize (ds ++ c :: s) = hexValue ds := by
  rw [chunkSize, List.takeWhile_append_of_pos fun d hd => decide_eq_true (hhex d hd),
    List.takeWhile_cons_of_neg (by rw [decide_eq_false hc]; exact Bool.false_ne_true), List.append_nil]

theorem chunkSize_dataChunk (memExt : Bool) (self : HttppEncoding) {data : Bytes}
    (hfit : data.length < 2 ^ 64) : chunkSize (dataChunk (queuedText memExt self) data) = data.length := by
  obtain ⟨_, hhex, hval⟩ := printLx_spec hfit
  rw [dataChunk]
  rcases queuedText_head memExt self with h | ⟨t, h⟩
  · rw [h, List.append_nil, List.append_assoc, List.append_assoc]
    show chunkSize (printLx data.length ++ cr :: _) = data.length
    rw [chunkSize_digits hhex (by decide), hval]
  · rw [h, List.append_assoc, List.append_assoc, List.append_assoc]
    show chunkSize (printLx data.length ++ semicolon :: _) = data.length
    rw [chunkSize_digits hhex (by decide), hval]

theorem dataChunk_ne_nil (text data : Bytes) : dataChunk text data ≠ [] := by
  rw [dataChunk]
  exact List.append_ne_nil_of_right_ne_nil _ (List.cons_ne_nil _ _)

/-! The invariant. -/

/-- The chunks are in the output, none of size 0; without metadata they are the chunks of
buffers that are not empty. -/
structure Unended (h : Sent) (st : HttppEncoding × Bytes) : Prop where
  written : Written h.chunks.flatten st
  sizes : ∀ c ∈ h.chunks, c ≠ [] → chunkSize c ≠ 0
  plain : h.metas = [] → st.1.metaWrite = [] ∧
    ∃ ds : List Data, h.chunks.flatten = dataChunks ds ∧ h.data = ds.flatMap Data.chunk

theorem Unended.stillOpen {h : Sent} {st : HttppEncoding × Bytes} (H : Unended h st) : StillOpen h st := by
  refine ⟨H.written.total, H.sizes, ?_⟩
  intro hmetas s
  obtain ⟨_, ds, hchunks, hdata⟩ := H.plain hmetas
  refine ⟨ds.length + 0 + 1, ?_⟩
  rw [produced, H.written.total, hchunks, hdata]
  exact decodeBody_chunks ds s 0

/-- A call to write adds nothing, or its chunk when all that was pending is taken first. -/
theorem openStep_write {W : Bytes} {st : HttppEncoding × Bytes} (H : Written W st) (buf : Bytes)
    (answers : List Answer) (memExt memBuf : Bool) :
    ∃ ret added st', openStep (.write buf answers memExt memBuf) st = some ((ret, added), st') ∧
      (st.1.metaWrite = [] → st'.1.metaWrite = []) ∧
      (¬ (Drains answers st.1 ∧ memBuf = true) ∧ ret ≤ 0 ∧ added = [] ∧ Written W st' ∨
       (Drains answers st.1 ∧ memBuf = true) ∧ ret = (buf.take 1048576).length ∧
        added = dataChunk (queuedText memExt st.1) (buf.take 1048576) ∧ Written (W ++ added) st') := by
  obtain ⟨self, accepted⟩ := st
  obtain ⟨ret, self', answers', accepted', hwrite, hcases⟩ :=
    httppEncodingWrite_spec H answers memExt memBuf (some buf)
  simp only [openStep, hwrite]
  have hmeta : self.metaWrite = [] → self'.metaWrite = [] := by
    intro hnil
    obtain ⟨htaken, hkept⟩ := httppEncodingWrite_meta H hwrite
    rw [hnil, ite_self] at htaken
    rw [hnil] at hkept
    exact (Classical.em (Drains answers self)).elim htaken hkept
  refine ⟨ret, _, (self', accepted'), rfl, hmeta, ?_⟩
  have hout : produced (self, accepted) = W := H.total
  rw [hout]
  rcases hcases with ⟨hno, hret, H'⟩ | ⟨hyes, hret, H'⟩
  · refine Or.inl ⟨hno, hret, ?_, H'⟩
    rw [produced, H'.total, List.drop_length]
  · have hadded : (produced (self', accepted')).drop W.length =
        dataChunk (queuedText memExt self) (buf.take 1048576) := by
      rw [produced, H'.total, List.drop_left]
      rfl
    rw [hadded]
    exact Or.inr ⟨hyes, hret, rfl, H'⟩

/-- Harmless calls keep the invariant. -/
theorem openStep_keeps : Keeps openStep Sent.grow Unended Harmless := by
  intro h c st hok H
  cases c with
  | appendMeta new =>
    refine ⟨(0, []), _, rfl, ⟨H.written.chunked, H.written.ok, H.written.total⟩, H.sizes, ?_⟩
    intro hmetas
    obtain ⟨hold, hnew⟩ := List.append_eq_nil_iff.mp hmetas
    obtain ⟨hmeta, hdata⟩ := H.plain hold
    refine ⟨?_, hdata⟩
    show st.1.metaWrite ++ new = []
    rw [hmeta, hnew]
    rfl
  | write buf answers memExt memBuf =>
    obtain ⟨ret, added, st', hstep, hmeta, hcases⟩ := openStep_write H.written buf answers memExt memBuf
    refine ⟨(ret, added), st', hstep, ?_⟩
    have hflat : (h.chunks ++ [added]).flatten = h.chunks.flatten ++ added := by
      rw [List.flatten_append, List.flatten_singleton]
    -- nothing is added, or the chunk of a buffer that is not empty, since the call is harmless
    rcases hcases with ⟨_, hret, hadded, H'⟩ | ⟨hyes, hret, hadded, H'⟩
    · have hzero : ret.toNat = 0 := by omega
      rw [hadded, List.append_nil] at hflat
      refine ⟨?_, ?_, ?_⟩
      · show Written (h.chunks ++ [added]).flatten st'
        rw [hadded, hflat]
        exact H'
      · intro c hc hne
        rcases List.mem_append.mp hc with hc | hc
        · exact H.sizes c hc hne
        · rw [List.mem_singleton.mp hc] at hne
          exact absurd hadded hne
      · intro hmetas
        obtain ⟨hnone, ds, hchunks, hdata⟩ := H.plain hmetas
        refine ⟨hmeta hnone, ds, ?_, ?_⟩
        · show (h.chunks ++ [added]).flatten = dataChunks ds
          rw [hadded, hflat, hchunks]
        · show h.data ++ buf.take ret.toNat = ds.flatMap Data.chunk
          rw [hzero, List.take_zero, List.append_nil, hdata]
    · have hne : buf ≠ [] := fun hnil => hok hnil hyes
      have hfit : (buf.take 1048576).length < 2 ^ 64 := by
        rw [List.length_take]
        omega
      have hpos : 0 < (buf.take 1048576).length := by
        have := List.length_pos_iff.mpr hne
        rw [List.length_take]
        omega
      refine ⟨?_, ?_, ?_⟩
      · show Written (h.chunks ++ [added]).flatten st'
        rw [hflat]
        exact H'
      · intro c hc hcne
        rcases List.mem_append.mp hc with hc | hc
        · exact H.sizes c hc hcne
        · rw [List.mem_singleton.mp hc, hadded, chunkSize_dataChunk memExt st.1 hfit]
          omega
      · intro hmetas
        obtain ⟨hnone, ds, hchunks, hdata⟩ := H.plain hmetas
        have htext : queuedText memExt st.1 = [] := by
          rw [queuedText, hnone]
          exact ite_self _
        refine ⟨hmeta hnone, ds ++ [⟨buf, hne⟩], ?_, ?_⟩
        · show (h.chunks ++ [added]).flatten = dataChunks (ds ++ [⟨buf, hne⟩])
          rw [hflat, hchunks, hadded, htext, dataChunks, dataChunks, List.flatMap_append, List.flatMap_singleton]
          rfl
        · show h.data ++ buf.take ret.toNat = (ds ++ [(⟨buf, hne⟩ : Data)]).flatMap Data.chunk
          rw [List.flatMap_append, List.flatMap_singleton, ← hdata, Data.chunk, hret, Int.toNat_natCast,
            List.length_take, ← List.take_eq_take_min]

/-- Any other call puts a chunk of size 0 into the output. -/
theorem openStep_ends {h : Sent} {c : OpenCall} {st st' : HttppEncoding × Bytes} {o : Int × Bytes}
    (H : Unended h st) (hbad : ¬ Harmless c st) (hstep : openStep c st = some (o, st')) :
    ¬ StillOpen (h.grow c o) st' := by
  cases c with
  | appendMeta new => exact absurd True.intro hbad
  | write buf answers memExt memBuf =>
    obtain ⟨hnil, hyes⟩ : buf = [] ∧ Drains answers st.1 ∧ memBuf = true := by
      rw [Harmless] at hbad
      exact ⟨by_contra fun hne => hbad fun hnil => absurd hnil hne,
        by_contra fun hno => hbad fun _ => hno⟩
    obtain ⟨ret, added, st₁, hstep₁, _, hcases⟩ := openStep_write H.written buf answers memExt memBuf
    obtain ⟨rfl, _⟩ := Prod.mk.inj (Option.some.inj (hstep.symm.trans hstep₁))
    rcases hcases with ⟨hno, _⟩ | ⟨_, _, hadded, _⟩
    · exact absurd hyes hno
    · intro hopen
      have hsize := hopen.sizes added (List.mem_append_right _ (List.mem_singleton.mpr rfl))
        (by rw [hadded]; exact dataChunk_ne_nil _ _)
      rw [hadded, hnil, List.take_nil, chunkSize_dataChunk memExt st.1 (by decide)] at hsize
      exact hsize rfl

/-- The stream stays open all along a sequence of calls exactly when every call is harmless
in the state it is made in. -/
theorem only_flush_ends (calls : List OpenCall) :
    (∀ js, js <+: calls → ∃ os st', runCalls openStep js (httppEncodingNew .chunked, []) = some (os, st') ∧
      StillOpen (history Sent.grow ⟨[], [], []⟩ js os) st') ↔
      Meets openStep Harmless calls (httppEncodingNew .chunked, []) := by
  apply openStep_keeps.always_iff
  · intro h st H
    exact H.stillOpen
  · intro h c st o st' H hbad hstep
    exact openStep_ends H hbad hstep
  · exact ⟨⟨rfl, Buf.null_ok, rfl⟩, fun c hc => absurd hc List.not_mem_nil, fun _ => ⟨rfl, [], rfl, rfl⟩⟩

/-- An empty write, then one byte: the reference decoder ends before it gets the byte. -/
theorem empty_write_ends : ∃ os st',
    runCalls openStep [.write [] [.all, .all] true true, .write [97] [.all, .all] true true]
      (httppEncodingNew .chunked, []) = some (os, st') ∧
    decodeBody 2 (produced st') = some ([], [49, 13, 10, 97, 13, 10]) ∧
    ¬ StillOpen (history Sent.grow ⟨[], [], []⟩
      [.write [] [.all, .all] true true, .write [97] [.all, .all] true true] os) st' := by
  refine ⟨_, _, rfl, by decide, ?_⟩
  intro hopen
  exact hopen.sizes [48, 13, 10, 13, 10] (by decide) (by decide) (by decide)

end IcecastCommon.Encoding
