import IcecastCommon.Encoding.ReadRun

/- Streams without extensions that are handed over completely. What the reader returned is
   always a part of the bodies, and its end of file is theirs. Once the callback has
   nothing left a call only empties the decoded buffer: a chunk that sits in the raw
   buffer at that time is never decoded. -/
namespace IcecastCommon.Encoding
open Library

/-! Streams without extensions. -/

/-- `hexlen CRLF body CRLF`. -/
structure PlainChunk where
  hexlen : Bytes
  body : Bytes
  digits : hexlen ≠ [] ∧ ∀ c ∈ hexlen, IsHex c
  counts : hexValue hexlen = body.length
  nonempty : body ≠ []
  fits : body.length < 2 ^ 63

namespace PlainChunk

def bytes (c : PlainChunk) : Bytes := c.hexlen ++ crlf ++ c.body ++ crlf

def toChunk (c : PlainChunk) : Chunk where
  header := c.hexlen
  body := c.body
  metas := []
  ext := none
  line := by
    rw [← c.counts]
    refine headerLine_digits c.digits.1 c.digits.2 ?_
    have := c.fits
    rw [c.counts]
    omega
  nonempty := c.nonempty
  fits := c.fits

end PlainChunk

/-- The chunks and `0 CRLF CRLF`. -/
def chunkedStream (cs : List PlainChunk) : Bytes := cs.flatMap PlainChunk.bytes ++ lastChunk

/-- The concatenated bodies. -/
def chunkBodies (cs : List PlainChunk) : Bytes := cs.flatMap PlainChunk.body

theorem encode_plain (cs : List PlainChunk) :
    encode (cs.map PlainChunk.toChunk) .last = chunkedStream cs := by
  unfold encode chunkedStream
  rw [List.flatMap_map]
  rfl

theorem bodies_plain (cs : List PlainChunk) :
    bodies (cs.map PlainChunk.toChunk) = chunkBodies cs := by
  unfold bodies chunkBodies
  rw [List.flatMap_map]
  rfl

theorem chunkBodies_length_le (cs : List PlainChunk) :
    (chunkBodies cs).length ≤ (chunkedStream cs).length := by
  induction cs with
  | nil => exact Nat.zero_le _
  | cons c cs ih =>
    simp only [chunkBodies, chunkedStream, PlainChunk.bytes, List.flatMap_cons,
      List.length_append] at ih ⊢
    omega

/-- A run on a whole stream goes through and keeps the invariant. -/
theorem readNew_reading (cs : List PlainChunk) (calls : List ReadCall) :
    ∃ replies st, readNew calls (chunkedStream cs) = some (replies, st) ∧
      Reading .last cs.length (chunkBodies cs) [] (outputs replies) st ∧
      List.Forall₂ (fun c reply => reply.bytes.length ≤ c.len) calls replies := by
  have H := reading_new (cs.map PlainChunk.toChunk) .last
  have hmetas : metasOf (cs.map PlainChunk.toChunk) = [] := by
    unfold metasOf
    rw [List.flatMap_map]
    exact List.flatMap_eq_nil_iff.mpr fun _ _ => rfl
  rw [encode_plain, bodies_plain, hmetas, List.length_map] at H
  obtain ⟨replies, st, hrun, hread, hall⟩ :=
    (readStep_tracks .last cs.length (chunkBodies cs) []).run calls (fun _ _ => trivial) H
  rw [history_output [] hall.length_eq, List.nil_append] at hread
  exact ⟨replies, st, hrun, hread, hall⟩

theorem Phase.todo_of_eof {e : Ending} {n : Nat} {bte : Int} {rbh : Nat} {rest R todo : Bytes}
    {metas : List HttppMeta} (h : Phase e n bte rbh rest R todo metas) (hbte : bte = 0) :
    todo = [] := by
  cases h with
  | done => rfl
  | header | body | tail | last => exact absurd hbte (by decide)

/-- Soundness of the chunked decoder: however the stream is cut and whatever lengths are
asked for, no call returns more than that, all bytes returned are a prefix of the bodies,
and the end is only reported behind the last of them. -/
theorem read_sound (cs : List PlainChunk) (calls : List ReadCall) :
    ∃ replies self R, readNew calls (chunkedStream cs) = some (replies, self, R) ∧
      List.Forall₂ (fun c reply => reply.value ≤ c.len) calls replies ∧
      outputs replies <+: chunkBodies cs ∧
      (httppEncodingEof self none = 1 → outputs replies = chunkBodies cs) := by
  obtain ⟨replies, ⟨self, R⟩, hrun, hread, hall⟩ := readNew_reading cs calls
  obtain ⟨todo, metas, hphase, hD, _⟩ := hread.phase
  refine ⟨replies, self, R, hrun, ?_, ?_, ?_⟩
  · refine hall.imp fun c reply hle => ?_
    cases reply with
    | none => exact Int.le_trans (by decide : (-1 : Int) ≤ 0) (Int.natCast_nonneg _)
    | some bs => exact Int.ofNat_le.mpr hle
  · rw [hD, List.append_assoc]
    exact List.prefix_append _ _
  · intro heof
    obtain ⟨hleft, hbte⟩ := (httppEncodingEof_iff self).mp heof
    have hdec : self.bufReadDecoded.rest = [] :=
      List.eq_nil_of_length_eq_zero ((Buf.rest_length _).trans hleft)
    have htodo : todo = [] := hphase.todo_of_eof hbte
    rw [hD, hdec, htodo, List.append_nil, List.append_nil]

/-! Nothing left. -/

/-- The reader when the callback has nothing left; `raw` is the unread part of the raw
buffer, and `out` with the decoded buffer is `total`. -/
structure Idle (raw total out : Bytes) (st : HttppEncoding × Bytes) : Prop where
  chunked : st.1.process = .chunked
  rawOk : st.1.bufReadRaw.Ok
  decodedOk : st.1.bufReadDecoded.Ok
  rest : st.1.bufReadRaw.rest = raw
  nothing : st.2 = []
  total : total = out ++ st.1.bufReadDecoded.rest

theorem encChunkedRead_idle (self : HttppEncoding) (hok : self.bufReadRaw.Ok)
    (memRaw memBody : Bool) (len : Nat) (feed : Feed) :
    ∃ (reply : Reply) (raw : Buf), encChunkedRead memRaw memBody self len feed.callback [] =
        some (reply, { self with bufReadRaw := raw }, []) ∧
      reply.bytes = [] ∧ raw.Ok ∧ raw.rest = self.bufReadRaw.rest := by
  by_cases hrbth : 2 < self.readBytesTillHeader
  · rcases encChunkedRead_direct hrbth memRaw memBody len feed [] with ⟨_, heq⟩ | ⟨q, rfl, k, _, heq⟩
    · exact ⟨none, self.bufReadRaw, heq, rfl, hok, rfl⟩
    · rw [List.take_nil, List.drop_nil] at heq
      exact ⟨some [], self.bufReadRaw, heq, rfl, hok, rfl⟩
  · rcases encChunkedRead_feed hok (Nat.le_of_not_lt hrbth) memRaw memBody len feed [] with
      ⟨reply, raw, heq, hnil, hok', hrest', _⟩ | ⟨bs, R', hne, hR, _⟩
    · exact ⟨reply, raw, heq, hnil, hok', hrest'⟩
    · exact absurd (List.append_eq_nil_iff.mp hR.symm).1 hne

/-- A call then returns bytes of the decoded buffer only. -/
theorem httppEncodingRead_idle {raw total out : Bytes} {self : HttppEncoding}
    (H : Idle raw total out (self, [])) (memRaw memBody : Bool) {len : Nat} (hlen : 0 < len)
    (feed : Feed) :
    ∃ reply self', httppEncodingRead memRaw memBody self len feed.callback [] =
        some (reply, self', []) ∧
      Idle raw total (out ++ reply.bytes) (self', []) ∧
      self'.bufReadDecoded.rest = self.bufReadDecoded.rest.drop len := by
  obtain ⟨hproc, hraw, hdecOk, hrest, hnothing, htotal⟩ := H
  obtain ⟨hbytes, hdec, hok, _⟩ := copyBuffer_spec hdecOk len
  simp only at hproc hraw hrest htotal hbytes hdec hok
  have htotal' : total = out ++ self.bufReadDecoded.rest.take len ++
      self.bufReadDecoded.rest.drop len := by
    rw [List.append_assoc, List.take_append_drop, htotal]
  by_cases hval : (copyBuffer self.bufReadDecoded len).1.value = toSsize len
  · refine ⟨_, _, httppEncodingRead_copied hlen hval .., ⟨hproc, hraw, hok, hrest, rfl, ?_⟩, hdec⟩
    rw [hbytes, hdec]
    exact htotal'
  · obtain ⟨reply, raw', heq, hnil, hok', hrest'⟩ := encChunkedRead_idle
      { self with bufReadDecoded := (copyBuffer self.bufReadDecoded len).2 }
      hraw memRaw memBody (len - (self.bufReadDecoded.rest.take len).length) feed
    rw [httppEncodingRead_handled hproc hlen hval hbytes, heq, Option.map_some]
    cases reply with
    | none =>
      refine ⟨_, _, rfl, ⟨hproc, hok', hok, hrest'.trans hrest, rfl, ?_⟩, hdec⟩
      rw [Reply.bytes_ite, hdec]
      exact htotal'
    | some bs =>
      rw [Reply.bytes_some] at hnil
      subst hnil
      -- the second copy finds no room or no bytes
      obtain ⟨hbytes2, hdec2, hok2, _⟩ := copyBuffer_spec hok
        (len - (self.bufReadDecoded.rest.take len).length - 0)
      rw [hdec, Nat.sub_zero, List.length_take] at hbytes2 hdec2
      have hnone : (self.bufReadDecoded.rest.drop len).take
          (len - min len self.bufReadDecoded.rest.length) = [] := by
        apply List.eq_nil_of_length_eq_zero
        rw [List.length_take, List.length_drop]
        omega
      have hsame : (self.bufReadDecoded.rest.drop len).drop
          (len - min len self.bufReadDecoded.rest.length) = self.bufReadDecoded.rest.drop len := by
        rcases Nat.le_total len self.bufReadDecoded.rest.length with h | h
        · rw [Nat.min_eq_left h, Nat.sub_self, List.drop_zero]
        · rw [List.drop_of_length_le h, List.drop_nil]
      rw [hnone] at hbytes2
      rw [hsame] at hdec2
      refine ⟨_, _, rfl, ⟨hproc, hok', ?_, hrest'.trans hrest, rfl, ?_⟩, ?_⟩
      · simp only [List.length_nil, Nat.sub_zero, List.length_take] at hok2 ⊢
        exact hok2
      · simp only [List.length_nil, Nat.sub_zero, List.length_take, List.append_nil, hbytes2, hdec2,
          Reply.bytes_some]
        exact htotal'
      · simp only [List.length_nil, Nat.sub_zero, List.length_take, hdec2]

theorem readStep_idle (raw total : Bytes) :
    Tracks readStep output (Idle raw total) (fun _ _ => True) (fun _ => True) := by
  rintro out c ⟨self, R⟩ _ H
  have hR : R = [] := H.nothing
  subst hR
  obtain ⟨reply, self', heq, H', _⟩ := httppEncodingRead_idle H c.memRaw true c.pos c.feed
  exact ⟨reply, (self', []), heq, H', trivial⟩

/-- Enough calls empty the decoded buffer, and that is all they do. -/
theorem idle_run {raw total out : Bytes} {self : HttppEncoding}
    (H : Idle raw total out (self, [])) (later : List ReadCall) :
    ∃ replies self', runCalls readStep later (self, []) = some (replies, self', []) ∧
      Idle raw total (out ++ outputs replies) (self', []) ∧
      (self.bufReadDecoded.rest.length ≤ later.length → total = out ++ outputs replies) := by
  obtain ⟨replies, ⟨self', R'⟩, hrun, H', hall⟩ :=
    (readStep_idle raw total).run later (fun _ _ => trivial) H
  rw [history_output out hall.length_eq] at H'
  have hR' : R' = [] := H'.nothing
  subst hR'
  refine ⟨replies, self', hrun, H', fun hlen => ?_⟩
  obtain ⟨replies2, st2, hrun2, _, hzero⟩ := (readStep_idle raw total).drains
    (fun _ st => st.1.bufReadDecoded.rest.length)
    (by
      rintro out c ⟨s, R⟩ o s' _ hinv hstep
      have hR : R = [] := hinv.nothing
      subst hR
      obtain ⟨reply, s2, heq, _, hdrop⟩ := httppEncodingRead_idle hinv c.memRaw true c.pos c.feed
      obtain ⟨rfl, rfl⟩ : o = reply ∧ s' = (s2, []) := by
        have h := hstep.symm.trans heq
        simp only [Option.some.injEq, Prod.mk.injEq] at h
        exact h
      simp only [hdrop, List.length_drop]
      have := c.pos
      omega)
    later (fun _ _ => trivial) H hlen
  rw [hrun] at hrun2
  simp only [Option.some.injEq, Prod.mk.injEq] at hrun2
  obtain ⟨_, rfl⟩ := hrun2
  have hnil := List.eq_nil_of_length_eq_zero hzero
  have ht := H'.total
  simp only at hnil ht
  rw [ht, hnil, List.append_nil]

/-- With nothing left to hand over, only whole chunks in the raw buffer are to come. -/
theorem Phase.rest_of_nothing {n : Nat} {bte : Int} {rbh : Nat} {rest todo : Bytes}
    {metas : List HttppMeta} (h : Phase .last n bte rbh rest [] todo metas) :
    todo = [] ↔ rest = [] ∨ rest = lastChunk := by
  generalize hR : ([] : Bytes) = R at h
  cases h with
  | header stream fresh =>
    subst hR
    rename_i cs
    rw [List.append_nil] at stream
    rw [stream]
    cases cs with
    | nil => exact ⟨fun _ => Or.inr rfl, fun _ => rfl⟩
    | cons c cs =>
      have hpos := List.length_pos_iff.mpr c.nonempty
      constructor
      · intro hnil
        exact absurd (List.append_eq_nil_iff.mp hnil).1 c.nonempty
      · intro hcases
        have hlen : 5 < (encode (c :: cs) .last).length := by
          rw [encode_cons]
          simp only [encode, Ending.bytes, lastChunk, crlf, List.length_append,
            List.length_cons, List.length_nil]
          omega
        rcases hcases with h | h
        · rw [h] at hlen
          exact absurd hlen (by decide)
        · rw [h] at hlen
          exact absurd hlen (by decide)
  | body stream nonempty fresh =>
    rw [← hR] at stream
    exact absurd stream.symm (by simp [nonempty])
  | tail stream short fresh =>
    rw [← hR, List.append_nil] at stream
    rw [stream] at short
    simp only [crlf, List.length_append, List.length_cons, List.length_nil] at short
    omega
  | last stream short =>
    rw [← hR, List.append_nil] at stream
    rw [stream] at short
    exact absurd short (by decide)
  | done eof => exact ⟨fun _ => Or.inl rfl, fun _ => rfl⟩

theorem Reading.idle {n : Nat} {D out : Bytes} {M : List HttppMeta} {self : HttppEncoding}
    (H : Reading .last n D M out (self, [])) :
    Idle self.bufReadRaw.rest (out ++ self.bufReadDecoded.rest) out (self, []) :=
  ⟨H.chunked, H.rawOk, H.decodedOk, rfl, rfl, rfl⟩

/-- Delivery of the chunked decoder. When the stream is handed over, further calls return
the rest of the bodies exactly if no chunk with a body is left in the raw buffer. -/
theorem read_delivers (cs : List PlainChunk) (calls later : List ReadCall)
    {replies : List Reply} {self : HttppEncoding}
    (hrun : readNew calls (chunkedStream cs) = some (replies, self, []))
    (hlater : (chunkedStream cs).length ≤ later.length) :
    (∃ replies' self', runCalls readStep later (self, []) = some (replies', self', []) ∧
        outputs replies ++ outputs replies' = chunkBodies cs) ↔
      (self.bufReadRaw.rest = [] ∨ self.bufReadRaw.rest = lastChunk) := by
  obtain ⟨replies', ⟨self', R'⟩, hrun', hread, _⟩ := readNew_reading cs calls
  rw [hrun] at hrun'
  simp only [Option.some.injEq, Prod.mk.injEq] at hrun'
  obtain ⟨rfl, rfl, rfl⟩ := hrun'
  obtain ⟨todo, metas, hphase, hD, _⟩ := hread.phase
  simp only at hphase hD
  obtain ⟨lateReplies, lateSelf, hlate, _, htotal⟩ := idle_run hread.idle later
  have hlen : self.bufReadDecoded.rest.length ≤ later.length := by
    have h1 := congrArg List.length hD
    have h2 := chunkBodies_length_le cs
    simp only [List.length_append] at h1
    omega
  rw [← hphase.rest_of_nothing]
  have hout : chunkBodies cs = outputs replies ++ outputs lateReplies ++ todo := by
    rw [← htotal hlen, hD]
  constructor
  · rintro ⟨replies2, self2, hrun2, hwhole⟩
    rw [hlate] at hrun2
    simp only [Option.some.injEq, Prod.mk.injEq] at hrun2
    obtain ⟨rfl, _⟩ := hrun2
    rw [hwhole] at hout
    exact List.append_cancel_left (hout.symm.trans (List.append_nil _).symm)
  · intro hnil
    refine ⟨lateReplies, lateSelf, hlate, ?_⟩
    rw [hout, hnil, List.append_nil]

/-- `1 CRLF x CRLF`. -/
def oneByteChunk (x : UInt8) : PlainChunk where
  hexlen := [49]
  body := [x]
  digits := ⟨List.cons_ne_nil _ _, List.forall_mem_singleton.mpr (by decide)⟩
  counts := rfl
  nonempty := List.cons_ne_nil x []
  fits := show 1 < 2 ^ 63 by decide

/-- A call with a callback that hands over all it is asked for. -/
def wholeCall : ReadCall where
  len := 16
  feed := .give 1024
  memRaw := true
  pos := by decide
  fits := by decide

/-- Three chunks, a byte at a time. -/
theorem read_delivers_whole : ∃ replies self replies' self',
    readNew (List.replicate 24 byteCall) (chunkedStream [oneByteChunk 97, oneByteChunk 98, oneByteChunk 99]) =
        some (replies, self, []) ∧
      runCalls readStep (List.replicate 23 wholeCall) (self, []) = some (replies', self', []) ∧
      outputs replies ++ outputs replies' = [97, 98, 99] := by
  let cs := [oneByteChunk 97, oneByteChunk 98, oneByteChunk 99]
  have hrun : (readNew (List.replicate 24 byteCall) (chunkedStream cs)).map
      (fun r => (r.2.2, r.2.1.bufReadRaw.rest)) = some ([], []) := by decide
  obtain ⟨⟨replies, self, R⟩, hrun, he⟩ := Option.map_eq_some_iff.mp hrun
  simp only [Prod.mk.injEq] at he
  obtain ⟨rfl, hrest⟩ := he
  obtain ⟨replies', self', hlate, hout⟩ :=
    (read_delivers cs (List.replicate 24 byteCall) (List.replicate 23 wholeCall) hrun (by decide)).mpr (Or.inl hrest)
  exact ⟨replies, self, replies', self', hrun, hlate, hout⟩

/-- Two chunks in one answer of the callback: the second body is never returned. -/
theorem read_delivers_fails : ∃ replies self,
    readNew [wholeCall] (chunkedStream [oneByteChunk 97, oneByteChunk 98]) =
        some (replies, self, []) ∧
      ∀ later, ∃ replies' self', runCalls readStep later (self, []) = some (replies', self', []) ∧
        outputs replies ++ outputs replies' ≠ chunkBodies [oneByteChunk 97, oneByteChunk 98] := by
  have hrun : (readNew [wholeCall] (chunkedStream [oneByteChunk 97, oneByteChunk 98])).map
      (fun r => (r.2.2, outputs r.1 ++ r.2.1.bufReadDecoded.rest)) = some ([], [97]) := by decide
  obtain ⟨replies, ⟨self, R⟩, hnew, hread, _⟩ :=
    readNew_reading [oneByteChunk 97, oneByteChunk 98] [wholeCall]
  rw [hnew] at hrun
  simp only [Option.map_some, Option.some.injEq, Prod.mk.injEq] at hrun
  obtain ⟨rfl, hall⟩ := hrun
  refine ⟨replies, self, hnew, fun later => ?_⟩
  obtain ⟨replies', self', hlate, hidle, _⟩ := idle_run hread.idle later
  refine ⟨replies', self', hlate, fun hwhole => ?_⟩
  have htotal := congrArg List.length hidle.total
  rw [hall, hwhole, List.length_append] at htotal
  simp only [chunkBodies, oneByteChunk, List.flatMap_cons, List.flatMap_nil, List.length_append,
    List.length_cons, List.length_nil] at htotal
  omega

end IcecastCommon.Encoding
