import IcecastCommon.Encoding.Terminator
import IcecastCommon.Encoding.Delivery

/- The failed allocation of a body buffer. The header is consumed by then, so the call that
   retries takes the body for a header: the body is lost, and where there is none the end of
   the stream shows too early or never. -/
namespace IcecastCommon.Encoding
open Library

/-- What the callers want of a retry: whatever calls with memory are made on either decoder and the same
stream, a few more of them bring both to the same data, metadata and end. -/
def Retries (failed done : HttppEncoding) : Prop :=
  ∀ (stream : Bytes) (calls : List ReadCall), (∀ c ∈ calls, c.memRaw = true) →
    ∃ more : List ReadCall, (∀ c ∈ more, c.memRaw = true) ∧ ∃ replies self rest replies' self' rest',
      runCalls readStep (calls ++ more) (failed, stream) = some (replies, self, rest) ∧
      runCalls readStep (calls ++ more) (done, stream) = some (replies', self', rest') ∧
      outputs replies = outputs replies' ∧ self.metaRead = self'.metaRead ∧
      httppEncodingEof self none = httppEncodingEof self' none

/-! The two outcomes. -/

section

variable {start : HttppEncoding} {n : Nat}

theorem chunkBody_done (hok : start.bufReadRaw.Ok) (h : n < start.bufReadRaw.left) :
    ∃ self', chunkBody true start n = (some [], self') ∧ self'.bufReadDecoded.rest = start.bufReadRaw.rest.take n := by
  rcases chunkBody_cases hok true n with ⟨hzero, _⟩ | ⟨_, hle, _⟩ | ⟨_, hmem, _⟩ |
    ⟨_, _, raw, _, _, heq⟩ | ⟨_, _, raw, _, _, heq⟩
  · omega
  · omega
  · cases hmem
  · exact ⟨_, heq, List.drop_zero⟩
  · exact ⟨_, heq, List.drop_zero⟩

end

/-! Decoders with nothing decoded. -/

section

variable {self : HttppEncoding} {metas : List HttppMeta} {eof : Int} {toHeader len : Nat} {raw : Bytes}

/-- A call whose handler returns nothing and leaves nothing decoded. -/
theorem At.finish {σ : Type} (H : At self metas eof toHeader raw) (hpos : 0 < len)
    (hvalue : (copyBuffer self.bufReadDecoded len).1.value ≠ toSsize len) {memRaw memBody : Bool}
    {cb : Option (ReadCallback σ)} {userdata userdata' : σ} {reply : Reply} {self₁ : HttppEncoding} {eof' : Int}
    {toHeader' : Nat} {raw' : Bytes} (hread : encChunkedRead memRaw memBody
      { self with bufReadDecoded := (copyBuffer self.bufReadDecoded len).2 } len cb userdata =
        some (reply, self₁, userdata')) (hnil : reply.bytes = []) (H₁ : At self₁ metas eof' toHeader' raw') :
    ∃ reply' self', httppEncodingRead memRaw memBody self len cb userdata = some (reply', self', userdata') ∧
      reply'.bytes = [] ∧ At self' metas eof' toHeader' raw' := by
  rw [httppEncodingRead_drained H.chunked H.decodedOk H.decoded hpos hvalue, hread]
  cases reply with
  | none => exact ⟨none, self₁, rfl, rfl, H₁⟩
  | some out =>
    obtain ⟨hbytes, Hcopied⟩ := H₁.copied (len - out.length)
    refine ⟨_, _, rfl, ?_, Hcopied⟩
    rw [Reply.bytes_some, hbytes, List.append_nil]
    exact hnil

/-- Without bytes from the callback nothing comes and the place stays. -/
theorem readStep_nil (H : At self metas eof toHeader raw) (htwo : toHeader ≤ 2) (c : ReadCall) :
    ∃ reply self', readStep c (self, []) = some (reply, self', []) ∧ reply.bytes = [] ∧
      At self' metas eof toHeader raw := by
  obtain ⟨hbytes, Hcopied⟩ := H.copied c.len
  by_cases hvalue : (copyBuffer self.bufReadDecoded c.len).1.value = toSsize c.len
  · refine ⟨_, _, ?_, hbytes, Hcopied⟩
    unfold readStep httppEncodingRead
    have hpos := c.pos
    rw [if_neg (by omega)]
    exact if_pos hvalue
  · have hrbth := Nat.le_trans (Nat.le_of_eq Hcopied.readBytesTillHeader) htwo
    rcases encChunkedRead_feed Hcopied.rawOk hrbth c.memRaw true c.len c.feed [] with
      ⟨reply, raw', hread, hnil, hok', hrest', _⟩ | ⟨bs, R', hne, hR, _⟩
    · refine H.finish c.pos hvalue hread hnil ?_
      exact ⟨H.chunked, hok', Hcopied.decodedOk, H.metaRead, Hcopied.decoded, hrest'.trans H.unread,
        H.bytesTillEof, H.readBytesTillHeader⟩
    · exact absurd (List.append_eq_nil_iff.mp hR.symm).1 hne

theorem runCalls_nil (H : At self metas eof toHeader raw) (htwo : toHeader ≤ 2) {calls : List ReadCall}
    {replies : List Reply} {self' : HttppEncoding} {rest : Bytes}
    (h : runCalls readStep calls (self, []) = some (replies, self', rest)) :
    outputs replies = [] ∧ At self' metas eof toHeader raw := by
  induction calls generalizing self replies with
  | nil =>
    cases h
    exact ⟨rfl, H⟩
  | cons c calls ih =>
    obtain ⟨reply, st, replies', hstep, hrest, rfl⟩ := runCalls_cons_inv h
    obtain ⟨reply', self₁, hidle, hnil, H₁⟩ := readStep_nil H htwo c
    obtain ⟨rfl, rfl⟩ := Prod.mk.inj (Option.some.inj (hidle.symm.trans hstep))
    obtain ⟨hout, H'⟩ := ih H₁ hrest
    refine ⟨?_, H'⟩
    rw [outputs, List.flatMap_cons, hnil, List.nil_append]
    exact hout

end

section

variable {failed done self self' : HttppEncoding} {metas metas' : List HttppMeta} {eof eof' : Int} {n n' : Nat}
  {raw raw' : Bytes}

/-- A byte that the callback has for a decoder behind the header of the last chunk. -/
theorem byteCall_at {y : UInt8} {R : Bytes} (H : At self metas 2 n raw) (htwo : n ≤ 2)
    (hraw : ∀ start, At start metas 2 n (raw ++ [y]) → ∃ self',
      chunkRaw true start = some (some [], self') ∧ At self' metas eof' n' raw') :
    ∃ reply self', readStep byteCall (self, y :: R) = some (reply, self', R) ∧ At self' metas eof' n' raw' := by
  obtain ⟨_, Hcopied⟩ := H.copied 1
  obtain ⟨self₁, hchunk, H₁⟩ := hraw _ (Hcopied.received [y])
  let f : ReadCallback Bytes := fun n R => (some (R.take (min 1 n)), R.drop (min 1 n))
  have hf : f 2 (y :: R) = (some [y], R) := rfl
  rw [← Hcopied.wanted] at hf
  have hread := encChunkedRead_received (Nat.le_trans (Nat.le_of_eq Hcopied.readBytesTillHeader) htwo)
    (List.cons_ne_nil _ _) hf true 1
  rw [hchunk] at hread
  obtain ⟨reply, self', hstep, _, H'⟩ :=
    H.finish Nat.one_pos (copyBuffer_short H.decodedOk H.decoded Nat.one_pos (by decide)) hread rfl H₁
  exact ⟨reply, self', hstep, H'⟩

/-! What a retry does not bring. -/

/-- The body is pending in `done`, and `failed` waits for bytes: a call for each byte of the body. -/
theorem not_retries_body (H : At failed metas eof n raw) (htwo : n ≤ 2) (hdone : Sound done)
    (hbody : done.bufReadDecoded.rest ≠ []) : ¬Retries failed done := by
  intro hretries
  let calls : List ReadCall := List.replicate done.bufReadDecoded.rest.length byteCall
  have hmem : ∀ c ∈ calls, c.memRaw = true := by
    intro c hc
    rw [List.eq_of_mem_replicate hc]
    rfl
  obtain ⟨more, _, replies, _, _, replies', _, _, hfailed, hrun, hsame, _⟩ := hretries [] calls hmem
  obtain ⟨hnothing, _⟩ := runCalls_nil H htwo hfailed
  have hstart : Idle done.bufReadRaw.rest done.bufReadDecoded.rest [] (done, []) :=
    ⟨hdone.chunked, hdone.rawOk, hdone.decodedOk, rfl, rfl, rfl⟩
  obtain ⟨replies₁, _, hrun₁, _, hall⟩ := idle_run hstart (calls ++ more)
  obtain ⟨rfl, _⟩ := Prod.mk.inj (Option.some.inj (hrun₁.symm.trans hrun))
  have hreturned : done.bufReadDecoded.rest = outputs replies₁ := by
    apply hall
    rw [List.length_append, List.length_replicate]
    exact Nat.le_add_right _ _
  exact hbody (hreturned.trans (hsame.symm.trans hnothing))

/-- One of the two sees the end by some calls that use up the stream, and the other does not. -/
theorem not_retries_end {stream : Bytes} {calls : List ReadCall} {replies replies' : List Reply}
    (hmem : ∀ c ∈ calls, c.memRaw = true) (hfailed : runCalls readStep calls (failed, stream) = some (replies, self, []))
    (hdone : runCalls readStep calls (done, stream) = some (replies', self', [])) (H : At self metas eof n raw)
    (H' : At self' metas' eof' n' raw') (htwo : n ≤ 2 ∧ n' ≤ 2) (hend : ¬(eof = 0 ↔ eof' = 0)) :
    ¬Retries failed done := by
  intro hretries
  obtain ⟨more, _, _, _, _, _, _, _, hrun, hrun', _, _, heof⟩ := hretries stream calls hmem
  rw [runCalls_append hfailed] at hrun
  rw [runCalls_append hdone] at hrun'
  obtain ⟨⟨_, last, _⟩, hmore, hlast⟩ := Option.map_eq_some_iff.mp hrun
  cases hlast
  obtain ⟨⟨_, last', _⟩, hmore', hlast'⟩ := Option.map_eq_some_iff.mp hrun'
  cases hlast'
  obtain ⟨_, Hlast⟩ := runCalls_nil H htwo.1 hmore
  obtain ⟨_, Hlast'⟩ := runCalls_nil H' htwo.2 hmore'
  exact hend (by rw [← eof_iff Hlast, ← eof_iff Hlast', heof])

/-- One byte of the last CRLF is there: the next one shows the end where the body could not be allocated, and
is dropped with the CRLF where it could. -/
theorem not_retries_half {x : UInt8} (H : At failed metas 2 0 [x]) (H' : At done metas' 2 2 [x]) :
    ¬Retries failed done := by
  obtain ⟨reply, self, hstep, H₁⟩ := byteCall_at (y := lf) (R := []) H (Nat.zero_le 2) fun start H =>
    chunkRaw_past H (by decide) (Nat.succ_pos _) true
  obtain ⟨reply', self', hstep', H₁'⟩ := byteCall_at (y := lf) (R := []) H' (Nat.le_refl 2) fun start H' =>
    chunkRaw_exactly H' rfl true
  have hmem : ∀ c ∈ [byteCall], c.memRaw = true := by
    intro c hc
    rw [List.mem_singleton.mp hc]
    rfl
  have hrun : runCalls readStep [byteCall] (failed, [lf]) = some ([reply], self, []) := by
    rw [runCalls_cons hstep]
    rfl
  have hrun' : runCalls readStep [byteCall] (done, [lf]) = some ([reply'], self', []) := by
    rw [runCalls_cons hstep']
    rfl
  exact not_retries_end hmem hrun hrun' H₁ H₁' ⟨Nat.zero_le 2, Nat.zero_le 2⟩ (by decide)

end

/-- A decoder behind `0 CRLF`, with the CR of the last CRLF. -/
def lastStart : HttppEncoding :=
  { httppEncodingNew .chunked with
    bufReadRaw := ⟨some [48, 0, 10, 13], 3⟩
    bytesTillEof := 2 }

/-- A call for eight bytes whose callback has eight. -/
def eightCall : ReadCall where
  len := 8
  feed := .give 8
  memRaw := true
  pos := by decide
  fits := by decide

/-- A decoder behind `1 CRLF`, whose body `a` could not be allocated. -/
def bodyFailed : HttppEncoding := { httppEncodingNew .chunked with bufReadRaw := ⟨some [49, 0, 10, 97, 13], 3⟩ }

/-- The same decoder with the body. -/
def bodyDone : HttppEncoding :=
  { httppEncodingNew .chunked with
    bufReadRaw := ⟨some [49, 0, 10, 97, 13], 4⟩
    bufReadDecoded := ⟨some [97], 0⟩
    readBytesTillHeader := 2 }

end IcecastCommon.Encoding
