import IcecastCommon.Encoding.WriteRun

/- A write that fails for want of memory. `__enc_chunked_write` builds the extension text
   first, which empties `meta_write`, and then asks for the memory of the chunk. -/
namespace IcecastCommon.Encoding
open Library

variable {σ : Type} {self : HttppEncoding}

/-- The metadata and the output buffer are as before, and the same write can be made again
with all the metadata. -/
structure CanRetry (before after : HttppEncoding) (buf : Bytes) : Prop where
  metaWrite : after.metaWrite = before.metaWrite
  empty : httppEncodingPending after = 0
  retry : ∀ answers accepted, ∃ ret self answers' accepted',
    httppEncodingWrite true true after (some buf) (some backend) (answers, accepted) =
        (ret, self, answers', accepted') ∧
      accepted' ++ self.bufWriteEncoded.rest =
        accepted ++ dataChunk (queuedText true before) (buf.take 1048576)

/-- A flush leaves nothing pending where nothing was. -/
theorem flushOutput_pending (h : httppEncodingPending self = 0) (cb : Option (WriteCallback σ)) (userdata : σ) :
    httppEncodingPending (flushOutput self cb userdata).1 = 0 := by
  unfold flushOutput
  cases cb with
  | none => exact h
  | some cb =>
    cases hmem : self.bufWriteEncoded.mem with
    | none => exact h
    | some mem =>
      have hleft : mem.length - self.bufWriteEncoded.offset = 0 := by
        rw [pending_eq, Buf.rest_length, Buf.left, Buf.len, hmem, Option.getD_some] at h
        exact h
      dsimp only
      split_ifs
      · rfl
      · rw [pending_eq, Buf.rest_length]
        show mem.length - (self.bufWriteEncoded.offset + _) = 0
        omega
      · exact h

/-- With nothing pending the backend has nothing to take. -/
theorem flushOutput_idle (h : httppEncodingPending self = 0) (answers : List Answer) (accepted : Bytes) :
    ∃ answers', flushOutput self (some backend) (answers, accepted) = (self, answers', accepted) := by
  rw [pending_eq, List.length_eq_zero_iff] at h
  unfold flushOutput
  cases self.bufWriteEncoded.mem with
  | none => exact ⟨answers, rfl⟩
  | some mem =>
    obtain ⟨ret, answers', htook, hret⟩ := backend_took answers [] accepted
    have hzero := firstTaken_le answers 0
    rw [List.length_nil] at hret
    dsimp only
    rw [h, htook, List.take_nil, List.append_nil]
    dsimp only
    rw [if_neg (by omega)]
    exact ⟨answers', rfl⟩

/-- The chunk that is written with all allocations. -/
theorem encChunkedWrite_chunk (hproc : self.process = .chunked) (hpending : httppEncodingPending self = 0)
    (buf accepted : Bytes) : ∃ ret self', encChunkedWrite true true self (some buf) = (ret, self') ∧
      Written (accepted ++ dataChunk (queuedText true self) (buf.take 1048576)) (self', accepted) := by
  have hproc' : (encChunkedWriteExtensions true self).2.process = .chunked := by
    rw [(encChunkedWriteExtensions_frame true self).1, hproc]
  rw [encChunkedWrite, if_neg (by omega), ← encChunkedWriteExtensions_text]
  cases hext : encChunkedWriteExtensions true self with
  | mk extensions self₁ =>
  rw [hext] at hproc'
  refine ⟨_, _, rfl, hproc', Nat.zero_le _, ?_⟩
  simp only [Option.getD_some, reduceCtorEq, if_false, Buf.some_rest, List.drop_zero, dataChunk,
    List.append_assoc]

/-- Only the second allocation makes a chunked write fail, and only with nothing pending. -/
theorem encChunkedWrite_fails {memExt memBuf : Bool} {buf : Option Bytes} {self' : HttppEncoding}
    (h : encChunkedWrite memExt memBuf self buf = (-1, self')) :
    httppEncodingPending self = 0 ∧ self' = (encChunkedWriteExtensions memExt self).2 := by
  unfold encChunkedWrite at h
  by_cases hpending : 0 < httppEncodingPending self
  · rw [if_pos hpending] at h
    exact absurd (Prod.mk.inj h).1 (by decide)
  · rw [if_neg hpending] at h
    by_cases hmem : memBuf = false
    · simp only [if_pos hmem] at h
      exact ⟨by omega, (Prod.mk.inj h).2.symm⟩
    · simp only [if_neg hmem] at h
      have hlen := (Prod.mk.inj h).1
      omega

theorem encChunkedWriteExtensions_kept {memExt : Bool} :
    (encChunkedWriteExtensions memExt self).2.metaWrite = self.metaWrite ↔
      self.metaWrite = [] ∨ memExt = false := by
  rw [encChunkedWriteExtensions_meta]
  cases memExt
  · exact ⟨fun _ => Or.inr rfl, fun _ => rfl⟩
  · exact ⟨fun h => Or.inl h.symm, fun h => (h.resolve_right (by decide)).symm⟩

/-- A write with all allocations and nothing pending puts the chunk behind what was taken. -/
theorem write_chunk (hproc : self.process = .chunked) (hpending : httppEncodingPending self = 0) (buf : Bytes)
    (answers : List Answer) (accepted : Bytes) : ∃ ret self' answers' accepted',
    httppEncodingWrite true true self (some buf) (some backend) (answers, accepted) =
        (ret, self', answers', accepted') ∧
      accepted' ++ self'.bufWriteEncoded.rest =
        accepted ++ dataChunk (queuedText true self) (buf.take 1048576) := by
  obtain ⟨answers₁, hflush⟩ := flushOutput_idle hpending answers accepted
  obtain ⟨ret, self₂, hwrite, H⟩ := encChunkedWrite_chunk hproc hpending buf accepted
  obtain ⟨out, answers', accepted', hflush', H', _⟩ := flushOutput_spec H answers₁
  refine ⟨ret, _, answers', accepted', ?_, H'.total⟩
  rw [httppEncodingWrite_chunked hproc hflush hwrite, hflush']

/-- A failed write can be made again exactly when there was no metadata, or already the text
of the metadata did not get its memory. -/
theorem failed_write {memExt memBuf : Bool} {buf : Bytes} {cb : WriteCallback σ} {userdata userdata' : σ}
    {self' : HttppEncoding} (hproc : self.process = .chunked)
    (h : httppEncodingWrite memExt memBuf self (some buf) (some cb) userdata = (-1, self', userdata')) :
    CanRetry self self' buf ↔ self.metaWrite = [] ∨ memExt = false := by
  obtain ⟨hmeta₁, hproc₁⟩ := flushOutput_frame self (some cb) userdata
  cases hflush : flushOutput self (some cb) userdata with
  | mk self₁ userdata₁ =>
  cases hwrite : encChunkedWrite memExt memBuf self₁ (some buf) with
  | mk ret self₂ =>
  rw [httppEncodingWrite_chunked hproc hflush hwrite] at h
  rw [hflush] at hmeta₁ hproc₁
  obtain ⟨hret, hstate⟩ := Prod.mk.inj h
  rw [hret] at hwrite
  obtain ⟨hpending₁, hself₂⟩ := encChunkedWrite_fails hwrite
  -- what the second flush leaves
  obtain ⟨hmeta₂, hproc₂⟩ := flushOutput_frame self₂ (some cb) userdata₁
  have hpending₂ : httppEncodingPending self₂ = 0 := by
    rw [hself₂, pending_eq, (encChunkedWriteExtensions_frame memExt self₁).2, ← pending_eq, hpending₁]
  have hpending' := flushOutput_pending hpending₂ (some cb) userdata₁
  rw [hstate] at hmeta₂ hproc₂ hpending'
  have hproc' : self'.process = .chunked := by
    rw [hproc₂, hself₂, (encChunkedWriteExtensions_frame memExt self₁).1, hproc₁, hproc]
  rw [← hmeta₁, ← encChunkedWriteExtensions_kept, ← hself₂, ← hmeta₂, hmeta₁]
  constructor
  · intro H
    exact H.metaWrite
  · intro hmeta
    refine ⟨hmeta, hpending', ?_⟩
    intro answers accepted
    rw [queuedText, ← hmeta, ← queuedText]
    exact write_chunk hproc' hpending' buf answers accepted

/-- An encoder with the entry `k="v"`. -/
def oneEntry : HttppEncoding :=
  httppEncodingAppendMeta (httppEncodingNew .chunked) [httppEncodingMetaNew (some [107]) (some [118])]

/-- A backend that takes nothing. -/
def busy : WriteCallback Unit := fun _ userdata => (-1, userdata)

theorem failed_write_twice : ∃ self', CanRetry oneEntry self' [97] := by
  have h : httppEncodingWrite false false oneEntry (some [97]) (some busy) () = (-1, oneEntry, ()) := rfl
  exact ⟨oneEntry, (failed_write rfl h).mpr (Or.inr rfl)⟩

/-- The chunk gets no memory after the text of its metadata got some. -/
theorem failed_write_loses : ∃ self', httppEncodingWrite true false oneEntry (some [97]) (some busy) () =
    (-1, self', ()) ∧ ¬ CanRetry oneEntry self' [97] := by
  refine ⟨httppEncodingNew .chunked, rfl, ?_⟩
  intro h
  exact absurd h.metaWrite (by decide)

end IcecastCommon.Encoding
