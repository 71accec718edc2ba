import IcecastCommon.Encoding.Reach

/- The count of the bytes to the next header. It is the size of the chunk plus 2, less the
   bytes the raw buffer had, in 64 bits; `Passes` are the calls that count it down. -/
namespace IcecastCommon.Encoding

/-! The body behind a header. -/

/-- Calls of `__enc_chunked_read` that hand body bytes straight to the caller, with the
number of these bytes. -/
inductive Passes : HttppEncoding → Nat → HttppEncoding → Prop where
  | done (self : HttppEncoding) : Passes self 0 self
  | call {σ : Type} {memRaw memBody : Bool} {self self' self'' : HttppEncoding} {len k : Nat}
      {cb : Option (ReadCallback σ)} {userdata userdata' : σ} {reply : Reply}
      (body : 2 < self.readBytesTillHeader) (honest : Honest cb)
      (call : encChunkedRead memRaw memBody self len cb userdata = some (reply, self', userdata'))
      (rest : Passes self' k self'') : Passes self (reply.bytes.length + k) self''

/-- The count is exact, and so is the number of bytes that are taken as the body: those
found in the raw buffer at once and those passed on before the next header is looked for. -/
structure Counted (start : HttppEncoding) (bodylen : Nat) (behind : HttppEncoding) : Prop where
  stored : (behind.readBytesTillHeader : Int) =
    bodylen + 2 - ((start.bufReadRaw.left : Int) - behind.bufReadRaw.left)
  body : ∀ k next, Passes behind k next → next.readBytesTillHeader ≤ 2 →
    behind.bufReadDecoded.rest.length + k = bodylen

/-- The sum `bodylen + 2`, less what is buffered of a body that goes on, leaves 64 bits. -/
def SizeWraps (bodylen left : Nat) : Prop :=
  2 ^ 64 ≤ bodylen + 2 ∧ left = 0 ∨ 2 ^ 64 ≤ bodylen + 1 ∧ left = 1

theorem Passes.count {self self' : HttppEncoding} {k : Nat} (h : Passes self k self') :
    self'.readBytesTillHeader + k = self.readBytesTillHeader ∧ (k = 0 ∨ 2 ≤ self'.readBytesTillHeader) := by
  induction h with
  | done self => exact ⟨rfl, Or.inl rfl⟩
  | call body honest call rest ih =>
    rename_i self self' self'' len k cb userdata userdata' reply
    have hstep : self'.readBytesTillHeader + reply.bytes.length = self.readBytesTillHeader ∧
        2 ≤ self'.readBytesTillHeader := by
      unfold encChunkedRead at call
      cases cb with
      | none =>
        cases call
        exact ⟨rfl, Nat.le_of_lt body⟩
      | some f =>
        simp only [if_pos body] at call
        have hle := honest f rfl (min len (self.readBytesTillHeader - 2)) userdata
        cases hf : f (min len (self.readBytesTillHeader - 2)) userdata with
        | mk r userdata₁ =>
        rw [hf] at call hle
        cases r with
        | none =>
          cases call
          exact ⟨rfl, Nat.le_of_lt body⟩
        | some bs =>
          cases call
          simp only [Reply.bytes_some] at hle ⊢
          omega
    omega

/-- What is stored behind a header, by what the raw buffer has of the body. -/
theorem chunkBody_counts {self self' : HttppEncoding} {out : Bytes} {n : Nat} {memBody : Bool}
    (hok : self.bufReadRaw.Ok) (hdec : self.bufReadDecoded.rest = [])
    (h : chunkBody memBody self n = (some out, self')) :
    let left := self.bufReadRaw.left
    left = 0 ∧ self'.readBytesTillHeader = (n + 2) % 2 ^ 64 ∧ self'.bufReadRaw.left = 0 ∧
        self'.bufReadDecoded.rest.length = 0 ∨
      0 < left ∧ left ≤ n ∧ self'.readBytesTillHeader = (n + 2 - left) % 2 ^ 64 ∧
        self'.bufReadRaw.left = 0 ∧ self'.bufReadDecoded.rest.length = left ∨
      left = n + 1 ∧ self'.readBytesTillHeader = 2 ∧ self'.bufReadRaw.left = 1 ∧
        self'.bufReadDecoded.rest.length = n ∨
      n + 2 ≤ left ∧ self'.readBytesTillHeader = 0 ∧ self'.bufReadRaw.left = left - n - 2 ∧
        self'.bufReadDecoded.rest.length = n := by
  intro left
  have hrest : self.bufReadRaw.rest.length = left := self.bufReadRaw.rest_length
  have hbody (hn : n ≤ left) : (Buf.mk (some (self.bufReadRaw.rest.take n)) 0).rest.length = n := by
    rw [Buf.some_rest, List.drop_zero, List.length_take, hrest, Nat.min_eq_left hn]
  rcases chunkBody_cases hok memBody n with ⟨hzero, heq⟩ | ⟨hpos, hle, heq⟩ | ⟨_, _, heq⟩ |
    ⟨hone, _, raw, _, hraw, heq⟩ | ⟨hmore, _, raw, _, hraw, heq⟩
  all_goals
    rw [heq] at h
    obtain ⟨hout, rfl⟩ := Prod.mk.inj h
  · exact Or.inl ⟨hzero, rfl, rfl, by rw [hdec]; rfl⟩
  · exact Or.inr (Or.inl ⟨hpos, hle, rfl, rfl, hrest⟩)
  · cases hout
  · have hleft : raw.left = 1 := by
      rw [← Buf.rest_length, hraw, List.length_drop]
      omega
    exact Or.inr (Or.inr (Or.inl ⟨hone, rfl, hleft, hbody (by omega)⟩))
  · have hleft : raw.left = left - n - 2 := by
      rw [← Buf.rest_length, hraw, List.length_drop]
      omega
    exact Or.inr (Or.inr (Or.inr ⟨hmore, rfl, hleft, hbody (by omega)⟩))

/-- Behind a header that a call accepts the count is exact, exactly when the sum does not wrap. -/
theorem chunk_counted {σ : Type} {self start behind : HttppEncoding} {bs out : Bytes} {bodylen len : Nat}
    {memBody : Bool} {f : ReadCallback σ} {userdata userdata₁ userdata' : σ} (h : Reachable self)
    (hdec : self.bufReadDecoded.rest = []) (hrbth : self.readBytesTillHeader ≤ 2) (hbs : bs ≠ [])
    (hf : f (rawWanted self) userdata = (some bs, userdata₁))
    (hheader : headerIn self bs = some (bodylen, start))
    (hcall : encChunkedRead true memBody self len (some f) userdata = some (some out, behind, userdata')) :
    Counted start bodylen behind ↔ ¬ SizeWraps bodylen start.bufReadRaw.left := by
  obtain ⟨hn, mem, offset, metas, ho, hstart⟩ := headerIn_spec h.sound hrbth hheader
  rw [encChunkedRead_header hrbth hbs hf hheader] at hcall
  have hbody : chunkBody memBody start bodylen = (some out, behind) := by
    obtain ⟨hout, hrest⟩ := Prod.mk.inj (Option.some.inj hcall)
    exact Prod.ext hout (Prod.mk.inj hrest).1
  have hok : start.bufReadRaw.Ok := by
    rw [hstart]
    exact ho
  have hdec' : start.bufReadDecoded.rest = [] := by
    rw [hstart]
    exact hdec
  -- only the first two cases have a sum that may leave 64 bits
  have hcases := chunkBody_counts hok hdec' hbody
  rw [SizeWraps]
  constructor
  · intro H hwraps
    have hstored := H.stored
    omega
  · intro hno
    refine ⟨?_, ?_⟩
    · omega
    · intro k next hpasses hnext
      obtain ⟨hcount, hlow⟩ := hpasses.count
      omega

/-- A decoder at the body of `1 CRLF a`. -/
def oneByte : HttppEncoding := { httppEncodingNew .chunked with bufReadRaw := ⟨some [49, 0, 10, 97], 3⟩ }

theorem chunk_counted_one : ∃ behind, encChunkedRead true true (httppEncodingNew .chunked) 8
    (some (feed [49, 13, 10, 97])) () = some (some [], behind, ()) ∧ Counted oneByte 1 behind := by
  have hheader : headerIn (httppEncodingNew .chunked) [49, 13, 10, 97] = some (1, oneByte) := rfl
  have hf : feed [49, 13, 10, 97] (rawWanted (httppEncodingNew .chunked)) () = (some [49, 13, 10, 97], ()) := rfl
  have hcall : encChunkedRead true true (httppEncodingNew .chunked) 8 (some (feed [49, 13, 10, 97])) () =
      some (some [], { httppEncodingNew .chunked with
        bufReadDecoded := oneByte.bufReadRaw
        readBytesTillHeader := 2 }, ()) := rfl
  refine ⟨_, hcall, ?_⟩
  exact (chunk_counted .new rfl (Nat.zero_le 2) (List.cons_ne_nil _ _) hf hheader hcall).mpr
    (by unfold SizeWraps; decide)

/-- `fffffffffffffffe CRLF`. -/
def hugeHeader : Bytes := List.replicate 15 102 ++ [101, 13, 10]

/-- A decoder at the body behind it. -/
def hugeStart : HttppEncoding :=
  { httppEncodingNew .chunked with bufReadRaw := ⟨some (List.replicate 15 102 ++ [101, 0, 10]), 18⟩ }

/-- The next header is looked for at once, and no byte is taken as the body. -/
theorem chunk_counted_wraps : headerIn (httppEncodingNew .chunked) hugeHeader = some (2 ^ 64 - 2, hugeStart) ∧
    encChunkedRead true true (httppEncodingNew .chunked) 8 (some (feed hugeHeader)) () =
      some (some [], httppEncodingNew .chunked, ()) ∧
    ¬ Counted hugeStart (2 ^ 64 - 2) (httppEncodingNew .chunked) := by
  refine ⟨by decide, by decide, ?_⟩
  intro H
  exact absurd H.stored (by decide)

end IcecastCommon.Encoding
