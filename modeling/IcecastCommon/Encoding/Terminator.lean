import IcecastCommon.Encoding.Reach

/- The end of a stream under every way to split `0 CRLF CRLF` over the calls. Two branches
   of the reader set `bytes_till_eof` to 0; the one that finds exactly the CRLF left does
   not, so it depends on the last pieces whether the end is seen. -/
namespace IcecastCommon.Encoding
open Library

/-! Calls. -/

/-- A call of `httpp_encoding_read` whose callback hands over the bytes. -/
structure Piece where
  bytes : Bytes
  len : Nat
  memBody : Bool
  nonempty : bytes ≠ []
  pos : 0 < len
  fits : len < 2 ^ 64 - 1

def pieceStep (p : Piece) (self : HttppEncoding) : Option (Reply × HttppEncoding) :=
  (httppEncodingRead true p.memBody self p.len (some (feed p.bytes)) ()).map fun r => (r.1, r.2.1)

/-- The last call gets three bytes or more and the memory for a body of length 0; or it
gets one byte, and the call before got two or more and not this memory. -/
def Recognised : List Piece → Prop
  | [] => False
  | [p] => 3 ≤ p.bytes.length ∧ p.memBody = true
  | [p, q] => 3 ≤ q.bytes.length ∧ q.memBody = true ∨
      q.bytes.length = 1 ∧ 2 ≤ p.bytes.length ∧ p.memBody = false
  | _ :: q :: r :: ps => Recognised (q :: r :: ps)

/-! One call. -/

/-- The counters and the unread bytes of a decoder without body bytes to deliver. -/
structure At (enc : HttppEncoding) (metas : List HttppMeta) (eof : Int) (toHeader : Nat) (raw : Bytes) :
    Prop where
  chunked : enc.process = .chunked
  rawOk : enc.bufReadRaw.Ok
  decodedOk : enc.bufReadDecoded.Ok
  metaRead : enc.metaRead = metas
  decoded : enc.bufReadDecoded.rest = []
  unread : enc.bufReadRaw.rest = raw
  bytesTillEof : enc.bytesTillEof = eof
  readBytesTillHeader : enc.readBytesTillHeader = toHeader

section

variable {self start : HttppEncoding} {metas : List HttppMeta} {eof : Int} {toHeader : Nat} {raw : Bytes}

/-- The first copy of a call finds nothing. -/
theorem At.copied (H : At self metas eof toHeader raw) (len : Nat) :
    (copyBuffer self.bufReadDecoded len).1.bytes = [] ∧
      At { self with bufReadDecoded := (copyBuffer self.bufReadDecoded len).2 } metas eof toHeader raw := by
  obtain ⟨hbytes, hok, hrest⟩ := copyBuffer_drained H.decodedOk H.decoded len
  exact ⟨hbytes, H.chunked, H.rawOk, hok, H.metaRead, hrest, H.unread, H.bytesTillEof, H.readBytesTillHeader⟩

/-- The callback puts its bytes behind the unread ones. -/
theorem At.received (H : At self metas eof toHeader raw) (bs : Bytes) :
    At (received self bs) metas eof toHeader (raw ++ bs) := by
  obtain ⟨hok, hrest⟩ := received_spec H.rawOk bs
  rw [H.unread] at hrest
  exact ⟨H.chunked, hok, H.decodedOk, H.metaRead, H.decoded, hrest, H.bytesTillEof, H.readBytesTillHeader⟩

/-- A call hands its bytes to the part behind the read. -/
theorem pieceStep_spec (H : At self metas eof toHeader raw) (htwo : toHeader ≤ 2) (p : Piece)
    (hfits : p.bytes.length ≤ rawWanted self) {eof' : Int} {toHeader' : Nat} {raw' : Bytes}
    (hraw : ∀ start, At start metas eof toHeader (raw ++ p.bytes) → ∃ reply self',
      chunkRaw p.memBody start = some (reply, self') ∧ At self' metas eof' toHeader' raw') :
    ∃ reply self', pieceStep p self = some (reply, self') ∧ At self' metas eof' toHeader' raw' := by
  obtain ⟨_, Hcopied⟩ := H.copied p.len
  have hf : feed p.bytes (rawWanted self) () = (some p.bytes, ()) := by
    rw [feed, List.take_of_length_le hfits]
  obtain ⟨reply, self₁, hchunk, H₁⟩ := hraw _ (Hcopied.received p.bytes)
  have hread := encChunkedRead_received (Nat.le_trans (Nat.le_of_eq Hcopied.readBytesTillHeader) htwo)
    p.nonempty hf p.memBody p.len
  rw [hchunk] at hread
  have hcall := httppEncodingRead_drained H.chunked H.decodedOk H.decoded p.pos
    (copyBuffer_short H.decodedOk H.decoded p.pos p.fits) true p.memBody (some (feed p.bytes)) ()
  unfold pieceStep
  rw [hcall, hread]
  cases reply with
  | none => exact ⟨none, self₁, rfl, H₁⟩
  | some out => exact ⟨_, _, rfl, (H₁.copied _).2⟩

theorem At.left (H : At self metas eof toHeader raw) : self.bufReadRaw.left = raw.length := by
  rw [← Buf.rest_length, H.unread]

theorem At.eofReply (H : At self metas eof toHeader raw) : httppEncodingEof self none = if eof = 0 then 1 else 0 := by
  have hleft : self.bufReadDecoded.left = 0 := by
    rw [← Buf.rest_length, H.decoded]
    rfl
  rw [httppEncodingEof, if_neg (not_not.mpr hleft), H.bytesTillEof]
  rfl

theorem eof_iff (H : At self metas eof toHeader raw) : httppEncodingEof self none = 1 ↔ eof = 0 := by
  rw [H.eofReply]
  split_ifs with h
  · exact ⟨fun _ => h, fun _ => rfl⟩
  · exact ⟨fun h' => absurd h' (by decide), fun h' => absurd h' h⟩

/-- The rest of the CRLF has come: the counter of the end is not touched. -/
theorem chunkRaw_exactly (H : At start metas eof toHeader raw) (hlen : toHeader = raw.length) (memBody : Bool) :
    ∃ self', chunkRaw memBody start = some (some [], self') ∧ At self' metas eof 0 [] := by
  rw [hlen] at H
  refine ⟨_, chunkRaw_skipped (H.left.trans H.readBytesTillHeader.symm), ?_⟩
  exact ⟨H.chunked, Buf.null_ok, H.decodedOk, H.metaRead, H.decoded, rfl, H.bytesTillEof, rfl⟩

/-- The CR of the last CRLF. -/
theorem chunkRaw_half (H : At start metas 2 2 [cr]) (memBody : Bool) :
    ∃ reply self', chunkRaw memBody start = some (reply, self') ∧ At self' metas 2 2 [cr] := by
  have hshort : start.bufReadRaw.left < start.readBytesTillHeader := by
    rw [H.left, H.readBytesTillHeader]
    decide
  have hscan : (headerScan start).offsetLF = -1 := by
    rw [headerScan, H.unread]
    exact scanHeader_cr _
  -- too few bytes for the skip: the scanner gets the lone CR and finds no end
  refine ⟨some [], start, ?_, H⟩
  rw [chunkRaw_short hshort (by rw [H.bytesTillEof]; decide), chunkHeader_eq, if_pos hscan]

/-- With bytes behind the CRLF, once the last header has been read, the end is noted. -/
theorem chunkRaw_past (H : At start metas eof toHeader raw) (heof : eof ≠ -1) (hmore : toHeader < raw.length)
    (memBody : Bool) : ∃ self', chunkRaw memBody start = some (some [], self') ∧
      At self' metas 0 0 (raw.drop toHeader) := by
  have hleft := H.left
  have hsum : start.bufReadRaw.offset + start.bufReadRaw.left = start.bufReadRaw.len := Nat.add_sub_cancel' H.rawOk
  unfold chunkRaw
  rw [H.readBytesTillHeader, hleft, if_neg (by omega)]
  simp only [if_pos hmore, H.bytesTillEof, if_pos (show eof ≠ -1 ∧ True from ⟨heof, trivial⟩)]
  refine ⟨_, rfl, H.chunked, ?_, H.decodedOk, H.metaRead, H.decoded, ?_, rfl, rfl⟩
  · show start.bufReadRaw.offset + toHeader ≤ start.bufReadRaw.len
    omega
  · show (start.bufReadRaw.mem.getD []).drop (start.bufReadRaw.offset + toHeader) = _
    rw [← List.drop_drop]
    exact congrArg (List.drop toHeader) H.unread

/-! The header of the last chunk. -/

/-- Less than the header is kept. -/
theorem chunkRaw_collect (H : At start metas (-1) 0 raw) (hfront : raw <+: [48] ++ crlf) (hne : raw ≠ [])
    (hlen : raw.length < 3) (memBody : Bool) :
    ∃ reply self', chunkRaw memBody start = some (reply, self') ∧ At self' metas (-1) 0 raw := by
  have hpos := List.length_pos_iff.mpr hne
  have hmore : start.readBytesTillHeader < start.bufReadRaw.left := by
    rw [H.left, H.readBytesTillHeader]
    exact hpos
  have hscan := lastLine.incomplete hfront hlen (start.bufReadRaw.offset + start.readBytesTillHeader)
  have hrest : (start.bufReadRaw.mem.getD []).drop (start.bufReadRaw.offset + start.readBytesTillHeader) = raw := by
    rw [H.readBytesTillHeader]
    exact H.unread
  have hok : (Buf.mk start.bufReadRaw.mem (start.bufReadRaw.offset + start.readBytesTillHeader)).Ok := by
    rw [H.readBytesTillHeader]
    exact H.rawOk
  refine ⟨some [], { start with
      bufReadRaw := ⟨start.bufReadRaw.mem, start.bufReadRaw.offset + start.readBytesTillHeader⟩
      readBytesTillHeader := 0 }, ?_, H.chunked, hok, H.decodedOk, H.metaRead, H.decoded, hrest, H.bytesTillEof, rfl⟩
  rw [chunkRaw_skip hmore H.bytesTillEof, chunkHeader_eq, if_pos]
  unfold headerScan Buf.rest
  rw [hrest]
  exact hscan

/-- The whole header: the call goes on at the body of length 0. -/
theorem chunkRaw_header {x : Bytes} (H : At start metas (-1) 0 ([48] ++ crlf ++ x)) (memBody : Bool) :
    ∃ self', chunkRaw memBody start = some (chunkBody memBody self' 0) ∧ At self' metas 2 0 x := by
  have hleft := H.left
  have hmore : start.readBytesTillHeader < start.bufReadRaw.left := by
    rw [hleft, H.readBytesTillHeader]
    exact Nat.succ_pos _
  rw [chunkRaw_skip hmore H.bytesTillEof]
  cases hmem : start.bufReadRaw.mem with
  | none =>
    have hunread := H.unread
    rw [Buf.rest, hmem, Option.getD_none, List.drop_nil] at hunread
    cases hunread
  | some m =>
    have hunread := H.unread
    rw [Buf.rest, hmem, Option.getD_some] at hunread
    have hok := H.rawOk
    rw [Buf.Ok, Buf.len, hmem, Option.getD_some] at hok
    have hlen := congrArg List.length hunread
    rw [List.length_drop, List.length_append] at hlen
    have hthree : ([48] ++ crlf : Bytes).length = 3 := rfl
    rw [← Nat.add_zero start.bufReadRaw.offset, ← H.readBytesTillHeader] at hunread
    let skipped : HttppEncoding := { start with
      bufReadRaw := ⟨some m, start.bufReadRaw.offset + start.readBytesTillHeader⟩
      readBytesTillHeader := 0 }
    have hskipped : skipped.bufReadRaw = ⟨some m, start.bufReadRaw.offset + start.readBytesTillHeader⟩ := rfl
    obtain ⟨m', hm'len, hm', heq⟩ := chunkHeader_spec lastLine hskipped hunread memBody
    have hmetas := (List.append_nil start.metaRead).trans H.metaRead
    refine ⟨_, heq, H.chunked, ?_, H.decodedOk, hmetas, H.decoded, hm', rfl, rfl⟩
    show start.bufReadRaw.offset + start.readBytesTillHeader + 1 + 2 ≤ m'.length
    rw [H.readBytesTillHeader]
    omega

/-- Without memory for a body the state is the one behind the header. -/
theorem At.failed (H : At start metas eof toHeader raw) :
    At { start with bufReadDecoded := Buf.null } metas eof toHeader raw :=
  ⟨H.chunked, H.rawOk, Buf.null_ok, H.metaRead, rfl, H.unread, H.bytesTillEof, H.readBytesTillHeader⟩

/-- The body of length 0, by what the buffer has of its CRLF. -/
theorem chunkBody_zero {x : Bytes} (H : At start metas 2 0 x) (memBody : Bool) :
    ∃ reply self', chunkBody memBody start 0 = (reply, self') ∧
      (x = [] → At self' metas 2 2 []) ∧ (x ≠ [] → memBody = false → At self' metas 2 0 x) ∧
      (x.length = 1 → memBody = true → At self' metas 2 2 x) ∧
      (2 ≤ x.length → memBody = true → At self' metas 0 0 (x.drop 2)) := by
  have hleft := H.left
  have hempty (h : x = []) : start.bufReadRaw.left = 0 := by rw [hleft, h, List.length_nil]
  have hnothing : (Buf.mk (some (start.bufReadRaw.rest.take 0)) 0).rest = [] := rfl
  rcases chunkBody_cases H.rawOk memBody 0 with ⟨hzero, heq⟩ | ⟨hpos, hnone, _⟩ | ⟨hpos, hmem, heq⟩ |
    ⟨hone, hmem, raw, hok, hrest, heq⟩ | ⟨htwo, hmem, raw, hok, hrest, heq⟩
  · have hx : x = [] := List.eq_nil_of_length_eq_zero (hleft.symm.trans hzero)
    refine ⟨_, _, heq, fun _ => ?_, fun h => absurd hx h, fun h => ?_, fun h => ?_⟩
    · exact ⟨H.chunked, Buf.null_ok, H.decodedOk, H.metaRead, H.decoded, rfl, H.bytesTillEof, rfl⟩
    · omega
    · omega
  · omega
  · refine ⟨_, _, heq, fun h => ?_, fun _ _ => H.failed, fun _ h => ?_, fun _ h => ?_⟩
    · rw [hempty h] at hpos
      cases hpos
    · exact absurd (hmem.symm.trans h) Bool.false_ne_true
    · exact absurd (hmem.symm.trans h) Bool.false_ne_true
  · -- malloc(0) gave a pointer: nothing is copied, and the CRLF is skipped if it is there
    rw [H.unread, List.drop_zero] at hrest
    refine ⟨_, _, heq, fun h => ?_, fun _ h => ?_, fun _ _ => ?_, fun h => ?_⟩
    · rw [hempty h] at hone
      cases hone
    · exact absurd (h.symm.trans hmem) Bool.false_ne_true
    · exact ⟨H.chunked, hok, Nat.zero_le _, H.metaRead, hnothing, hrest, H.bytesTillEof, rfl⟩
    · omega
  · rw [H.unread] at hrest
    have heof : start.bytesTillEof ≠ -1 := by
      rw [H.bytesTillEof]
      decide
    rw [if_pos heof] at heq
    refine ⟨_, _, heq, fun h => ?_, fun _ h => ?_, fun h => ?_, fun _ _ => ?_⟩
    · rw [hempty h] at htwo
      cases htwo
    · exact absurd (h.symm.trans hmem) Bool.false_ne_true
    · omega
    · exact ⟨H.chunked, hok, Nat.zero_le _, H.metaRead, hnothing, hrest, rfl, rfl⟩

/-! All calls. -/

theorem Piece.length_pos (p : Piece) : 0 < p.bytes.length := List.length_pos_iff.mpr p.nonempty

/-- One call and the calls behind it. -/
theorem runCalls_piece {p : Piece} {ps : List Piece} {self self₁ : HttppEncoding} {reply : Reply}
    {P : HttppEncoding → Prop} (hstep : pieceStep p self = some (reply, self₁))
    (hrun : ∃ replies self', runCalls pieceStep ps self₁ = some (replies, self') ∧ P self') :
    ∃ replies self', runCalls pieceStep (p :: ps) self = some (replies, self') ∧ P self' := by
  obtain ⟨replies, self', hrun, h⟩ := hrun
  refine ⟨reply :: replies, self', ?_, h⟩
  rw [runCalls_cons hstep, hrun]
  rfl

theorem no_pieces {ps : List Piece} (h : ps.flatMap Piece.bytes = []) : ps = [] := by
  cases ps with
  | nil => rfl
  | cons p ps => exact absurd (List.append_eq_nil_iff.mp h).1 p.nonempty

theorem lf_pieces {ps : List Piece} (h : ps.flatMap Piece.bytes = [lf]) : ∃ q, ps = [q] ∧ q.bytes = [lf] := by
  cases ps with
  | nil => cases h
  | cons q ps =>
    rcases List.append_eq_singleton_iff.mp h with ⟨hq, _⟩ | ⟨hq, hps⟩
    · exact absurd hq q.nonempty
    · exact ⟨q, by rw [no_pieces hps], hq⟩

/-- A CRLF comes in one piece or in two. -/
theorem crlf_pieces {ps : List Piece} (h : ps.flatMap Piece.bytes = crlf) :
    (∃ q, ps = [q] ∧ q.bytes = crlf) ∨ ∃ q r, ps = [q, r] ∧ q.bytes = [cr] ∧ r.bytes = [lf] := by
  cases ps with
  | nil => cases h
  | cons q ps =>
    rcases List.append_eq_cons_iff.mp h with ⟨hq, _⟩ | ⟨rest, hq, hrest⟩
    · exact absurd hq q.nonempty
    · rcases List.append_eq_singleton_iff.mp hrest.symm with ⟨rfl, hps⟩ | ⟨rfl, hps⟩
      · obtain ⟨r, rfl, hr⟩ := lf_pieces hps
        exact Or.inr ⟨q, r, rfl, hq, hr⟩
      · exact Or.inl ⟨q, by rw [no_pieces hps], hq⟩

theorem At.wanted (H : At self metas 2 toHeader raw) : rawWanted self = 2 := by
  rw [rawWanted, H.bytesTillEof]
  rfl

/-- After the header alone, its CRLF comes as the rest of a chunk: the end is not seen. -/
theorem header_then_crlf (H : At self metas 2 2 []) {ps : List Piece} (h : ps.flatMap Piece.bytes = crlf) :
    ∃ replies self', runCalls pieceStep ps self = some (replies, self') ∧ At self' metas 2 0 [] := by
  rcases crlf_pieces h with ⟨q, rfl, hq⟩ | ⟨q, r, rfl, hq, hr⟩
  · obtain ⟨reply, self₁, hstep, H₁⟩ := pieceStep_spec H (Nat.le_refl 2) q (by rw [H.wanted, hq]; exact Nat.le_refl 2)
      fun start H' => ⟨some [], chunkRaw_exactly H' (by rw [hq]; rfl) q.memBody⟩
    exact runCalls_piece hstep ⟨[], self₁, rfl, H₁⟩
  · obtain ⟨reply, self₁, hstep, H₁⟩ := pieceStep_spec H (Nat.le_refl 2) q (by rw [H.wanted, hq]; decide)
      fun start H' => chunkRaw_half (by rw [hq] at H'; exact H') q.memBody
    obtain ⟨reply₂, self₂, hstep₂, H₂⟩ := pieceStep_spec H₁ (Nat.le_refl 2) r (by rw [H₁.wanted, hr]; decide)
      fun start H' => ⟨some [], chunkRaw_exactly H' (by rw [hr]; rfl) r.memBody⟩
    exact runCalls_piece hstep (runCalls_piece hstep₂ ⟨[], self₂, rfl, H₂⟩)

/-- After the header and the CR, the LF is the rest of a chunk or, if there was no memory
for the body, the byte that shows the end. -/
theorem header_then_lf {n : Nat} (H : At self metas 2 n [cr]) (hn : n = 2 ∨ n = 0) {ps : List Piece}
    (h : ps.flatMap Piece.bytes = [lf]) :
    ∃ q replies self', ps = [q] ∧ q.bytes = [lf] ∧ runCalls pieceStep ps self = some (replies, self') ∧
      (httppEncodingEof self' none = 1 ↔ n = 0) := by
  obtain ⟨q, rfl, hq⟩ := lf_pieces h
  have hfits : q.bytes.length ≤ rawWanted self := by
    rw [H.wanted, hq]
    decide
  rcases hn with rfl | rfl
  · obtain ⟨reply, self₁, hstep, H₁⟩ := pieceStep_spec H (Nat.le_refl 2) q hfits
      fun start H' => ⟨some [], chunkRaw_exactly H' (by rw [hq]; rfl) q.memBody⟩
    refine ⟨q, [reply], self₁, rfl, hq, by rw [runCalls_cons hstep]; rfl, ?_⟩
    rw [eof_iff H₁]
    decide
  · obtain ⟨reply, self₁, hstep, H₁⟩ := pieceStep_spec H (Nat.zero_le 2) q hfits
      fun start H' => ⟨some [], chunkRaw_past H' (by decide) (Nat.succ_pos _) q.memBody⟩
    exact ⟨q, [reply], self₁, rfl, hq, by rw [runCalls_cons hstep]; rfl,
      (eof_iff H₁).trans ⟨fun _ => rfl, fun _ => rfl⟩⟩

/-- The call that gets the end of the header: it goes on at the body. -/
theorem pieceStep_header {got x : Bytes} {p : Piece} (H : At self metas (-1) 0 got)
    (hp : got ++ p.bytes = [48] ++ crlf ++ x) (hfits : p.bytes.length ≤ 1024) {eof' : Int} {toHeader' : Nat}
    {raw' : Bytes} (hbody : ∀ start, At start metas 2 0 x → ∃ reply self',
      chunkBody p.memBody start 0 = (reply, self') ∧ At self' metas eof' toHeader' raw') :
    ∃ reply self', pieceStep p self = some (reply, self') ∧ At self' metas eof' toHeader' raw' := by
  have hwanted : rawWanted self = 1024 := by
    rw [rawWanted, H.bytesTillEof]
    rfl
  refine pieceStep_spec H (Nat.zero_le 2) p (by rw [hwanted]; exact hfits) fun start H' => ?_
  rw [hp] at H'
  obtain ⟨self₁, hchunk, H₁⟩ := chunkRaw_header H' p.memBody
  obtain ⟨reply, self₂, hbody, H₂⟩ := hbody self₁ H₁
  exact ⟨reply, self₂, by rw [hchunk, hbody], H₂⟩

/-- This call and the calls behind it. -/
theorem header_complete {got x : Bytes} {p : Piece} {ps : List Piece} (H : At self metas (-1) 0 got)
    (hgot : got.length < 3) (hp : got ++ p.bytes = [48] ++ crlf ++ x) (hx : x ++ ps.flatMap Piece.bytes = crlf) :
    ∃ replies self', runCalls pieceStep (p :: ps) self = some (replies, self') ∧
      (httppEncodingEof self' none = 1 ↔ Recognised (p :: ps)) := by
  have hlen : got.length + p.bytes.length = 3 + x.length := by
    rw [← List.length_append, hp, List.length_append]
    rfl
  have hpos := p.length_pos
  rcases List.append_eq_cons_iff.mp hx with ⟨rfl, hps⟩ | ⟨y, rfl, hy⟩
  · -- the header alone
    obtain ⟨reply, self₁, hstep, H₁⟩ := pieceStep_header H hp (by rw [List.length_nil] at hlen; omega)
      fun start H' => by
        obtain ⟨reply, self', hbody, hnil, _⟩ := chunkBody_zero H' p.memBody
        exact ⟨reply, self', hbody, hnil rfl⟩
    obtain ⟨replies, self', hrun, H'⟩ := header_then_crlf H₁ hps
    refine runCalls_piece hstep ⟨replies, self', hrun, ?_⟩
    rw [eof_iff H']
    rcases crlf_pieces hps with ⟨q, rfl, hq⟩ | ⟨q, r, rfl, hq, hr⟩
    · simp [Recognised, hq, crlf]
    · simp [Recognised, hq, hr]
  · rcases List.append_eq_singleton_iff.mp hy.symm with ⟨rfl, hps⟩ | ⟨rfl, hps⟩
    · -- the header and the CR
      have htwo : 2 ≤ p.bytes.length := by
        rw [List.length_singleton] at hlen
        omega
      obtain ⟨reply, self₁, hstep, H₁⟩ := pieceStep_header H hp (by rw [List.length_singleton] at hlen; omega)
        fun start H' => by
          obtain ⟨reply, self', hbody, _, hno, hone, _⟩ := chunkBody_zero H' p.memBody
          refine ⟨reply, self', hbody, ?_⟩
          show At self' metas 2 (if p.memBody = true then 2 else 0) [cr]
          cases hmem : p.memBody with
          | true => exact hone rfl hmem
          | false => exact hno (List.cons_ne_nil _ _) hmem
      obtain ⟨q, replies, self', rfl, hq, hrun, heof⟩ := header_then_lf H₁ (by split_ifs <;> simp) hps
      refine runCalls_piece hstep ⟨replies, self', hrun, ?_⟩
      rw [heof]
      cases hmem : p.memBody with
      | true => simp [Recognised, hq, hmem]
      | false => simp [Recognised, hq, hmem, htwo]
    · -- the header and the CRLF
      obtain rfl := no_pieces hps
      have hfive : got.length + p.bytes.length = 5 := hlen
      have hthree : 3 ≤ p.bytes.length := by omega
      obtain ⟨reply, self₁, hstep, n, raw', H₁⟩ : ∃ reply self₁, pieceStep p self = some (reply, self₁) ∧
          ∃ n raw', At self₁ metas (if p.memBody = true then 0 else 2) n raw' := by
        cases hmem : p.memBody with
        | true =>
          obtain ⟨reply, self₁, hstep, H₁⟩ := pieceStep_header H hp (by omega) fun start H' => by
            obtain ⟨reply, self', hbody, _, _, _, hend⟩ := chunkBody_zero H' p.memBody
            exact ⟨reply, self', hbody, hend (Nat.le_refl 2) hmem⟩
          exact ⟨reply, self₁, hstep, _, _, H₁⟩
        | false =>
          obtain ⟨reply, self₁, hstep, H₁⟩ := pieceStep_header H hp (by omega) fun start H' => by
            obtain ⟨reply, self', hbody, _, hno, _⟩ := chunkBody_zero H' p.memBody
            exact ⟨reply, self', hbody, hno (List.cons_ne_nil _ _) hmem⟩
          exact ⟨reply, self₁, hstep, _, _, H₁⟩
      refine ⟨[reply], self₁, by rw [runCalls_cons hstep]; rfl, ?_⟩
      rw [eof_iff H₁]
      cases hmem : p.memBody with
      | true => simp [Recognised, hmem, hthree]
      | false => simp [Recognised, hmem]

/-- A call that leaves the header incomplete does not matter. -/
theorem recognised_cons {ps : List Piece} (h : 3 ≤ (ps.flatMap Piece.bytes).length) (p : Piece) :
    Recognised ps ↔ Recognised (p :: ps) := by
  match ps with
  | [] => cases h
  | [q] =>
    rw [List.flatMap_singleton] at h
    have hone : q.bytes.length ≠ 1 := by omega
    simp only [Recognised, hone, false_and, or_false]
  | q :: r :: ps => rfl

/-- The calls from any part of the header on. -/
theorem pieces_end {got : Bytes} {ps : List Piece} (H : At self metas (-1) 0 got)
    (hps : got ++ ps.flatMap Piece.bytes = lastChunk) (hgot : got.length < 3) :
    ∃ replies self', runCalls pieceStep ps self = some (replies, self') ∧
      (httppEncodingEof self' none = 1 ↔ Recognised ps) := by
  induction ps generalizing self got with
  | nil =>
    rw [List.flatMap_nil, List.append_nil] at hps
    rw [hps] at hgot
    exact absurd hgot (by decide)
  | cons p ps ih =>
    -- on the calls; `got` is what the buffer has of the header, and the call either completes
    -- it or leaves it for the next one
    rw [List.flatMap_cons, ← List.append_assoc] at hps
    have hlast : lastChunk = [48] ++ crlf ++ crlf := rfl
    have htotal := congrArg List.length hps
    rw [List.length_append, List.length_append, show lastChunk.length = 5 from rfl] at htotal
    by_cases hlen : (got ++ p.bytes).length < 3
    · have hfront : got ++ p.bytes <+: [48] ++ crlf :=
        List.prefix_of_prefix_length_le ⟨_, hps⟩ ⟨_, hlast.symm⟩ (Nat.le_of_lt hlen)
      have hwanted : rawWanted self = 1024 := by
        rw [rawWanted, H.bytesTillEof]
        rfl
      obtain ⟨reply, self₁, hstep, H₁⟩ := pieceStep_spec H (Nat.zero_le 2) p (by rw [hwanted]; omega)
        fun start H' => chunkRaw_collect H' hfront (List.append_ne_nil_of_right_ne_nil _ p.nonempty) hlen p.memBody
      obtain ⟨replies, self', hrun, heof⟩ := ih H₁ hps hlen
      refine runCalls_piece hstep ⟨replies, self', hrun, heof.trans ?_⟩
      rw [List.length_append] at hlen
      exact recognised_cons (by omega) p
    · have hfront : [48] ++ crlf <+: got ++ p.bytes :=
        List.prefix_of_prefix_length_le ⟨_, hlast.symm⟩ ⟨_, hps⟩ (Nat.le_of_not_lt hlen)
      obtain ⟨x, hx⟩ := hfront
      have hcrlf : [48] ++ crlf ++ (x ++ ps.flatMap Piece.bytes) = [48] ++ crlf ++ crlf := by
        rw [← List.append_assoc, hx, hps, hlast]
      exact header_complete H hgot hx.symm (List.append_cancel_left hcrlf)

end

/-- The end of the stream is seen with the last byte of the terminator for the splits that
`Recognised` describes, and for no other. -/
theorem terminator_seen {self : HttppEncoding} (hself : Reachable self) (hraw : self.bufReadRaw.rest = [])
    (hdecoded : self.bufReadDecoded.rest = []) (hheader : self.readBytesTillHeader = 0)
    (heof : self.bytesTillEof = -1) {pieces : List Piece} (hpieces : pieces.flatMap Piece.bytes = lastChunk) :
    ∃ replies self', runCalls pieceStep pieces self = some (replies, self') ∧
      (httppEncodingEof self' none = 1 ↔ Recognised pieces) := by
  obtain ⟨hproc, hrawOk, hdecodedOk⟩ := hself.sound
  exact pieces_end ⟨hproc, hrawOk, hdecodedOk, rfl, hdecoded, hraw, heof, hheader⟩ hpieces (Nat.succ_pos 2)

/-- A call with these bytes whose allocations succeed. -/
def pieceOf (bs : Bytes) (h : bs ≠ []) : Piece where
  bytes := bs
  len := 1024
  memBody := true
  nonempty := h
  pos := by decide
  fits := by decide

/-- The header, then its CRLF. -/
def splitPieces : List Piece := [pieceOf ([48] ++ crlf) (List.cons_ne_nil _ _), pieceOf crlf (List.cons_ne_nil _ _)]

theorem terminator_seen_split :
    splitPieces.flatMap Piece.bytes = lastChunk ∧ ∃ replies self',
      runCalls pieceStep splitPieces (httppEncodingNew .chunked) = some (replies, self') ∧
      (httppEncodingEof self' none = 1 ↔ Recognised splitPieces) :=
  ⟨rfl, terminator_seen .new rfl rfl rfl rfl rfl⟩

/-- The five bytes in one call are recognised; the header and its CRLF in two are not. -/
theorem terminator_unseen :
    (∃ replies self', runCalls pieceStep [pieceOf lastChunk (List.cons_ne_nil _ _)] (httppEncodingNew .chunked) =
      some (replies, self') ∧ httppEncodingEof self' none = 1) ∧
    splitPieces.flatMap Piece.bytes = lastChunk ∧ ∃ replies self',
      runCalls pieceStep splitPieces (httppEncodingNew .chunked) = some (replies, self') ∧
      httppEncodingEof self' none = 0 :=
  ⟨⟨_, _, rfl, rfl⟩, rfl, _, _, rfl, rfl⟩

end IcecastCommon.Encoding
