import IcecastCommon.Encoding.Stream
import IcecastCommon.Library.Calls

/- Runs of `httpp_encoding_read` on a chunked stream that the callback hands over piece
   by piece. `Phase` says where the reader stands in the stream and `Reading` is the
   invariant: what was returned, what is decoded and what is still to come are the
   bodies. Every call keeps it, however the stream is cut. -/
namespace IcecastCommon.Encoding
open Library

/-! Calls. -/

/-- What the callback does in a call: it is NULL, it fails, or it hands over as many of the
next bytes as are asked for, but no more than a number. -/
inductive Feed where
  | null
  | fail
  | give (quota : Nat)

/-- The callback; its userdata is the part of the stream that was not handed over. -/
def Feed.callback : Feed → Option (ReadCallback Bytes)
  | .null => none
  | .fail => some fun _ R => (none, R)
  | .give quota => some fun n R => (some (R.take (min quota n)), R.drop (min quota n))

/-- A call of `httpp_encoding_read`; `memRaw` is the luck of its first allocation. -/
structure ReadCall where
  len : Nat
  feed : Feed
  memRaw : Bool
  pos : 0 < len
  fits : len < 2 ^ 64

def readStep (c : ReadCall) (st : HttppEncoding × Bytes) :
    Option (Reply × (HttppEncoding × Bytes)) :=
  httppEncodingRead c.memRaw true st.1 c.len c.feed.callback st.2

/-- A call that asks for and gets a byte at a time. -/
def byteCall : ReadCall where
  len := 1
  feed := .give 1
  memRaw := true
  pos := Nat.one_pos
  fits := by decide

/-- The bytes returned so far. -/
def output (out : Bytes) (_ : ReadCall) (reply : Reply) : Bytes := out ++ reply.bytes

/-- A run on a stream of which nothing was handed over. -/
def readNew (calls : List ReadCall) (stream : Bytes) :
    Option (List Reply × (HttppEncoding × Bytes)) :=
  runCalls readStep calls (httppEncodingNew .chunked, stream)

/-! The invariant. -/

/-- The length of the line the next header is in. -/
def lineLen : List Chunk → Ending → Nat
  | c :: _, _ => c.header.length + 2
  | [], .last => 3
  | [], .open => 1

/-- Where the reader stands: by `bytes_till_eof`, `read_bytes_till_header`, the unread part
of the raw buffer and the bytes not yet handed over. The last two indices are the bodies
and the metadata still to come. A header among all `n` chunks that was looked at once is
not complete. -/
inductive Phase (e : Ending) (n : Nat) :
    Int → Nat → Bytes → Bytes → Bytes → List HttppMeta → Prop where
  | header {cs : List Chunk} {rest R : Bytes} (stream : rest ++ R = encode cs e)
      (fresh : cs.length < n ∨ cs.length = n ∧ rest.length < lineLen cs e) :
      Phase e n (-1) 0 rest R (bodies cs) (metasOf cs)
  | body {b : Bytes} {cs : List Chunk} {R : Bytes} (stream : R = b ++ crlf ++ encode cs e)
      (nonempty : b ≠ []) (fresh : cs.length < n) :
      Phase e n (-1) (b.length + 2) [] R (b ++ bodies cs) (metasOf cs)
  | tail {cs : List Chunk} {rest R : Bytes} (stream : rest ++ R = crlf ++ encode cs e)
      (short : rest.length < 2) (fresh : cs.length < n) :
      Phase e n (-1) 2 rest R (bodies cs) (metasOf cs)
  | last {rest R : Bytes} (stream : rest ++ R = crlf) (short : rest.length < 2) :
      Phase e n 2 2 rest R [] []
  | done {bte : Int} (eof : bte = 0 ∨ bte = 2) : Phase e n bte 0 [] [] [] []

/-- The reader of a stream with the bodies `D` and the metadata `M` after it returned `out`. -/
structure Reading (e : Ending) (n : Nat) (D : Bytes) (M : List HttppMeta) (out : Bytes)
    (st : HttppEncoding × Bytes) : Prop where
  chunked : st.1.process = .chunked
  rawOk : st.1.bufReadRaw.Ok
  decodedOk : st.1.bufReadDecoded.Ok
  small : st.1.bufReadDecoded.rest.length < 2 ^ 63
  phase : ∃ todo metas, Phase e n st.1.bytesTillEof st.1.readBytesTillHeader
    st.1.bufReadRaw.rest st.2 todo metas ∧ D = out ++ st.1.bufReadDecoded.rest ++ todo ∧
    M = st.1.metaRead ++ metas

theorem reading_new (cs : List Chunk) (e : Ending) :
    Reading e cs.length (bodies cs) (metasOf cs) [] (httppEncodingNew .chunked, encode cs e) := by
  refine ⟨rfl, Buf.null_ok, Buf.null_ok, Nat.two_pow_pos 63, bodies cs, metasOf cs, ?_, rfl, rfl⟩
  refine Phase.header rfl (Or.inr ⟨rfl, ?_⟩)
  show 0 < lineLen cs e
  cases cs with
  | nil => cases e <;> decide
  | cons c cs => exact Nat.succ_pos _

theorem encode_cons (c : Chunk) (cs : List Chunk) (e : Ending) :
    encode (c :: cs) e = c.header ++ crlf ++ (c.body ++ crlf ++ encode cs e) := by
  simp only [encode, List.flatMap_cons, List.append_assoc]

theorem metasOf_cons (c : Chunk) (cs : List Chunk) :
    metasOf (c :: cs) = c.metas ++ metasOf cs := rfl

/-! The header. -/

section

variable {e : Ending} {n : Nat} {D out R m : Bytes} {M : List HttppMeta} {self : HttppEncoding}
  {o : Nat} {cs : List Chunk}

/-- Behind the header of a chunk. -/
theorem chunkBody_reading (self : HttppEncoding) (c : Chunk) (hproc : self.process = .chunked)
    (hok : self.bufReadRaw.Ok) (hdecOk : self.bufReadDecoded.Ok) (hdec : self.bufReadDecoded.rest = [])
    (hbte : self.bytesTillEof = -1) (hstream : self.bufReadRaw.rest ++ R = c.body ++ crlf ++ encode cs e)
    (hn : cs.length < n) (hD : D = out ++ (c.body ++ bodies cs))
    (hM : M = self.metaRead ++ metasOf cs) :
    ∃ self', chunkBody true self c.body.length = (some [], self') ∧
      Reading e n D M out (self', R) := by
  have hleft := self.bufReadRaw.rest_length
  have hfits := c.fits
  rw [List.append_assoc] at hstream
  by_cases hx : self.bufReadRaw.rest = []
  · have hzero : self.bufReadRaw.left = 0 := by
      rw [← hleft, hx]
      rfl
    rw [hx, List.nil_append, ← List.append_assoc] at hstream
    have hsmall : self.bufReadDecoded.rest.length < 2 ^ 63 := by
      rw [hdec]
      exact Nat.two_pow_pos 63
    have hD' : D = out ++ self.bufReadDecoded.rest ++ (c.body ++ bodies cs) := by
      rw [hdec, List.append_nil, hD]
    refine ⟨_, chunkBody_end hok hzero true, hproc, Buf.null_ok, hdecOk, hsmall, _, _, ?_, hD', hM⟩
    rw [hbte, Nat.mod_eq_of_lt (by omega)]
    exact Phase.body hstream c.nonempty hn
  have hpos := List.length_pos_iff.mpr hx
  by_cases hle : self.bufReadRaw.rest.length ≤ c.body.length
  · -- the buffer ends within the body
    obtain ⟨b, hb⟩ : ∃ b, c.body = self.bufReadRaw.rest ++ b := by
      obtain ⟨b, hb⟩ := List.prefix_of_prefix_length_le ⟨R, hstream⟩
        (List.prefix_append _ _) hle
      exact ⟨b, hb.symm⟩
    have hR : R = b ++ crlf ++ encode cs e := by
      rw [hb, List.append_assoc] at hstream
      rw [List.append_cancel_left hstream, List.append_assoc]
    have hlen : (c.body.length + 2 - self.bufReadRaw.left) % 2 ^ 64 = b.length + 2 := by
      rw [Nat.mod_eq_of_lt (by omega), hb, ← hleft, List.length_append]
      omega
    have hD' : D = out ++ self.bufReadRaw.rest ++ (b ++ bodies cs) := by
      rw [hD, hb]
      simp only [List.append_assoc]
    have hsmall : self.bufReadRaw.rest.length < 2 ^ 63 := Nat.lt_of_le_of_lt hle hfits
    rw [hleft] at hpos hle
    refine ⟨_, chunkBody_part hpos hle true, hproc, Buf.null_ok, hok, hsmall, _, _, ?_, hD', hM⟩
    rw [hbte, hlen]
    by_cases hbne : b = []
    · subst hbne
      exact Phase.tail hR Nat.zero_lt_two hn
    · exact Phase.body hR hbne hn
  · -- the whole body is in the buffer
    obtain ⟨y, hy⟩ : ∃ y, self.bufReadRaw.rest = c.body ++ y := by
      obtain ⟨y, hy⟩ := List.prefix_of_prefix_length_le (List.prefix_append _ _) ⟨R, hstream⟩
        (Nat.le_of_not_le hle)
      exact ⟨y, hy.symm⟩
    have hyR : y ++ R = crlf ++ encode cs e := by
      rw [hy, List.append_assoc] at hstream
      exact List.append_cancel_left hstream
    have htake : self.bufReadRaw.rest.take c.body.length = c.body := by rw [hy, List.take_left]
    have hdrop : self.bufReadRaw.rest.drop c.body.length = y := by rw [hy, List.drop_left]
    have hlen : self.bufReadRaw.left = c.body.length + y.length := by rw [← hleft, hy, List.length_append]
    have hD' : D = out ++ c.body ++ bodies cs := by rw [hD, List.append_assoc]
    by_cases hshort : y.length < 2
    · obtain ⟨raw, hraw, hrest, heq⟩ := chunkBody_byte (show self.bufReadRaw.left = c.body.length + 1 by omega)
      rw [htake] at heq
      refine ⟨_, heq, hproc, hraw, Nat.zero_le _, hfits, _, _, ?_, hD', hM⟩
      simp only [hrest, hdrop, hbte]
      exact Phase.tail hyR hshort hn
    · obtain ⟨raw, hraw, hrest, heq⟩ := chunkBody_whole (show c.body.length + 2 ≤ self.bufReadRaw.left by omega)
      rw [htake] at heq
      obtain ⟨z, hz⟩ := List.prefix_of_prefix_length_le (List.prefix_append crlf _) ⟨R, hyR⟩
        (Nat.le_of_not_lt hshort)
      have hr : raw.rest = z := by
        rw [hrest, ← List.drop_drop, hdrop, ← hz]
        rfl
      have hzR : z ++ R = encode cs e := by
        rw [← hz, List.append_assoc] at hyR
        exact List.append_cancel_left hyR
      refine ⟨_, heq, hproc, hraw, Nat.zero_le _, hfits, _, _, ?_, hD', hM⟩
      simp only [hbte, ne_eq, not_true_eq_false, if_false, hr]
      exact Phase.header hzR (Or.inl hn)

/-- Behind the header of the last chunk. -/
theorem lastBody_reading (self : HttppEncoding) (hproc : self.process = .chunked)
    (hok : self.bufReadRaw.Ok) (hdecOk : self.bufReadDecoded.Ok) (hdec : self.bufReadDecoded.rest = [])
    (hbte : self.bytesTillEof = 2) (hstream : self.bufReadRaw.rest ++ R = crlf) (hD : D = out)
    (hM : M = self.metaRead) :
    ∃ self', chunkBody true self 0 = (some [], self') ∧ Reading e n D M out (self', R) := by
  have hleft := self.bufReadRaw.rest_length
  have hsmall : self.bufReadDecoded.rest.length < 2 ^ 63 := by
    rw [hdec]
    exact Nat.two_pow_pos 63
  have hlen := congrArg List.length hstream
  rw [List.length_append, show crlf.length = 2 from rfl] at hlen
  have hD' : D = out ++ [] ++ [] := by rw [hD, List.append_nil, List.append_nil]
  have hM' : M = self.metaRead ++ [] := by rw [hM, List.append_nil]
  -- nothing, the CR or the whole CRLF is in the buffer
  rcases chunkBody_cases hok true 0 with ⟨hzero, heq⟩ | ⟨hpos, hnone, _⟩ | ⟨_, hmem, _⟩ |
    ⟨hone, _, raw, hraw, hrest, heq⟩ | ⟨htwo, _, raw, hraw, hrest, heq⟩
  · have hx : self.bufReadRaw.rest = [] := List.eq_nil_of_length_eq_zero (hleft.trans hzero)
    rw [hx] at hstream
    have hD'' : D = out ++ self.bufReadDecoded.rest ++ [] := by rw [hdec]; exact hD'
    refine ⟨_, heq, hproc, Buf.null_ok, hdecOk, hsmall, _, _, ?_, hD'', hM'⟩
    rw [hbte]
    exact Phase.last hstream Nat.zero_lt_two
  · omega
  · cases hmem
  · rw [List.drop_zero] at hrest
    rw [← hrest] at hstream hleft
    have hshort : raw.rest.length < 2 := by omega
    refine ⟨_, heq, hproc, hraw, Nat.zero_le _, Nat.two_pow_pos 63, _, _, ?_, hD', hM'⟩
    rw [hbte]
    exact Phase.last hstream hshort
  · have hR : R = [] := List.eq_nil_of_length_eq_zero (by omega)
    have hr : raw.rest = [] := by rw [hrest, List.drop_of_length_le (by omega)]
    refine ⟨_, heq, hproc, hraw, Nat.zero_le _, Nat.two_pow_pos 63, _, _, ?_, hD', hM'⟩
    simp only [hbte, hr, hR]
    exact Phase.done (Or.inl rfl)

/-- A header, complete or not. -/
theorem chunkHeader_reading (self : HttppEncoding) (hproc : self.process = .chunked)
    (hraw : self.bufReadRaw = ⟨some m, o⟩) (ho : o ≤ m.length)
    (hdecOk : self.bufReadDecoded.Ok) (hdec : self.bufReadDecoded.rest = [])
    (hbte : self.bytesTillEof = -1) (hrbh : self.readBytesTillHeader = 0)
    (hstream : m.drop o ++ R = encode cs e) (hn : cs.length ≤ n) (hD : D = out ++ bodies cs)
    (hM : M = self.metaRead ++ metasOf cs) :
    ∃ self', chunkHeader true self = some (some [], self') ∧ Reading e n D M out (self', R) := by
  have short (hlen : (m.drop o).length < lineLen cs e)
      (hscan : (scanHeader o (m.drop o) Scan.start).offsetLF = -1) :
      ∃ self', chunkHeader true self = some (some [], self') ∧ Reading e n D M out (self', R) := by
    refine ⟨self, ?_, hproc, ?_, hdecOk, ?_, bodies cs, metasOf cs, ?_, ?_, hM⟩
    · unfold chunkHeader
      simp only [hraw, Buf.some_rest]
      rw [if_pos hscan]
    · show self.bufReadRaw.Ok
      rw [hraw]
      exact ho
    · show self.bufReadDecoded.rest.length < 2 ^ 63
      rw [hdec]
      exact Nat.two_pow_pos 63
    · simp only [hraw, hbte, hrbh, Buf.some_rest]
      refine Phase.header hstream ?_
      rcases Nat.lt_or_eq_of_le hn with h | h
      · exact Or.inl h
      · exact Or.inr ⟨h, hlen⟩
    · rw [hD, hdec, List.append_nil]
  cases cs with
  | nil =>
    cases e with
    | «open» =>
      have hx : m.drop o = [] := (List.append_eq_nil_iff.mp hstream).1
      refine short ?_ (by rw [hx]; rfl)
      rw [hx]
      exact Nat.one_pos
    | last =>
      have hstream' : m.drop o ++ R = [48] ++ crlf ++ crlf := hstream
      by_cases hlen : (m.drop o).length < 3
      · exact short hlen (lastLine.incomplete (List.prefix_of_prefix_length_le ⟨R, hstream'⟩
          (List.prefix_append _ _) (Nat.le_of_lt hlen)) hlen o)
      · obtain ⟨x, hx⟩ := List.prefix_of_prefix_length_le (List.prefix_append ([48] ++ crlf) crlf)
          ⟨R, hstream'⟩ (Nat.le_of_not_lt hlen)
        obtain ⟨m', hm'len, hm', heq⟩ := chunkHeader_spec lastLine hraw hx.symm true
        rw [← hx, List.append_assoc] at hstream'
        have hxR := List.append_cancel_left hstream'
        rw [← hm'] at hxR
        have hlen' := congrArg List.length hx
        simp only [crlf, List.length_append, List.length_drop, List.length_cons,
          List.length_nil] at hlen'
        rw [if_pos rfl, List.append_nil] at heq
        have hD0 : D = out := hD.trans (List.append_nil _)
        have hM0 : M = self.metaRead := hM.trans (List.append_nil _)
        obtain ⟨self', hbody, hread⟩ := lastBody_reading (e := .last) (n := n)
          { self with
            bufReadRaw := ⟨some m', o + [48].length + 2⟩
            bytesTillEof := 2 } hproc
          (by show o + [48].length + 2 ≤ m'.length; rw [hm'len]; simp only [List.length_cons, List.length_nil]; omega)
          hdecOk hdec rfl hxR hD0 hM0
        exact ⟨self', heq.trans (congrArg some hbody), hread⟩
  | cons c cs =>
    rw [encode_cons] at hstream
    by_cases hlen : (m.drop o).length < c.header.length + 2
    · refine short hlen (c.line.incomplete (List.prefix_of_prefix_length_le ⟨R, hstream⟩
        (List.prefix_append _ _) ?_) hlen o)
      rw [List.length_append]
      exact Nat.le_of_lt hlen
    · obtain ⟨x, hx⟩ := List.prefix_of_prefix_length_le (List.prefix_append (c.header ++ crlf) _)
        ⟨R, hstream⟩ (by rw [List.length_append]; exact Nat.le_of_not_lt hlen)
      obtain ⟨m', hm'len, hm', heq⟩ := chunkHeader_spec c.line hraw hx.symm true
      rw [← hx, List.append_assoc] at hstream
      have hxR := List.append_cancel_left hstream
      rw [← hm'] at hxR
      have hlen' := congrArg List.length hx
      simp only [crlf, List.length_append, List.length_drop, List.length_cons,
        List.length_nil] at hlen'
      rw [if_neg (fun h => c.nonempty (List.eq_nil_of_length_eq_zero h))] at heq
      have hM0 : M = self.metaRead ++ c.metas ++ metasOf cs := by
        rw [hM, metasOf_cons, List.append_assoc]
      obtain ⟨self', hbody, hread⟩ := chunkBody_reading
        { self with
          metaRead := self.metaRead ++ c.metas
          bufReadRaw := ⟨some m', o + c.header.length + 2⟩ } c hproc
        (by show o + c.header.length + 2 ≤ m'.length; rw [hm'len]; omega) hdecOk hdec hbte hxR hn hD
        hM0
      exact ⟨self', heq.trans (congrArg some hbody), hread⟩

theorem scanHeader_cr (i : Nat) : (scanHeader i [cr] Scan.start).offsetLF = -1 := rfl

/-- A lone CR of the CRLF behind a body stays in the buffer. -/
theorem chunkHeader_cr (hraw : self.bufReadRaw = ⟨some m, o⟩) (hcr : m.drop o = [cr]) :
    chunkHeader true self = some (some [], self) := by
  unfold chunkHeader
  simp only [hraw, Buf.some_rest, hcr]
  rw [if_pos (scanHeader_cr o)]

theorem eq_cr_of_prefix {x t : Bytes} (h : x ++ R = crlf ++ t) (hne : x ≠ []) (hlen : x.length < 2) :
    x = [cr] := by
  cases x with
  | nil => exact absurd rfl hne
  | cons c xs =>
    have hxs : xs = [] := List.eq_nil_of_length_eq_zero (by simp only [List.length_cons] at hlen; omega)
    subst hxs
    rw [List.cons_append] at h
    exact congrArg (· :: []) (List.cons.inj h).1

theorem chunkRaw_skipped {memBody : Bool} (h : self.bufReadRaw.left = self.readBytesTillHeader) :
    chunkRaw memBody self =
      some (some [], { self with bufReadRaw := Buf.null, readBytesTillHeader := 0 }) := by
  unfold chunkRaw
  rw [if_pos h]

theorem chunkRaw_skip {memBody : Bool} (h : self.readBytesTillHeader < self.bufReadRaw.left)
    (hbte : self.bytesTillEof = -1) :
    chunkRaw memBody self = chunkHeader memBody
      { self with
        bufReadRaw := ⟨self.bufReadRaw.mem, self.bufReadRaw.offset + self.readBytesTillHeader⟩
        readBytesTillHeader := 0 } := by
  unfold chunkRaw
  rw [if_neg (by omega)]
  simp only [if_pos h, hbte]
  rfl

theorem chunkRaw_short {memBody : Bool} (h : self.bufReadRaw.left < self.readBytesTillHeader)
    (hbte : self.bytesTillEof ≠ 0) : chunkRaw memBody self = chunkHeader memBody self := by
  unfold chunkRaw
  have hlt : ¬self.readBytesTillHeader < self.bufReadRaw.left := by omega
  have hz : ¬(self.bytesTillEof ≠ -1 ∧ self.readBytesTillHeader = 0) := by omega
  rw [if_neg (by omega)]
  simp only [if_neg hlt, if_neg hz, if_neg hbte]

/-- The part behind a read of the bytes `new` into the raw buffer. -/
theorem chunkRaw_reading (self : HttppEncoding) {rest new todo : Bytes} {metas : List HttppMeta}
    (hproc : self.process = .chunked) (hraw : self.bufReadRaw = ⟨some m, o⟩) (ho : o ≤ m.length)
    (hdecOk : self.bufReadDecoded.Ok) (hdec : self.bufReadDecoded.rest = [])
    (hphase : Phase e n self.bytesTillEof self.readBytesTillHeader rest (new ++ R) todo metas)
    (hm : m.drop o = rest ++ new) (hnew : new ≠ []) (hrbh : self.readBytesTillHeader ≤ 2)
    (hD : D = out ++ todo) (hM : M = self.metaRead ++ metas) :
    ∃ self', chunkRaw true self = some (some [], self') ∧ Reading e n D M out (self', R) := by
  have hsmall : self.bufReadDecoded.rest.length < 2 ^ 63 := by
    rw [hdec]
    exact Nat.two_pow_pos 63
  have hD' : D = out ++ self.bufReadDecoded.rest ++ todo := by rw [hdec, List.append_nil, hD]
  have hleft : self.bufReadRaw.left = (m.drop o).length := by
    rw [← Buf.rest_length, hraw, Buf.some_rest]
  have hne : m.drop o ≠ [] := by
    rw [hm]
    exact fun h => hnew (List.append_eq_nil_iff.mp h).2
  have hpos := List.length_pos_iff.mpr hne
  have hlen : (m.drop o).length = m.length - o := List.length_drop
  have hrawOk : self.bufReadRaw.Ok := by
    rw [hraw]
    exact ho
  generalize hb : self.bytesTillEof = bte at hphase
  generalize hr : self.readBytesTillHeader = rbh at hphase hrbh
  generalize hR0 : new ++ R = R0 at hphase
  cases hphase with
  | header stream fresh =>
    rw [← hR0, ← List.append_assoc, ← hm] at stream
    rw [chunkRaw_skip (by omega) hb]
    simp only [hraw, hr]
    exact chunkHeader_reading _ hproc rfl ho hdecOk hdec hb rfl stream (by omega) hD hM
  | body stream nonempty fresh =>
    have := List.length_pos_iff.mpr nonempty
    omega
  | tail stream short fresh =>
    rw [← hR0, ← List.append_assoc, ← hm] at stream
    -- a part of the CRLF, the CRLF, or bytes of the next header behind it
    rcases Nat.lt_trichotomy (m.drop o).length 2 with h | h | h
    · have hcr := eq_cr_of_prefix stream hne h
      rw [chunkRaw_short (by omega) (by rw [hb]; decide)]
      refine ⟨self, chunkHeader_cr hraw hcr, hproc, hrawOk, hdecOk, hsmall, _, _, ?_, hD', hM⟩
      simp only [hb, hr, hraw, Buf.some_rest]
      exact Phase.tail stream h fresh
    · rw [chunkRaw_skipped (by omega)]
      refine ⟨_, rfl, hproc, Buf.null_ok, hdecOk, hsmall, _, _, ?_, hD', hM⟩
      have hR : R = encode _ e := (List.append_inj stream h).2
      simp only [hb]
      exact Phase.header hR (Or.inl fresh)
    · obtain ⟨x, hx⟩ := List.prefix_of_prefix_length_le (List.prefix_append crlf _) ⟨R, stream⟩
        (Nat.le_of_lt h)
      have hx' : m.drop (o + 2) = x := by
        rw [← List.drop_drop, ← hx]
        rfl
      rw [← hx, List.append_assoc] at stream
      have hxR := List.append_cancel_left stream
      rw [← hx'] at hxR
      rw [chunkRaw_skip (by omega) hb]
      simp only [hraw, hr]
      exact chunkHeader_reading _ hproc rfl (by omega) hdecOk hdec hb rfl hxR (by omega) hD hM
  | last stream short =>
    rw [← hR0, ← List.append_assoc, ← hm] at stream
    have hlen2 := congrArg List.length stream
    rw [List.length_append, show crlf.length = 2 from rfl] at hlen2
    by_cases h : (m.drop o).length < 2
    · have hcr := eq_cr_of_prefix (t := []) stream hne h
      rw [chunkRaw_short (by omega) (by rw [hb]; decide)]
      refine ⟨self, chunkHeader_cr hraw hcr, hproc, hrawOk, hdecOk, hsmall, _, _, ?_, hD', hM⟩
      simp only [hb, hr, hraw, Buf.some_rest]
      exact Phase.last stream h
    · rw [chunkRaw_skipped (by omega)]
      have hR : R = [] := List.eq_nil_of_length_eq_zero (by omega)
      refine ⟨_, rfl, hproc, Buf.null_ok, hdecOk, hsmall, _, _, ?_, hD', hM⟩
      simp only [hb, hR]
      exact Phase.done (Or.inr rfl)
  | done eof => exact absurd (List.append_eq_nil_iff.mp hR0).1 hnew

/-! One call. -/

theorem growRaw_mem (raw : Buf) : (growRaw raw).mem.getD [] = raw.mem.getD [] := by
  obtain ⟨mem, offset⟩ := raw
  cases mem <;> rfl

theorem growRaw_offset {raw : Buf} (h : raw.Ok) : (growRaw raw).offset = raw.offset := by
  obtain ⟨mem, offset⟩ := raw
  cases mem with
  | none => exact (Nat.le_zero.mp h).symm
  | some mem => rfl

theorem dropRaw_growRaw {raw : Buf} (h : raw.Ok) :
    (dropRaw (growRaw raw)).Ok ∧ (dropRaw (growRaw raw)).rest = raw.rest := by
  obtain ⟨mem, offset⟩ := raw
  cases mem with
  | none => exact ⟨Nat.le_refl 0, List.drop_nil.symm⟩
  | some mem =>
    show (dropRaw ⟨some mem, offset⟩).Ok ∧ (dropRaw ⟨some mem, offset⟩).rest = mem.drop offset
    unfold dropRaw
    by_cases hz : (Buf.mk (some mem) offset).len = 0
    · rw [if_pos hz]
      have hm : mem = [] := List.eq_nil_of_length_eq_zero hz
      subst hm
      exact ⟨h, rfl⟩
    · rw [if_neg hz]
      exact ⟨h, rfl⟩

/-- The state with the bytes of the callback in the raw buffer. -/
def received (self : HttppEncoding) (bs : Bytes) : HttppEncoding :=
  { self with bufReadRaw :=
      ⟨some ((growRaw self.bufReadRaw).mem.getD [] ++ bs), (growRaw self.bufReadRaw).offset⟩ }

theorem received_spec {self : HttppEncoding} (hok : self.bufReadRaw.Ok) (bs : Bytes) :
    (received self bs).bufReadRaw.Ok ∧ (received self bs).bufReadRaw.rest = self.bufReadRaw.rest ++ bs := by
  unfold received Buf.Ok Buf.len Buf.rest
  simp only [growRaw_mem, growRaw_offset hok, Option.getD_some]
  refine ⟨?_, List.drop_append_of_le_length hok⟩
  rw [List.length_append]
  exact Nat.le_trans hok (Nat.le_add_right _ _)

/-- What the callback is asked for when it is to fill the raw buffer. -/
def rawWanted (self : HttppEncoding) : Nat := if self.bytesTillEof ≠ -1 then self.bytesTillEof.toNat else 1024

/-- A call near a header whose callback hands over bytes. -/
theorem encChunkedRead_received {σ : Type} {self : HttppEncoding} {bs : Bytes} (hrbth : self.readBytesTillHeader ≤ 2)
    (hbs : bs ≠ []) {f : ReadCallback σ} {userdata userdata' : σ}
    (hf : f (rawWanted self) userdata = (some bs, userdata')) (memBody : Bool) (len : Nat) :
    encChunkedRead true memBody self len (some f) userdata =
      (chunkRaw memBody (received self bs)).map fun r => (r.1, r.2, userdata') := by
  unfold rawWanted at hf
  unfold encChunkedRead
  have hno : ¬ 2 < self.readBytesTillHeader := Nat.not_lt.mpr hrbth
  simp only [if_neg hno, hf, Bool.true_eq_false, if_false]
  cases bs with
  | nil => exact absurd rfl hbs
  | cons b bs =>
    show (chunkRaw memBody (received self (b :: bs))).bind _ = _
    cases chunkRaw memBody (received self (b :: bs)) <;> rfl

/-- What a call does with any callback: it counts bytes of a body, it gets nothing for the
raw buffer, or it goes on with the bytes it got. -/
theorem encChunkedRead_inv {σ : Type} {memRaw memBody : Bool} {self self' : HttppEncoding} {len : Nat}
    {cb : Option (ReadCallback σ)} {userdata userdata' : σ} {reply : Reply}
    (h : encChunkedRead memRaw memBody self len cb userdata = some (reply, self', userdata')) :
    (∃ k, self' = { self with readBytesTillHeader := k }) ∨
      self' = { self with bufReadRaw := dropRaw (growRaw self.bufReadRaw) } ∨
      ∃ bs, bs ≠ [] ∧ chunkRaw memBody (received self bs) = some (reply, self') := by
  unfold encChunkedRead at h
  cases cb with
  | none =>
    cases h
    exact Or.inl ⟨_, rfl⟩
  | some cb =>
    simp only at h
    by_cases hrbth : 2 < self.readBytesTillHeader
    · rw [if_pos hrbth] at h
      split at h
      all_goals
        cases h
        exact Or.inl ⟨_, rfl⟩
    · rw [if_neg hrbth] at h
      by_cases hmem : memRaw = false
      · rw [if_pos hmem] at h
        cases h
        exact Or.inl ⟨_, rfl⟩
      · rw [if_neg hmem] at h
        split at h
        · cases h
          exact Or.inr (Or.inl rfl)
        · cases h
          exact Or.inr (Or.inl rfl)
        · rename_i b bs _ _
          obtain ⟨⟨reply₁, self₁⟩, hraw, h⟩ := Option.bind_eq_some_iff.mp h
          cases h
          exact Or.inr (Or.inr ⟨b :: bs, List.cons_ne_nil _ _, hraw⟩)

/-- Inside a body the callback gets its share of the buffer of the caller. -/
theorem encChunkedRead_direct {self : HttppEncoding} (hrbth : 2 < self.readBytesTillHeader) (memRaw memBody : Bool)
    (len : Nat) (feed : Feed) (R : Bytes) :
    (∀ q, feed ≠ .give q) ∧ encChunkedRead memRaw memBody self len feed.callback R = some (none, self, R) ∨
      ∃ q, feed = .give q ∧ ∃ k, k = min q (min len (self.readBytesTillHeader - 2)) ∧
        encChunkedRead memRaw memBody self len feed.callback R =
          some (some (R.take k),
            { self with readBytesTillHeader := self.readBytesTillHeader - (R.take k).length }, R.drop k) := by
  unfold encChunkedRead
  cases feed with
  | null => exact Or.inl ⟨fun _ h => (by cases h), rfl⟩
  | fail =>
    refine Or.inl ⟨fun _ h => (by cases h), ?_⟩
    simp only [Feed.callback, if_pos hrbth]
  | give q =>
    refine Or.inr ⟨q, rfl, _, rfl, ?_⟩
    simp only [Feed.callback, if_pos hrbth]

/-- Near a header a call keeps the unread bytes, or gets bytes for them. -/
theorem encChunkedRead_feed {self : HttppEncoding} (hok : self.bufReadRaw.Ok)
    (hrbth : self.readBytesTillHeader ≤ 2) (memRaw memBody : Bool) (len : Nat) (feed : Feed) (R : Bytes) :
    (∃ (reply : Reply) (raw : Buf), encChunkedRead memRaw memBody self len feed.callback R =
        some (reply, { self with bufReadRaw := raw }, R) ∧
      reply.bytes = [] ∧ raw.Ok ∧ raw.rest = self.bufReadRaw.rest ∧
      (memRaw = true → ∀ q, feed = .give q → 0 < q → 0 < rawWanted self → R = [])) ∨
    ∃ bs R', bs ≠ [] ∧ R = bs ++ R' ∧ bs.length ≤ rawWanted self ∧
      encChunkedRead memRaw memBody self len feed.callback R =
        (chunkRaw memBody (received self bs)).map fun r => (r.1, r.2, R') := by
  obtain ⟨hok', hrest'⟩ := dropRaw_growRaw hok
  have hno : ¬ 2 < self.readBytesTillHeader := Nat.not_lt.mpr hrbth
  cases feed with
  | null => exact Or.inl ⟨none, self.bufReadRaw, rfl, rfl, hok, rfl, fun _ _ h => by cases h⟩
  | fail =>
    refine Or.inl ?_
    unfold encChunkedRead
    simp only [Feed.callback, if_neg hno]
    split_ifs
    · exact ⟨none, self.bufReadRaw, rfl, rfl, hok, rfl, fun _ _ h => by cases h⟩
    · exact ⟨none, _, rfl, rfl, hok', hrest', fun _ _ h => by cases h⟩
  | give q =>
    by_cases hmem : memRaw = false
    · refine Or.inl ⟨none, self.bufReadRaw, ?_, rfl, hok, rfl, fun h => by rw [hmem] at h; cases h⟩
      unfold encChunkedRead
      simp only [Feed.callback, if_neg hno, if_pos hmem]
    · rw [Bool.not_eq_false] at hmem
      subst hmem
      have hsplit := List.take_append_drop (min q (rawWanted self)) R
      cases htake : R.take (min q (rawWanted self)) with
      | nil =>
        rw [htake, List.nil_append] at hsplit
        refine Or.inl ⟨some [], dropRaw (growRaw self.bufReadRaw), ?_, rfl, hok', hrest', ?_⟩
        · unfold rawWanted at htake hsplit
          unfold encChunkedRead
          simp only [Feed.callback, if_neg hno, Bool.true_eq_false, if_false, htake, hsplit]
        · intro _ q' hq hpos hwanted
          cases hq
          exact (List.take_eq_nil_iff.mp htake).resolve_left (by omega)
      | cons b bs =>
        refine Or.inr ⟨b :: bs, R.drop (min q (rawWanted self)), List.cons_ne_nil _ _, ?_, ?_, ?_⟩
        · rw [← htake]
          exact hsplit.symm
        · rw [← htake, List.length_take]
          omega
        · exact encChunkedRead_received hrbth (List.cons_ne_nil _ _) (congrArg (·, _) (congrArg some htake))
            memBody len

/-- A call that keeps the unread bytes leaves the reader where it is. -/
theorem Reading.kept {out : Bytes} (H : Reading e n D M out (self, R)) {raw : Buf} (hok : raw.Ok)
    (hrest : raw.rest = self.bufReadRaw.rest) : Reading e n D M out ({ self with bufReadRaw := raw }, R) := by
  obtain ⟨hproc, _, hdecOk, hsmall, todo, metas, hphase, hD, hM⟩ := H
  refine ⟨hproc, hok, hdecOk, hsmall, todo, metas, ?_, hD, hM⟩
  simp only [hrest]
  exact hphase

/-- As long as bytes are to come the callback is asked for some. -/
theorem Phase.wanted {bte : Int} {rbh : Nat} {rest todo : Bytes} {metas : List HttppMeta}
    (h : Phase e n bte rbh rest R todo metas) (hR : R ≠ []) : 0 < if bte ≠ -1 then bte.toNat else 1024 := by
  cases h with
  | header | body | tail | last => decide
  | done => exact absurd rfl hR

/-- The bytes of a body go straight to the caller. -/
theorem direct_reading (H : Reading e n D M out (self, R))
    (hdec : self.bufReadDecoded.rest = []) (hrbh : 2 < self.readBytesTillHeader) {k : Nat}
    (hk : k ≤ self.readBytesTillHeader - 2) :
    Reading e n D M (out ++ R.take k)
      ({ self with readBytesTillHeader := self.readBytesTillHeader - (R.take k).length },
        R.drop k) := by
  obtain ⟨hproc, hraw, hdecOk, hsmall, todo, metas, hphase, hD, hM⟩ := H
  simp only at hphase hD hM
  rw [hdec, List.append_nil] at hD
  generalize hb : self.bytesTillEof = bte at hphase
  generalize hr : self.readBytesTillHeader = rbh at hphase hrbh hk
  generalize hx : self.bufReadRaw.rest = rest at hphase
  cases hphase with
  | body stream nonempty fresh =>
    rename_i b cs
    rw [Nat.add_sub_cancel] at hk
    rw [List.append_assoc] at stream
    have htake : R.take k = b.take k := by rw [stream, List.take_append_of_le_length hk]
    have hdrop : R.drop k = b.drop k ++ crlf ++ encode cs e := by
      rw [stream, List.drop_append_of_le_length hk, List.append_assoc]
    have hlen : b.length + 2 - (b.take k).length = (b.drop k).length + 2 := by
      rw [List.length_take, List.length_drop]
      omega
    have hD' : D = out ++ b.take k ++ self.bufReadDecoded.rest ++ (b.drop k ++ bodies cs) := by
      rw [hD, hdec, List.append_nil, List.append_assoc, ← List.append_assoc (b.take k),
        List.take_append_drop]
    rw [htake]
    refine ⟨hproc, hraw, hdecOk, hsmall, _, _, ?_, hD', hM⟩
    simp only [hx, hlen]
    by_cases hne : b.drop k = []
    · rw [hne] at hdrop ⊢
      exact Phase.tail hdrop Nat.zero_lt_two fresh
    · exact Phase.body hdrop hne fresh
  | header | tail | last | done => omega

/-- `__enc_chunked_read` between two copies from the decoded buffer. A callback that gives
something takes it from the stream. -/
theorem encChunkedRead_reading (H : Reading e n D M out (self, R))
    (hdec : self.bufReadDecoded.rest = []) (memRaw : Bool) (len : Nat) (hlen : 0 < len)
    (feed : Feed) :
    ∃ reply self' R', encChunkedRead memRaw true self len feed.callback R =
        some (reply, self', R') ∧
      Reading e n D M (out ++ reply.bytes) (self', R') ∧ reply.bytes.length ≤ len ∧
      R'.length ≤ R.length ∧
      (memRaw = true → (∃ q, feed = .give q ∧ 0 < q) → R ≠ [] → R'.length < R.length) := by
  -- inside a body the bytes go straight to the caller, otherwise to the raw buffer
  by_cases hrbh : 2 < self.readBytesTillHeader
  · rcases encChunkedRead_direct hrbh memRaw true len feed R with ⟨hno, heq⟩ | ⟨q, rfl, k, hk, heq⟩
    · refine ⟨none, self, R, heq, ?_, Nat.zero_le _, Nat.le_refl _, fun _ ⟨q, hq, _⟩ => absurd hq (hno q)⟩
      rw [Reply.bytes_none, List.append_nil]
      exact H
    · refine ⟨_, _, _, heq, direct_reading H hdec hrbh (by omega), ?_, ?_, ?_⟩
      · rw [Reply.bytes_some, List.length_take]
        omega
      · rw [List.length_drop]
        exact Nat.sub_le _ _
      · intro _ ⟨q', hq, hpos⟩ hR
        cases hq
        have := List.length_pos_iff.mpr hR
        rw [List.length_drop]
        omega
  · have hle := Nat.le_of_not_lt hrbh
    rcases encChunkedRead_feed H.rawOk hle memRaw true len feed R with
      ⟨reply, raw, heq, hnil, hok, hrest, hnothing⟩ | ⟨bs, R', hbs, rfl, _, heq⟩
    · refine ⟨reply, _, R, heq, ?_, ?_, Nat.le_refl _, ?_⟩
      · rw [hnil, List.append_nil]
        exact H.kept hok hrest
      · rw [hnil]
        exact Nat.zero_le _
      · intro hm ⟨q, hq, hpos⟩ hR
        obtain ⟨_, _, hphase, _, _⟩ := H.phase
        exact absurd (hnothing hm q hq hpos (hphase.wanted hR)) hR
    · obtain ⟨hproc, hraw, hdecOk, hsmall, todo, metas, hphase, hD, hM⟩ := H
      simp only [hdec, List.append_nil] at hphase hD hM
      obtain ⟨hok, hm⟩ := received_spec hraw bs
      obtain ⟨self', hchunk, hread⟩ := chunkRaw_reading (received self bs) hproc rfl hok hdecOk hdec hphase hm hbs
        hle hD hM
      rw [hchunk] at heq
      have hpos := List.length_pos_iff.mpr hbs
      refine ⟨some [], self', R', heq, ?_, Nat.zero_le _, ?_, fun _ _ _ => ?_⟩
      · rw [Reply.bytes_some, List.append_nil]
        exact hread
      · rw [List.length_append]
        omega
      · rw [List.length_append]
        omega

/-- A copy from the decoded buffer moves bytes to the output. -/
theorem Reading.copied (H : Reading e n D M out (self, R)) (len : Nat) :
    Reading e n D M (out ++ (copyBuffer self.bufReadDecoded len).1.bytes)
      ({ self with bufReadDecoded := (copyBuffer self.bufReadDecoded len).2 }, R) := by
  obtain ⟨hproc, hraw, hdecOk, hsmall, todo, metas, hphase, hD, hM⟩ := H
  obtain ⟨hbytes, hrest, hok, _⟩ := copyBuffer_spec hdecOk len
  simp only at hphase hD hM hbytes hrest hok hsmall
  refine ⟨hproc, hraw, hok, ?_, todo, metas, hphase, ?_, hM⟩
  · simp only [hrest, List.length_drop]
    omega
  · simp only [hrest, hbytes]
    rw [List.append_assoc out, List.take_append_drop, hD]

/-- The first copy of `httpp_encoding_read` gives all that was asked for, or it empties the
decoded buffer. -/
theorem copyBuffer_cases {src : Buf} (hok : src.Ok) (hsmall : src.rest.length < 2 ^ 63) {len : Nat}
    (hlen : 0 < len) (hne : (copyBuffer src len).1.value ≠ toSsize len) :
    (copyBuffer src len).1.bytes = src.rest ∧ src.rest.length < len ∧
      (copyBuffer src len).2.rest = [] := by
  obtain ⟨hbytes, hrest, _, hnone⟩ := copyBuffer_spec hok len
  have hlt : src.rest.length < len := by
    by_contra hge
    cases hret : (copyBuffer src len).1 with
    | none =>
      have hz := congrArg List.length (hnone hret)
      rw [List.length_nil] at hz
      omega
    | some bs =>
      rw [hret, Reply.bytes_some] at hbytes
      have hbs : bs.length = len := by
        rw [hbytes, List.length_take]
        omega
      apply hne
      rw [hret, toSsize_of_lt (by omega)]
      show (bs.length : Int) = len
      rw [hbs]
  refine ⟨?_, hlt, ?_⟩
  · rw [hbytes, List.take_of_length_le (Nat.le_of_lt hlt)]
  · rw [hrest, List.drop_of_length_le (Nat.le_of_lt hlt)]

/-- A call whose first copy gives all the bytes asked for is over. -/
theorem httppEncodingRead_copied {σ : Type} {self : HttppEncoding} {len : Nat} (hpos : 0 < len)
    (hvalue : (copyBuffer self.bufReadDecoded len).1.value = toSsize len) (memRaw memBody : Bool)
    (cb : Option (ReadCallback σ)) (userdata : σ) :
    httppEncodingRead memRaw memBody self len cb userdata =
      some ((copyBuffer self.bufReadDecoded len).1,
        { self with bufReadDecoded := (copyBuffer self.bufReadDecoded len).2 }, userdata) := by
  unfold httppEncodingRead
  rw [if_neg (by omega)]
  exact if_pos hvalue

/-- A call whose first copy does not give all the bytes asked for runs the handler. -/
theorem httppEncodingRead_handled {σ : Type} {self : HttppEncoding} (hproc : self.process = .chunked) {len : Nat}
    (hpos : 0 < len) (hvalue : (copyBuffer self.bufReadDecoded len).1.value ≠ toSsize len)
    {copied : Bytes} (hbytes : (copyBuffer self.bufReadDecoded len).1.bytes = copied) (memRaw memBody : Bool)
    (cb : Option (ReadCallback σ)) (userdata : σ) :
    httppEncodingRead memRaw memBody self len cb userdata =
      (encChunkedRead memRaw memBody { self with bufReadDecoded := (copyBuffer self.bufReadDecoded len).2 }
        (len - copied.length) cb userdata).map fun r => match r.1 with
          | none => (if copied = [] then none else some copied, r.2)
          | some out =>
            (some (copied ++ out ++
                (copyBuffer r.2.1.bufReadDecoded (len - copied.length - out.length)).1.bytes),
              { r.2.1 with bufReadDecoded :=
                (copyBuffer r.2.1.bufReadDecoded (len - copied.length - out.length)).2 }, r.2.2) := by
  unfold httppEncodingRead
  rw [if_neg (by omega)]
  simp only [hproc, if_neg hvalue, hbytes]
  generalize encChunkedRead memRaw memBody _ (len - copied.length) cb userdata = r
  cases r with
  | none => rfl
  | some r =>
    obtain ⟨reply, self₁, userdata₁⟩ := r
    cases reply <;> rfl

/-- One call of `httpp_encoding_read`. With a callback that gives something it returns
bytes or takes some from the stream, unless there is nothing left. -/
theorem httppEncodingRead_reading (H : Reading e n D M out (self, R)) (memRaw : Bool) {len : Nat}
    (hlen : 0 < len) (feed : Feed) :
    ∃ reply self' R', httppEncodingRead memRaw true self len feed.callback R =
        some (reply, self', R') ∧
      Reading e n D M (out ++ reply.bytes) (self', R') ∧ reply.bytes.length ≤ len ∧
      R'.length ≤ R.length ∧
      (memRaw = true → len < 2 ^ 63 → (∃ q, feed = .give q ∧ 0 < q) →
        reply.bytes ≠ [] ∨ R'.length < R.length ∨ R = [] ∧ self.bufReadDecoded.rest = []) := by
  obtain ⟨hbytes, hrest, hok, hnone⟩ := copyBuffer_spec H.decodedOk len
  have hcopied := H.copied len
  by_cases hval : (copyBuffer self.bufReadDecoded len).1.value = toSsize len
  · refine ⟨_, _, _, httppEncodingRead_copied hlen hval .., hcopied, ?_, Nat.le_refl _, fun _ hfit _ => Or.inl ?_⟩
    · rw [hbytes, List.length_take]
      omega
    · intro hnil
      rw [toSsize_of_lt hfit] at hval
      cases hret : (copyBuffer self.bufReadDecoded len).1 with
      | none =>
        rw [hret] at hval
        simp only [Reply.value] at hval
        omega
      | some bs =>
        rw [hret, Reply.bytes_some] at hnil
        rw [hret, hnil] at hval
        simp only [Reply.value, List.length_nil] at hval
        omega
  · obtain ⟨hall, hlt, hempty⟩ := copyBuffer_cases H.decodedOk H.small hlen hval
    simp only at hbytes hrest hok hnone hcopied hall hlt hempty
    simp only [hall] at hcopied
    obtain ⟨reply, self', R', heq, hread, hle, hR', hprog⟩ := encChunkedRead_reading hcopied hempty memRaw
      (len - self.bufReadDecoded.rest.length) (by omega) feed
    rw [httppEncodingRead_handled H.chunked hlen hval hall, heq, Option.map_some]
    have hprog' (hm : memRaw = true) (hfeed : ∃ q, feed = .give q ∧ 0 < q) {bs : Bytes}
        (hbs : self.bufReadDecoded.rest <+: bs) :
        bs ≠ [] ∨ R'.length < R.length ∨ R = [] ∧ self.bufReadDecoded.rest = [] := by
      by_cases hd : self.bufReadDecoded.rest = []
      · by_cases hR : R = []
        · exact Or.inr (Or.inr ⟨hR, hd⟩)
        · exact Or.inr (Or.inl (hprog hm hfeed hR))
      · refine Or.inl fun hnil => hd ?_
        rw [hnil] at hbs
        exact List.prefix_nil.mp hbs
    cases reply with
    | none =>
      rw [Reply.bytes_none, List.append_nil] at hread
      refine ⟨_, _, _, rfl, ?_, ?_, hR', fun hm _ hfeed => ?_⟩
      all_goals rw [Reply.bytes_ite]
      · exact hread
      · omega
      · exact hprog' hm hfeed (List.prefix_refl _)
    | some bs =>
      rw [Reply.bytes_some] at hread hle
      have hlast := hread.copied (len - self.bufReadDecoded.rest.length - bs.length)
      have hb := (copyBuffer_spec hread.decodedOk
        (len - self.bufReadDecoded.rest.length - bs.length)).1
      simp only at hb
      refine ⟨_, _, _, rfl, ?_, ?_, hR', fun hm _ hfeed => hprog' hm hfeed ?_⟩
      · rw [Reply.bytes_some]
        simp only [List.append_assoc] at hlast ⊢
        exact hlast
      · rw [Reply.bytes_some, hb]
        simp only [List.length_append, List.length_take]
        omega
      · rw [Reply.bytes_some, List.append_assoc]
        exact List.prefix_append _ _

end

/-! Any call. -/

/-- A call of `httpp_encoding_read`: it only copies, or it runs the handler between two
copies. -/
theorem httppEncodingRead_inv {σ : Type} {memRaw memBody : Bool} {self self' : HttppEncoding} {len : Nat}
    {cb : Option (ReadCallback σ)} {u u' : σ} {reply : Reply}
    (h : httppEncodingRead memRaw memBody self len cb u = some (reply, self', u')) :
    (∃ dec, self' = { self with bufReadDecoded := dec } ∧ u' = u) ∨
      ∃ dec len' ret self1 dec', self' = { self1 with bufReadDecoded := dec' } ∧
        (self.process = .identity ∧
            encIdentityRead { self with bufReadDecoded := dec } len' cb u = some (ret, self1, u') ∨
          self.process = .chunked ∧
            encChunkedRead memRaw memBody { self with bufReadDecoded := dec } len' cb u =
              some (ret, self1, u')) := by
  unfold httppEncodingRead at h
  by_cases h0 : len = 0
  · rw [if_pos h0] at h
    simp only [Option.some.injEq, Prod.mk.injEq] at h
    exact Or.inl ⟨self.bufReadDecoded, h.2.1.symm, h.2.2.symm⟩
  rw [if_neg h0] at h
  simp only at h
  by_cases hval : (copyBuffer self.bufReadDecoded len).1.value = toSsize len
  · rw [if_pos hval] at h
    simp only [Option.some.injEq, Prod.mk.injEq] at h
    exact Or.inl ⟨_, h.2.1.symm, h.2.2.symm⟩
  rw [if_neg hval] at h
  refine Or.inr ?_
  cases hproc : self.process with
  | identity =>
    simp only [hproc] at h
    obtain ⟨⟨ret, self1, u1⟩, hrun, hret⟩ := Option.bind_eq_some_iff.mp h
    cases ret with
    | none =>
      simp only [Option.some.injEq, Prod.mk.injEq] at hret
      rw [← hret.2.2]
      exact ⟨_, _, _, self1, self1.bufReadDecoded, hret.2.1.symm, Or.inl ⟨rfl, hrun⟩⟩
    | some bs =>
      simp only [Option.some.injEq, Prod.mk.injEq] at hret
      rw [← hret.2.2]
      exact ⟨_, _, _, self1, _, hret.2.1.symm, Or.inl ⟨rfl, hrun⟩⟩
  | chunked =>
    simp only [hproc] at h
    obtain ⟨⟨ret, self1, u1⟩, hrun, hret⟩ := Option.bind_eq_some_iff.mp h
    cases ret with
    | none =>
      simp only [Option.some.injEq, Prod.mk.injEq] at hret
      rw [← hret.2.2]
      exact ⟨_, _, _, self1, self1.bufReadDecoded, hret.2.1.symm, Or.inr ⟨rfl, hrun⟩⟩
    | some bs =>
      simp only [Option.some.injEq, Prod.mk.injEq] at hret
      rw [← hret.2.2]
      exact ⟨_, _, _, self1, _, hret.2.1.symm, Or.inr ⟨rfl, hrun⟩⟩

/-! Runs. -/

theorem readStep_tracks (e : Ending) (n : Nat) (D : Bytes) (M : List HttppMeta) :
    Tracks readStep output (Reading e n D M) (fun c reply => reply.bytes.length ≤ c.len)
      (fun _ => True) := by
  rintro out c ⟨self, R⟩ _ H
  obtain ⟨reply, self', R', heq, hread, hle, _, _⟩ :=
    httppEncodingRead_reading H c.memRaw c.pos c.feed
  exact ⟨reply, (self', R'), heq, hread, hle⟩

/-- All bytes returned by a sequence of calls. -/
def outputs (replies : List Reply) : Bytes := replies.flatMap Reply.bytes

theorem history_output (out : Bytes) {calls : List ReadCall} {replies : List Reply}
    (h : calls.length = replies.length) :
    history output out calls replies = out ++ outputs replies := by
  induction calls generalizing out replies with
  | nil =>
    rw [List.length_nil] at h
    have hr : replies = [] := List.eq_nil_of_length_eq_zero h.symm
    subst hr
    exact (List.append_nil out).symm
  | cons c calls ih =>
    cases replies with
    | nil => cases h
    | cons r replies =>
      show history output (out ++ r.bytes) calls replies = out ++ (r.bytes ++ outputs replies)
      rw [ih _ (Nat.succ.inj h), List.append_assoc]

end IcecastCommon.Encoding
