import IcecastCommon.Encoding.Delivery
import IcecastCommon.Encoding.Metadata

/- The chunked decoder on a stream that is still being written. `Stage` says where the reader
   stands when chunks may follow, when the chunk that ends the stream is on its way and when it
   was read; what stands behind it does not matter. `Carried` is the invariant. It is kept when
   the stream grows and when a call reads from it. -/
namespace IcecastCommon.Encoding

/-! Where the bytes come from. -/

section
variable {σ τ : Type}

/-- Two callbacks whose userdata correspond along `f`. -/
inductive Corresponds (f : σ → τ) (u : σ) : Option (ReadCallback σ) → Option (ReadCallback τ) → Prop where
  | null : Corresponds f u none none
  | call {cb : ReadCallback σ} {cb' : ReadCallback τ} (same : ∀ n, cb' n (f u) = ((cb n u).1, f (cb n u).2)) :
      Corresponds f u (some cb) (some cb')

variable {f : σ → τ} {u : σ} {cb : Option (ReadCallback σ)} {cb' : Option (ReadCallback τ)}

/-- A call asks its callback once, so it does the same with a corresponding one. -/
theorem encChunkedRead_corresponds (C : Corresponds f u cb cb') (memRaw memBody : Bool) (self : HttppEncoding)
    (len : Nat) : encChunkedRead memRaw memBody self len cb' (f u) =
      (encChunkedRead memRaw memBody self len cb u).map fun r => (r.1, r.2.1, f r.2.2) := by
  cases C with
  | null => rfl
  | @call cb cb' same =>
    unfold encChunkedRead
    by_cases hrbth : 2 < self.readBytesTillHeader
    · simp only [if_pos hrbth, same]
      rcases cb (min len (self.readBytesTillHeader - 2)) u with ⟨_ | bs, u'⟩ <;> rfl
    · simp only [if_neg hrbth, same]
      cases memRaw with
      | false => rfl
      | true =>
        rcases cb (if self.bytesTillEof ≠ -1 then self.bytesTillEof.toNat else 1024) u with ⟨_ | _ | ⟨b, bs⟩, u'⟩
        · rfl
        · rfl
        · simp only [Bool.true_eq_false, if_false, Option.bind_eq_bind]
          cases chunkRaw memBody _ <;> rfl

theorem encIdentityRead_corresponds (C : Corresponds f u cb cb') (self : HttppEncoding) (len : Nat) :
    encIdentityRead self len cb' (f u) =
      (encIdentityRead self len cb u).map fun r => (r.1, r.2.1, f r.2.2) := by
  cases C with
  | null => rfl
  | call same =>
    simp only [encIdentityRead, same]
    rfl

theorem httppEncodingRead_corresponds (C : Corresponds f u cb cb') (memRaw memBody : Bool) (self : HttppEncoding)
    (len : Nat) : httppEncodingRead memRaw memBody self len cb' (f u) =
      (httppEncodingRead memRaw memBody self len cb u).map fun r => (r.1, r.2.1, f r.2.2) := by
  unfold httppEncodingRead
  by_cases h0 : len = 0
  · rw [if_pos h0, if_pos h0]
    rfl
  rw [if_neg h0, if_neg h0]
  by_cases hval : (copyBuffer self.bufReadDecoded len).1.value = toSsize len
  · simp only [if_pos hval]
    rfl
  simp only [if_neg hval]
  cases self.process with
  | identity =>
    simp only [encIdentityRead_corresponds C]
    generalize encIdentityRead _ _ cb u = r
    rcases r with _ | ⟨_ | bs, self', u'⟩ <;> rfl
  | chunked =>
    simp only [encChunkedRead_corresponds C]
    generalize encChunkedRead memRaw memBody _ _ cb u = r
    rcases r with _ | ⟨_ | bs, self', u'⟩ <;> rfl

end

/-- The callback hands over no more than a number of bytes. -/
def Feed.limit (k : Nat) : Feed → Feed
  | .null => .null
  | .fail => .fail
  | .give q => .give (min q k)

/-- Bytes that a call does not get to see do not matter. -/
theorem Feed.limit_corresponds (feed : Feed) (R E : Bytes) :
    Corresponds (· ++ E) R feed.callback (feed.limit R.length).callback := by
  cases feed with
  | null => exact .null
  | fail => exact .call fun _ => rfl
  | give q =>
    refine .call fun n => ?_
    have hle : min (min q R.length) n ≤ R.length := by omega
    have htake : R.take (min (min q R.length) n) = R.take (min q n) := by
      rw [List.take_eq_take_iff]
      omega
    have hdrop : R.drop (min (min q R.length) n) = R.drop (min q n) := by
      rcases Nat.le_total (min q n) R.length with h | h
      · congr 1
        omega
      · rw [List.drop_of_length_le h, List.drop_of_length_le (by omega)]
    simp only [List.take_append_of_le_length hle, List.drop_append_of_le_length hle, htake, hdrop]

/-! A stream that grows. -/

theorem encode_append (cs ds : List Chunk) : encode (cs ++ ds) .open = encode cs .open ++ encode ds .open := by
  simp only [encode, Ending.bytes, List.flatMap_append, List.append_nil]

theorem bodies_append (cs : List Chunk) (c : Chunk) : bodies (cs ++ [c]) = bodies cs ++ c.body := by
  simp only [bodies, List.flatMap_append, List.flatMap_cons, List.flatMap_nil, List.append_nil]

theorem metasOf_append (cs : List Chunk) (c : Chunk) : metasOf (cs ++ [c]) = metasOf cs ++ c.metas := by
  simp only [metasOf, List.flatMap_append, List.flatMap_cons, List.flatMap_nil, List.append_nil]

section
variable {n rbh : Nat} {bte : Int} {rest R todo : Bytes} {metas : List HttppMeta}

/-- One more chunk is written. -/
theorem Phase.extend (h : Phase .open n bte rbh rest R todo metas) (hbte : bte = -1) (c : Chunk) :
    Phase .open (n + 1) (-1) rbh rest (R ++ encode [c] .open) (todo ++ c.body) (metas ++ c.metas) := by
  cases h with
  | header stream fresh =>
    rename_i cs
    rw [← bodies_append, ← metasOf_append]
    refine Phase.header (by rw [encode_append, ← stream, List.append_assoc]) ?_
    rw [List.length_append, List.length_singleton]
    refine fresh.imp (fun h => Nat.succ_lt_succ h) fun h => ⟨congrArg (· + 1) h.1, ?_⟩
    cases cs with
    | nil =>
      have hnil : rest.length = 0 := Nat.lt_one_iff.mp h.2
      rw [hnil]
      exact Nat.succ_pos _
    | cons d cs => exact h.2
  | body stream nonempty fresh =>
    rename_i b cs
    rw [List.append_assoc b, ← bodies_append, ← metasOf_append]
    refine Phase.body ?_ nonempty (by rw [List.length_append, List.length_singleton]; omega)
    rw [encode_append, stream, List.append_assoc]
  | tail stream short fresh =>
    rename_i cs
    rw [← bodies_append, ← metasOf_append]
    refine Phase.tail ?_ short (by rw [List.length_append, List.length_singleton]; omega)
    rw [encode_append, ← List.append_assoc, stream, List.append_assoc]
  | last => exact absurd hbte (by decide)
  | done eof => omega

/-- While a chunk follows the reader is not at the end of the stream. -/
theorem Phase.not_ended {c : Chunk} {X : Bytes} (h : Phase .open n bte rbh rest X todo metas)
    (hX : X = R ++ encode [c] .open) : bte = -1 := by
  have hlen := congrArg List.length hX
  rw [List.length_append, encode_cons] at hlen
  simp only [crlf, List.length_append, List.length_cons, List.length_nil] at hlen
  cases h with
  | header | body | tail => rfl
  | last stream short =>
    have hshort := congrArg List.length stream
    simp only [crlf, List.length_append, List.length_cons, List.length_nil] at hshort
    omega
  | done eof =>
    rw [List.length_nil] at hlen
    omega

end

/-! The end of the stream. -/

/-- The line of the chunk that ends a stream. -/
structure Final where
  header : Bytes
  metas : List HttppMeta
  ext : Option Nat
  line : HeaderLine header 0 metas ext

/-- The chunk that ends the stream as the encoder writes it, and what stands behind it. -/
def Final.bytes (f : Final) (y : Bytes) : Bytes := f.header ++ crlf ++ (crlf ++ crlf ++ y)

/-- Where the reader stands: by whether the end was written, `bytes_till_eof`, `read_bytes_till_header`,
the unread part of the raw buffer and the bytes not yet handed over. The last two indices are the bodies
and the metadata still to come. -/
inductive Stage : Bool → Int → Nat → Bytes → Bytes → Bytes → List HttppMeta → Prop where
  | chunks {n rbh : Nat} {rest W todo : Bytes} {metas : List HttppMeta}
      (phase : Phase .open n (-1) rbh rest W todo metas) : Stage false (-1) rbh rest W todo metas
  | ending {f : Final} {y : Bytes} {n rbh : Nat} {rest R todo : Bytes} {metas : List HttppMeta}
      (phase : Phase .open n (-1) rbh rest R todo metas) :
      Stage true (-1) rbh rest (R ++ f.bytes y) todo (metas ++ f.metas)
  | past {f : Final} {cs : List Chunk} {y z W : Bytes} (stream : z ++ W = f.bytes y) (nonempty : z ≠ []) :
      Stage true (-1) 0 (encode cs .open ++ z) W (bodies cs) (metasOf cs ++ f.metas)
  | closing {rest W y : Bytes} (stream : rest ++ W = crlf ++ crlf ++ y) (short : rest.length < 2) :
      Stage true 2 2 rest W [] []
  | closed {y : Bytes} : Stage true 2 0 [] (crlf ++ y) [] []
  | eof {rest W : Bytes} : Stage true 0 0 rest W [] []

/-- The reader of a stream with the bodies `D` and the metadata `M` after it returned `out`. -/
structure Carried (ended : Bool) (D : Bytes) (M : List HttppMeta) (out : Bytes) (st : HttppEncoding × Bytes) :
    Prop where
  chunked : st.1.process = .chunked
  rawOk : st.1.bufReadRaw.Ok
  decodedOk : st.1.bufReadDecoded.Ok
  small : st.1.bufReadDecoded.rest.length < 2 ^ 63
  stage : ∃ todo metas, Stage ended st.1.bytesTillEof st.1.readBytesTillHeader st.1.bufReadRaw.rest st.2 todo metas ∧
    D = out ++ st.1.bufReadDecoded.rest ++ todo ∧ M = st.1.metaRead ++ metas

section
variable {ended : Bool} {D out R W new m : Bytes} {M : List HttppMeta} {self : HttppEncoding} {o : Nat}

theorem carried_new : Carried false [] [] [] (httppEncodingNew .chunked, []) := by
  refine ⟨rfl, Buf.null_ok, Buf.null_ok, Nat.two_pow_pos 63, [], [], .chunks (n := 0) ?_, rfl, rfl⟩
  have hstart : Phase .open 0 (-1) 0 [] [] (bodies []) (metasOf []) := .header rfl (Or.inr ⟨rfl, Nat.one_pos⟩)
  exact hstart

/-- A chunk is put behind the others. -/
theorem Carried.write (H : Carried false D M out (self, W)) (c : Chunk) :
    Carried false (D ++ c.body) (M ++ c.metas) out (self, W ++ encode [c] .open) := by
  obtain ⟨hproc, hraw, hdecOk, hsmall, todo, metas, hstage, hD, hM⟩ := H
  refine ⟨hproc, hraw, hdecOk, hsmall, todo ++ c.body, metas ++ c.metas, ?_, ?_, ?_⟩
  · dsimp only at hstage ⊢
    generalize hb : self.bytesTillEof = bte at hstage ⊢
    cases hstage with
    | chunks phase => exact .chunks (phase.extend rfl c)
  · rw [hD, List.append_assoc _ todo]
  · rw [hM, List.append_assoc]

/-- The chunk that ends the stream is put behind the others. -/
theorem Carried.finish (H : Carried false D M out (self, W)) (f : Final) :
    Carried true D (M ++ f.metas) out (self, W ++ f.bytes []) := by
  obtain ⟨hproc, hraw, hdecOk, hsmall, todo, metas, hstage, hD, hM⟩ := H
  refine ⟨hproc, hraw, hdecOk, hsmall, todo, metas ++ f.metas, ?_, hD, ?_⟩
  · dsimp only at hstage ⊢
    generalize hb : self.bytesTillEof = bte at hstage ⊢
    cases hstage with
    | chunks phase => exact .ending phase
  · rw [hM, List.append_assoc]

theorem Final.bytes_append (f : Final) (y x : Bytes) : f.bytes y ++ x = f.bytes (y ++ x) := by
  simp only [Final.bytes, List.append_assoc]

/-- What is written behind the end does not matter. -/
theorem Carried.ignore (H : Carried true D M out (self, W)) (x : Bytes) : Carried true D M out (self, W ++ x) := by
  obtain ⟨hproc, hraw, hdecOk, hsmall, todo, metas, hstage, hD, hM⟩ := H
  refine ⟨hproc, hraw, hdecOk, hsmall, todo, metas, ?_, hD, hM⟩
  dsimp only at hstage ⊢
  generalize self.bytesTillEof = bte, self.readBytesTillHeader = rbh, self.bufReadRaw.rest = rest at hstage ⊢
  cases hstage with
  | ending phase =>
    rw [List.append_assoc, Final.bytes_append]
    exact .ending phase
  | past stream nonempty =>
    rename_i f cs y z
    refine .past (y := y ++ x) ?_ nonempty
    rw [← List.append_assoc, stream, Final.bytes_append]
  | closing stream short =>
    rename_i y
    refine .closing (y := y ++ x) ?_ short
    rw [← List.append_assoc, stream, List.append_assoc]
  | closed =>
    rw [List.append_assoc]
    exact .closed
  | eof => exact .eof

/-- A call that keeps the unread bytes leaves the reader where it is. -/
theorem Carried.kept (H : Carried ended D M out (self, W)) {raw : Buf} (hok : raw.Ok)
    (hrest : raw.rest = self.bufReadRaw.rest) : Carried ended D M out ({ self with bufReadRaw := raw }, W) := by
  obtain ⟨hproc, _, hdecOk, hsmall, todo, metas, hstage, hD, hM⟩ := H
  refine ⟨hproc, hok, hdecOk, hsmall, todo, metas, ?_, hD, hM⟩
  simp only [hrest]
  exact hstage

/-- A copy from the decoded buffer moves bytes to the output. -/
theorem Carried.copied (H : Carried ended D M out (self, W)) (len : Nat) :
    Carried ended D M (out ++ (copyBuffer self.bufReadDecoded len).1.bytes)
      ({ self with bufReadDecoded := (copyBuffer self.bufReadDecoded len).2 }, W) := by
  obtain ⟨hproc, hraw, hdecOk, hsmall, todo, metas, hstage, hD, hM⟩ := H
  obtain ⟨hbytes, hrest, hok, _⟩ := copyBuffer_spec hdecOk len
  simp only at hstage hD hM hbytes hrest hok hsmall
  refine ⟨hproc, hraw, hok, ?_, todo, metas, hstage, ?_, hM⟩
  · simp only [hrest, List.length_drop]
    omega
  · simp only [hrest, hbytes]
    rw [List.append_assoc out, List.take_append_drop, hD]

/-- The metadata is handed to the caller. -/
theorem Carried.getMeta (H : Carried ended D M out (self, W)) :
    ∃ M', M = self.metaRead ++ M' ∧ Carried ended D M' out ((httppEncodingGetMeta self).2, W) := by
  obtain ⟨hproc, hraw, hdecOk, hsmall, todo, metas, hstage, hD, hM⟩ := H
  exact ⟨metas, hM, hproc, hraw, hdecOk, hsmall, todo, metas, hstage, hD, rfl⟩

/-! Behind a read into the raw buffer. -/

/-- A whole chunk is in the buffer. -/
theorem chunkHeader_whole (c : Chunk) {x : Bytes} (hraw : self.bufReadRaw = ⟨some m, o⟩)
    (hbte : self.bytesTillEof = -1) (hm : m.drop o = encode [c] .open ++ x) :
    ∃ raw : Buf, raw.Ok ∧ raw.rest = x ∧ chunkHeader true self = some (some [],
      { self with
        metaRead := self.metaRead ++ c.metas
        bufReadDecoded := ⟨some c.body, 0⟩
        bufReadRaw := raw
        readBytesTillHeader := 0 }) := by
  have hm' : m.drop o = c.header ++ crlf ++ (c.body ++ (crlf ++ x)) := by
    rw [hm, encode_cons]
    simp only [encode, Ending.bytes, List.flatMap_nil, List.append_nil, List.append_assoc]
  obtain ⟨m', hlen, hrest, heq⟩ := chunkHeader_spec c.line hraw hm' true
  rw [if_neg fun h => c.nonempty (List.eq_nil_of_length_eq_zero h), hbte] at heq
  have hleft := congrArg List.length hrest
  simp only [List.length_drop, List.length_append, show crlf.length = 2 from rfl] at hleft
  have hraw' : (Buf.mk (some m') (o + c.header.length + 2)).rest = c.body ++ (crlf ++ x) := hrest
  obtain ⟨raw, hok, hx, hbody⟩ := @chunkBody_whole
    { self with
      metaRead := self.metaRead ++ c.metas
      bufReadRaw := ⟨some m', o + c.header.length + 2⟩
      bytesTillEof := -1 }
    c.body.length
    (by rw [← Buf.rest_length, hraw']; simp only [List.length_append, show crlf.length = 2 from rfl]; omega)
  rw [hraw', List.take_left] at hbody
  rw [hraw', ← List.append_assoc, List.drop_append_of_le_length (by
    rw [List.length_append]; exact Nat.le_refl _), ← show (c.body ++ crlf).length = c.body.length + 2 by
    rw [List.length_append]; rfl, List.drop_length, List.nil_append] at hx
  refine ⟨raw, hok, hx, heq.trans (congrArg some (hbody.trans ?_))⟩
  rw [if_neg (not_not.mpr rfl), ← hbte]

/-- Behind the header of the last chunk. -/
theorem chunkBody_final {y : Bytes} (hproc : self.process = .chunked) (hok : self.bufReadRaw.Ok)
    (hdecOk : self.bufReadDecoded.Ok) (hdec : self.bufReadDecoded.rest = []) (hbte : self.bytesTillEof = 2)
    (hstream : self.bufReadRaw.rest ++ W = crlf ++ crlf ++ y) (hD : D = out) (hM : M = self.metaRead) :
    ∃ self', chunkBody true self 0 = (some [], self') ∧ Carried true D M out (self', W) := by
  have hleft := self.bufReadRaw.rest_length
  have hsmall : ∀ mem, (Buf.mk (some (List.take 0 mem)) 0).rest.length < 2 ^ 63 := fun _ => Nat.two_pow_pos 63
  have hD' : D = out ++ [] ++ [] := by rw [hD, List.append_nil, List.append_nil]
  have hM' : M = self.metaRead ++ [] := by rw [hM, List.append_nil]
  -- nothing, the CR or more is in the buffer
  rcases chunkBody_cases hok true 0 with ⟨hzero, heq⟩ | ⟨hpos, hnone, _⟩ | ⟨_, hmem, _⟩ |
    ⟨hone, _, raw, hraw, hrest, heq⟩ | ⟨_, _, raw, hraw, _, heq⟩
  · have hx : self.bufReadRaw.rest = [] := List.eq_nil_of_length_eq_zero (hleft.trans hzero)
    rw [hx, List.nil_append] at hstream
    refine ⟨_, heq, hproc, Buf.null_ok, hdecOk, by simp only [hdec]; exact Nat.two_pow_pos 63, [], [], ?_,
      by rw [hdec]; exact hD', hM'⟩
    simp only [hbte]
    have hclosing : Stage true 2 2 [] W [] [] := .closing hstream Nat.zero_lt_two
    exact hclosing
  · omega
  · cases hmem
  · rw [List.drop_zero] at hrest
    rw [← hrest] at hstream hleft
    refine ⟨_, heq, hproc, hraw, Nat.zero_le _, hsmall _, [], [], ?_, hD', hM'⟩
    simp only [hbte]
    exact .closing hstream (by omega)
  · refine ⟨_, heq, hproc, hraw, Nat.zero_le _, hsmall _, [], [], ?_, hD', hM'⟩
    simp only [hbte]
    exact .eof

/-- At a header, when some of the chunk that ends the stream is in the buffer already. -/
theorem chunkHeader_past {f : Final} {cs : List Chunk} {y z : Bytes} (hproc : self.process = .chunked)
    (hraw : self.bufReadRaw = ⟨some m, o⟩) (ho : o ≤ m.length) (hdecOk : self.bufReadDecoded.Ok)
    (hdec : self.bufReadDecoded.rest = []) (hbte : self.bytesTillEof = -1) (hrbh : self.readBytesTillHeader = 0)
    (hm : m.drop o = encode cs .open ++ z) (hstream : z ++ W = f.bytes y) (hz : z ≠ [])
    (hD : D = out ++ bodies cs) (hM : M = self.metaRead ++ (metasOf cs ++ f.metas)) :
    ∃ self', chunkHeader true self = some (some [], self') ∧ Carried true D M out (self', W) := by
  cases cs with
  | cons c cs =>
    have hsplit : encode (c :: cs) .open = encode [c] .open ++ encode cs .open := encode_append [c] cs
    rw [hsplit, List.append_assoc] at hm
    obtain ⟨raw, hok, hrest, heq⟩ := chunkHeader_whole c hraw hbte hm
    refine ⟨_, heq, hproc, hok, Nat.zero_le _, c.fits, bodies cs, metasOf cs ++ f.metas, ?_, ?_, ?_⟩
    · simp only [hbte, hrest]
      exact .past hstream hz
    · rw [hD, List.append_assoc]
      rfl
    · rw [hM, metasOf_cons]
      simp only [List.append_assoc]
  | nil =>
    have hm' : m.drop o = z := hm
    by_cases hlen : z.length < f.header.length + 2
    · have hfront : z <+: f.header ++ crlf :=
        List.prefix_of_prefix_length_le ⟨W, hstream⟩ (List.prefix_append _ _)
          (by rw [List.length_append]; exact Nat.le_of_lt hlen)
      have hscan := f.line.incomplete hfront hlen o
      refine ⟨self, ?_, hproc, ?_, hdecOk, by simp only [hdec]; exact Nat.two_pow_pos 63, bodies [],
        metasOf [] ++ f.metas, ?_, ?_, hM⟩
      · unfold chunkHeader
        simp only [hraw, Buf.some_rest, hm', if_pos hscan]
      · rw [hraw]
        exact ho
      · simp only [hbte, hrbh, hraw, Buf.some_rest, hm]
        exact .past hstream hz
      · rw [hdec, List.append_nil, hD]
    · obtain ⟨x, rfl⟩ := List.prefix_of_prefix_length_le (List.prefix_append (f.header ++ crlf) _) ⟨W, hstream⟩
        (by rw [List.length_append]; exact Nat.le_of_not_lt hlen)
      obtain ⟨m', hm'len, hrest, heq⟩ := chunkHeader_spec f.line hraw hm' true
      rw [if_pos rfl] at heq
      have hxW : x ++ W = crlf ++ crlf ++ y := by
        rw [Final.bytes, List.append_assoc] at hstream
        exact List.append_cancel_left hstream
      have hle := congrArg List.length hm'
      simp only [List.length_drop, List.length_append, show crlf.length = 2 from rfl] at hle
      let final : HttppEncoding :=
        { self with
          metaRead := self.metaRead ++ f.metas
          bufReadRaw := ⟨some m', o + f.header.length + 2⟩
          bytesTillEof := 2 }
      have hfinal : final.process = .chunked := hproc
      have hend : final.bufReadRaw.rest ++ W = crlf ++ crlf ++ y := by
        rw [← hxW, ← hrest]
        rfl
      obtain ⟨self', hbody, H⟩ := chunkBody_final hfinal (by show o + f.header.length + 2 ≤ m'.length; omega) hdecOk
        hdec rfl hend (hD.trans (List.append_nil _)) hM
      exact ⟨self', heq.trans (congrArg some hbody), H⟩

theorem Reading.carried {n : Nat} (H : Reading .open n D M out (self, R)) (hbte : self.bytesTillEof = -1) :
    Carried false D M out (self, R) := by
  obtain ⟨hproc, hraw, hdecOk, hsmall, todo, metas, hphase, hD, hM⟩ := H
  refine ⟨hproc, hraw, hdecOk, hsmall, todo, metas, ?_, hD, hM⟩
  dsimp only at hphase ⊢
  rw [hbte] at hphase ⊢
  exact .chunks hphase

/-- As long as more chunks may follow the reader waits for them. -/
theorem chunkRaw_chunks {n : Nat} {rest todo : Bytes} {metas : List HttppMeta} (hproc : self.process = .chunked)
    (hraw : self.bufReadRaw = ⟨some m, o⟩) (ho : o ≤ m.length) (hdecOk : self.bufReadDecoded.Ok)
    (hdec : self.bufReadDecoded.rest = [])
    (hphase : Phase .open n (-1) self.readBytesTillHeader rest (new ++ R) todo metas)
    (hbte : self.bytesTillEof = -1) (hm : m.drop o = rest ++ new) (hnew : new ≠ [])
    (hrbh : self.readBytesTillHeader ≤ 2) (hD : D = out ++ todo) (hM : M = self.metaRead ++ metas) :
    ∃ self', chunkRaw true self = some (some [], self') ∧ Carried false D M out (self', R) := by
  have hphase' := hphase
  rw [← hbte] at hphase'
  obtain ⟨self', heq, H⟩ := chunkRaw_reading self hproc hraw ho hdecOk hdec hphase' hm hnew hrbh hD hM
  -- the same read with one more chunk behind it
  let c := (oneByteChunk 0).toChunk
  have hmore := hphase.extend rfl c
  rw [List.append_assoc, ← hbte] at hmore
  obtain ⟨self₁, heq₁, H₁⟩ := chunkRaw_reading self hproc hraw ho hdecOk hdec hmore hm hnew hrbh
    (D := out ++ _) rfl rfl
  cases heq.symm.trans heq₁
  obtain ⟨_, _, hphase₁, _⟩ := H₁.phase
  exact ⟨self', heq, H.carried (hphase₁.not_ended rfl)⟩

/-- Bytes behind the first CRLF of the end. -/
theorem chunkRaw_eof (hproc : self.process = .chunked) (hdecOk : self.bufReadDecoded.Ok)
    (hdec : self.bufReadDecoded.rest = []) (hleft : self.readBytesTillHeader < self.bufReadRaw.left)
    (hbte : self.bytesTillEof ≠ -1) (hD : D = out ++ []) (hM : M = self.metaRead ++ []) :
    ∃ self', chunkRaw true self = some (some [], self') ∧ Carried true D M out (self', W) := by
  refine ⟨{ self with
    bufReadRaw := ⟨self.bufReadRaw.mem, self.bufReadRaw.offset + self.readBytesTillHeader⟩
    readBytesTillHeader := 0
    bytesTillEof := 0 }, ?_, hproc, ?_, hdecOk, ?_, [], [], .eof, ?_, hM⟩
  · unfold chunkRaw
    rw [if_neg (by omega)]
    simp only [if_pos hleft, and_true, if_pos hbte, if_true]
  · show self.bufReadRaw.offset + self.readBytesTillHeader ≤ self.bufReadRaw.len
    rw [Buf.left] at hleft
    omega
  · simp only [hdec]
    exact Nat.two_pow_pos 63
  · simp only [hdec, List.append_nil]
    rw [hD, List.append_nil]

/-- The part behind a read of the bytes `new` into the raw buffer. -/
theorem chunkRaw_carried {rest todo : Bytes} {metas : List HttppMeta} (hproc : self.process = .chunked)
    (hraw : self.bufReadRaw = ⟨some m, o⟩) (ho : o ≤ m.length) (hdecOk : self.bufReadDecoded.Ok)
    (hdec : self.bufReadDecoded.rest = [])
    (hstage : Stage ended self.bytesTillEof self.readBytesTillHeader rest (new ++ W) todo metas)
    (hm : m.drop o = rest ++ new) (hnew : new ≠ []) (hrbh : self.readBytesTillHeader ≤ 2) (hD : D = out ++ todo)
    (hM : M = self.metaRead ++ metas) :
    ∃ self', chunkRaw true self = some (some [], self') ∧ Carried ended D M out (self', W) := by
  have hleft : self.bufReadRaw.left = (m.drop o).length := by
    rw [← Buf.rest_length, hraw, Buf.some_rest]
  have hpos := List.length_pos_iff.mpr hnew
  have hsum := congrArg List.length hm
  rw [List.length_append] at hsum
  have hmlen : (m.drop o).length = m.length - o := List.length_drop
  have hrawOk : self.bufReadRaw.Ok := by
    rw [hraw]
    exact ho
  have hsmall : self.bufReadDecoded.rest.length < 2 ^ 63 := by
    rw [hdec]
    exact Nat.two_pow_pos 63
  have hD' : D = out ++ self.bufReadDecoded.rest ++ todo := by rw [hdec, List.append_nil, hD]
  -- at a header, with the end of the stream in the buffer
  have past {f : Final} {cs : List Chunk} {y z : Bytes} (hb : self.bytesTillEof = -1) {k : Nat}
      (hk : self.readBytesTillHeader = k) (hlt : k < (m.drop o).length)
      (hrest : (m.drop o).drop k = encode cs .open ++ z) (hstream : z ++ W = f.bytes y) (hz : z ≠ [])
      (hDcs : D = out ++ bodies cs) (hMcs : M = self.metaRead ++ (metasOf cs ++ f.metas)) :
      ∃ self', chunkRaw true self = some (some [], self') ∧ Carried true D M out (self', W) := by
    rw [chunkRaw_skip (by omega) hb]
    simp only [hraw, hk]
    rw [List.drop_drop] at hrest
    exact chunkHeader_past hproc rfl (by show o + k ≤ m.length; omega) hdecOk hdec hb rfl hrest hstream hz hDcs hMcs
  generalize hb : self.bytesTillEof = bte at hstage
  generalize hr : self.readBytesTillHeader = rbh at hstage hrbh
  generalize hW : new ++ W = W0 at hstage
  cases hstage with
  | chunks phase =>
    rw [← hW, ← hr] at phase
    exact chunkRaw_chunks hproc hraw ho hdecOk hdec phase hb hm hnew (by omega) hD hM
  | ending phase =>
    rename_i f y n R metas
    have before {a : Bytes} (hR : R = new ++ a) (ha : W = a ++ f.bytes y) :
        ∃ self', chunkRaw true self = some (some [], self') ∧ Carried true D M out (self', W) := by
      rw [hR, ← hr] at phase
      obtain ⟨self', heq, H⟩ := chunkRaw_chunks hproc hraw ho hdecOk hdec phase hb hm hnew (by omega) hD rfl
      have H' := (H.finish f).ignore y
      rw [List.append_assoc a, Final.bytes_append, List.nil_append, ← ha, List.append_assoc, ← hM] at H'
      exact ⟨self', heq, H'⟩
    rcases List.append_eq_append_iff.mp hW with ⟨a, hR, ha⟩ | ⟨z, hz, hend⟩
    · exact before hR ha
    · by_cases hnil : z = []
      · subst hnil
        rw [List.append_nil] at hz
        exact before (a := []) (by rw [List.append_nil, hz]) hend.symm
      · cases phase with
        | header stream fresh =>
          refine past hb hr (by omega) ?_ hend.symm hnil hD hM
          rw [List.drop_zero, hm, hz, ← List.append_assoc, stream]
        | body stream nonempty fresh =>
          have := List.length_pos_iff.mpr nonempty
          omega
        | tail stream short fresh =>
          rename_i cs
          have hall : m.drop o = crlf ++ (encode cs .open ++ z) := by
            rw [hm, hz, ← List.append_assoc, stream, List.append_assoc]
          have hzpos := List.length_pos_iff.mpr hnil
          have hlen := congrArg List.length hall
          rw [List.length_append, List.length_append, show crlf.length = 2 from rfl] at hlen
          exact past hb hr (by omega) (by rw [hall]; rfl) hend.symm hnil hD hM
        | done eof => omega
  | past stream nonempty =>
    rename_i f cs y z
    rw [← hW, ← List.append_assoc] at stream
    exact past hb hr (by omega) (by rw [List.drop_zero, hm, List.append_assoc]) stream (by simp [nonempty]) hD hM
  | closing stream short =>
    rename_i y
    rw [← hW, ← List.append_assoc, ← hm, List.append_assoc] at stream
    -- a part of the first CRLF, the CRLF, or more
    rcases Nat.lt_trichotomy (m.drop o).length 2 with h | h | h
    · have hcr := eq_cr_of_prefix stream (by rw [hm]; simp [hnew]) h
      rw [chunkRaw_short (by omega) (by rw [hb]; decide)]
      refine ⟨self, chunkHeader_cr hraw hcr, hproc, hrawOk, hdecOk, hsmall, _, _, ?_, hD', hM⟩
      simp only [hb, hr, hraw, Buf.some_rest]
      exact .closing (by rw [stream, List.append_assoc]) h
    · rw [chunkRaw_skipped (by omega)]
      refine ⟨_, rfl, hproc, Buf.null_ok, hdecOk, hsmall, _, _, ?_, hD', hM⟩
      rw [(List.append_inj stream h).2]
      simp only [hb]
      exact .closed
    · exact chunkRaw_eof hproc hdecOk hdec (by omega) (by omega) hD hM
  | closed => exact chunkRaw_eof hproc hdecOk hdec (by omega) (by omega) hD hM
  | eof => exact chunkRaw_eof hproc hdecOk hdec (by omega) (by omega) hD hM

/-! A call. -/

/-- The bytes of a body go straight to the caller. -/
theorem direct_carried (H : Carried ended D M out (self, W)) (hdec : self.bufReadDecoded.rest = [])
    (hrbh : 2 < self.readBytesTillHeader) {k : Nat} (hk : k ≤ self.readBytesTillHeader - 2) :
    Carried ended D M (out ++ W.take k)
      ({ self with readBytesTillHeader := self.readBytesTillHeader - (W.take k).length }, W.drop k) := by
  obtain ⟨hproc, hraw, hdecOk, hsmall, todo, metas, hstage, hD, hM⟩ := H
  dsimp only at hproc hraw hdecOk hsmall hstage hD hM
  have direct {n : Nat} {R : Bytes} {M : List HttppMeta} {metas : List HttppMeta} (hbte : self.bytesTillEof = -1)
      (phase : Phase .open n (-1) self.readBytesTillHeader self.bufReadRaw.rest R todo metas)
      (hM : M = self.metaRead ++ metas) : Carried false D M (out ++ R.take k)
        ({ self with readBytesTillHeader := self.readBytesTillHeader - (R.take k).length }, R.drop k) := by
    rw [← hbte] at phase
    have H : Reading .open n D M out (self, R) := ⟨hproc, hraw, hdecOk, hsmall, todo, metas, phase, hD, hM⟩
    exact (direct_reading H hdec hrbh hk).carried hbte
  generalize hb : self.bytesTillEof = bte at hstage
  generalize hr : self.readBytesTillHeader = rbh at hstage
  generalize hx : self.bufReadRaw.rest = rest at hstage
  cases hstage with
  | chunks phase =>
    rw [← hr, ← hx] at phase
    rw [← hb, ← hr]
    exact direct hb phase hM
  | ending phase =>
    rename_i f y n R metas
    have hfits : k ≤ R.length := by
      cases phase with
      | body stream nonempty fresh =>
        rw [stream, List.length_append, List.length_append]
        omega
      | header | tail | done => omega
    rw [← hr, ← hx] at phase
    have H := ((direct hb phase rfl).finish f).ignore y
    rw [List.append_assoc (R.drop k), Final.bytes_append, List.nil_append, List.append_assoc, ← hM] at H
    rw [List.take_append_of_le_length hfits, List.drop_append_of_le_length hfits, ← hb, ← hr]
    exact H
  | past | closing | closed | eof => omega

/-- As long as the end was not read the callback is asked for bytes. -/
theorem Stage.wanted {bte : Int} {rbh : Nat} {rest todo : Bytes} {metas : List HttppMeta}
    (h : Stage ended bte rbh rest W todo metas) (hbte : bte ≠ 0) : 0 < if bte ≠ -1 then bte.toNat else 1024 := by
  cases h with
  | chunks | ending | past | closing | closed => decide
  | eof => exact absurd rfl hbte

/-- `__enc_chunked_read` between two copies from the decoded buffer. A callback that gives something takes
it from the stream. -/
theorem encChunkedRead_carried (H : Carried ended D M out (self, W)) (hdec : self.bufReadDecoded.rest = [])
    (memRaw : Bool) {len : Nat} (hlen : 0 < len) (feed : Feed) :
    ∃ reply self' W', encChunkedRead memRaw true self len feed.callback W = some (reply, self', W') ∧
      Carried ended D M (out ++ reply.bytes) (self', W') ∧ W'.length ≤ W.length ∧
      (memRaw = true → (∃ q, feed = .give q ∧ 0 < q) → W ≠ [] → self.bytesTillEof ≠ 0 → W'.length < W.length) := by
  -- inside a body the bytes go straight to the caller, otherwise to the raw buffer
  by_cases hrbh : 2 < self.readBytesTillHeader
  · rcases encChunkedRead_direct hrbh memRaw true len feed W with ⟨hno, heq⟩ | ⟨q, rfl, k, hk, heq⟩
    · refine ⟨none, self, W, heq, ?_, Nat.le_refl _, fun _ hfeed => ?_⟩
      · rw [Reply.bytes_none, List.append_nil]
        exact H
      · obtain ⟨q, hq, _⟩ := hfeed
        exact absurd hq (hno q)
    · refine ⟨_, _, _, heq, direct_carried H hdec hrbh (by omega), ?_, fun _ hfeed hW _ => ?_⟩
      · rw [List.length_drop]
        exact Nat.sub_le _ _
      · obtain ⟨q', hq, hpos⟩ := hfeed
        cases hq
        have := List.length_pos_iff.mpr hW
        rw [List.length_drop]
        omega
  · have hle := Nat.le_of_not_lt hrbh
    rcases encChunkedRead_feed H.rawOk hle memRaw true len feed W with
      ⟨reply, raw, heq, hnil, hok, hrest, hnothing⟩ | ⟨bs, W', hbs, rfl, _, heq⟩
    · refine ⟨reply, _, W, heq, ?_, Nat.le_refl _, fun hm hfeed hW hbte => ?_⟩
      · rw [hnil, List.append_nil]
        exact H.kept hok hrest
      · obtain ⟨q, hq, hpos⟩ := hfeed
        obtain ⟨_, _, hstage, _, _⟩ := H.stage
        exact absurd (hnothing hm q hq hpos (hstage.wanted hbte)) hW
    · obtain ⟨hproc, hraw, hdecOk, hsmall, todo, metas, hstage, hD, hM⟩ := H
      simp only [hdec, List.append_nil] at hstage hD hM
      obtain ⟨hok, hm⟩ := received_spec hraw bs
      have hproc' : (received self bs).process = .chunked := hproc
      obtain ⟨self', hchunk, H⟩ := chunkRaw_carried hproc' rfl hok hdecOk hdec hstage hm hbs hle hD hM
      rw [hchunk] at heq
      have hpos := List.length_pos_iff.mpr hbs
      refine ⟨some [], self', W', heq, ?_, ?_, fun _ _ _ _ => ?_⟩
      · rw [Reply.bytes_some, List.append_nil]
        exact H
      · rw [List.length_append]
        omega
      · rw [List.length_append]
        omega

/-- One call of `httpp_encoding_read`. It returns what is decoded already. With a callback that gives something it
returns bytes or takes some from the stream, until the end was read. -/
theorem httppEncodingRead_carried (H : Carried ended D M out (self, W)) (memRaw : Bool) {len : Nat} (hlen : 0 < len)
    (feed : Feed) :
    ∃ reply self' W', httppEncodingRead memRaw true self len feed.callback W = some (reply, self', W') ∧
      Carried ended D M (out ++ reply.bytes) (self', W') ∧ W'.length ≤ W.length ∧
      (len < 2 ^ 63 → (self.bufReadDecoded.rest ≠ [] → reply.bytes ≠ []) ∧
        (memRaw = true → (∃ q, feed = .give q ∧ 0 < q) → W ≠ [] → self.bytesTillEof ≠ 0 →
          reply.bytes ≠ [] ∨ W'.length < W.length)) := by
  obtain ⟨hbytes, _, _, _⟩ := copyBuffer_spec H.decodedOk len
  have hcopied := H.copied len
  by_cases hval : (copyBuffer self.bufReadDecoded len).1.value = toSsize len
  · refine ⟨_, _, _, httppEncodingRead_copied hlen hval .., hcopied, Nat.le_refl _, fun hfit => ?_⟩
    suffices hne : (copyBuffer self.bufReadDecoded len).1.bytes ≠ [] from ⟨fun _ => hne, fun _ _ _ _ => Or.inl hne⟩
    intro hnil
    rw [toSsize_of_lt hfit] at hval
    cases hret : (copyBuffer self.bufReadDecoded len).1 with
    | none =>
      rw [hret] at hval
      simp only [Reply.value] at hval
      omega
    | some bs =>
      rw [hret, Reply.bytes_some] at hnil
      rw [hret, hnil] at hval
      simp only [Reply.value, List.length_nil] at hval
      omega
  · obtain ⟨hall, hlt, hempty⟩ := copyBuffer_cases H.decodedOk H.small hlen hval
    simp only at hbytes hcopied hall hlt hempty
    simp only [hall] at hcopied
    obtain ⟨reply, self', W', heq, H', hW', hprog⟩ := encChunkedRead_carried hcopied hempty memRaw
      (show 0 < len - self.bufReadDecoded.rest.length by omega) feed
    rw [httppEncodingRead_handled H.chunked hlen hval hall, heq, Option.map_some]
    have hdecoded {bs : Bytes} (hbs : self.bufReadDecoded.rest <+: bs) (hd : self.bufReadDecoded.rest ≠ []) :
        bs ≠ [] := by
      intro hnil
      rw [hnil] at hbs
      exact hd (List.prefix_nil.mp hbs)
    cases reply with
    | none =>
      rw [Reply.bytes_none, List.append_nil] at H'
      refine ⟨_, _, _, rfl, ?_, hW', fun _ => ⟨?_, fun hm hfeed hW hbte => Or.inr (hprog hm hfeed hW hbte)⟩⟩
      · rw [Reply.bytes_ite]
        exact H'
      · rw [Reply.bytes_ite]
        exact hdecoded (List.prefix_refl _)
    | some bs =>
      rw [Reply.bytes_some] at H'
      have hlast := H'.copied (len - self.bufReadDecoded.rest.length - bs.length)
      refine ⟨_, _, _, rfl, ?_, hW', fun _ => ⟨hdecoded ?_, fun hm hfeed hW hbte => Or.inr (hprog hm hfeed hW hbte)⟩⟩
      · rw [Reply.bytes_some]
        simp only [List.append_assoc] at hlast ⊢
        exact hlast
      · rw [Reply.bytes_some, List.append_assoc]
        exact List.prefix_append _ _

end

end IcecastCommon.Encoding
