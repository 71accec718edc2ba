import IcecastCommon.Encoding.ReadRun
import IcecastCommon.Encoding.Write

/- The decoder under any input: the states that calls with any callbacks lead to, the state
   in which a call enters the header loop (`loopStart`), and what the loop makes of the
   bytes it finds (`acceptHeader`). -/
namespace IcecastCommon.Encoding

variable {σ : Type}

/-! Reachable states. -/

/-- A callback hands over at most what it is asked for. -/
def Honest (cb : Option (ReadCallback σ)) : Prop :=
  ∀ f, cb = some f → ∀ n userdata, (f n userdata).1.bytes.length ≤ n

/-- A callback with these bytes. -/
def feed (bs : Bytes) : ReadCallback Unit := fun n userdata => (some (bs.take n), userdata)

/-- The states of a chunked decoder. -/
inductive Reachable : HttppEncoding → Prop where
  | new : Reachable (httppEncodingNew .chunked)
  | read {σ : Type} {memRaw memBody : Bool} {self self' : HttppEncoding} {len : Nat}
      {cb : Option (ReadCallback σ)} {userdata userdata' : σ} {reply : Reply} (h : Reachable self)
      (honest : Honest cb)
      (call : httppEncodingRead memRaw memBody self len cb userdata = some (reply, self', userdata')) :
      Reachable self'
  | getMeta {self : HttppEncoding} (h : Reachable self) : Reachable (httppEncodingGetMeta self).2

/-- The offsets stay within the buffers. -/
structure Sound (enc : HttppEncoding) : Prop where
  chunked : enc.process = .chunked
  rawOk : enc.bufReadRaw.Ok
  decodedOk : enc.bufReadDecoded.Ok

/-! The way into the header loop. -/

/-- The state in which the header loop starts, if it is reached: behind the CRLF of the
last body and the check for the end of the stream. -/
def loopStart (self : HttppEncoding) : Option HttppEncoding :=
  if self.bufReadRaw.left = self.readBytesTillHeader then none
  else
    let self :=
      if self.readBytesTillHeader < self.bufReadRaw.left then
        { self with
          bufReadRaw := { self.bufReadRaw with
            offset := self.bufReadRaw.offset + self.readBytesTillHeader }
          readBytesTillHeader := 0 }
      else self
    let self :=
      if self.bytesTillEof ≠ -1 ∧ self.readBytesTillHeader = 0 then { self with bytesTillEof := 0 }
      else self
    if self.bytesTillEof = 0 then none else some self

theorem chunkRaw_loop {self self₁ : HttppEncoding} (h : loopStart self = some self₁) (memBody : Bool) :
    chunkRaw memBody self = chunkHeader memBody self₁ := by
  unfold loopStart at h
  unfold chunkRaw
  by_cases hsame : self.bufReadRaw.left = self.readBytesTillHeader
  · rw [if_pos hsame] at h
    cases h
  · simp only [if_neg hsame] at h ⊢
    split_ifs at h ⊢
    all_goals rw [Option.some.inj h]

/-- A call that does not get to the loop returns 0. -/
theorem chunkRaw_before {self : HttppEncoding} (hok : self.bufReadRaw.Ok) (h : loopStart self = none) :
    ∃ self', (∀ memBody, chunkRaw memBody self = some (some [], self')) ∧ self'.process = self.process ∧
      self'.bufReadRaw.Ok ∧ self'.bufReadDecoded = self.bufReadDecoded := by
  have hlen : self.bufReadRaw.offset + self.bufReadRaw.left = self.bufReadRaw.len := Nat.add_sub_cancel' hok
  unfold loopStart at h
  unfold chunkRaw
  by_cases hsame : self.bufReadRaw.left = self.readBytesTillHeader
  · simp only [if_pos hsame]
    exact ⟨_, fun _ => rfl, rfl, Buf.null_ok, rfl⟩
  · simp only [if_neg hsame] at h ⊢
    by_cases hmore : self.readBytesTillHeader < self.bufReadRaw.left
    · have hskip : self.bufReadRaw.offset + self.readBytesTillHeader ≤ self.bufReadRaw.len := by omega
      simp only [if_pos hmore] at h ⊢
      split_ifs at h ⊢
      all_goals exact ⟨_, fun _ => rfl, rfl, hskip, rfl⟩
    · simp only [if_neg hmore] at h ⊢
      split_ifs at h ⊢
      all_goals exact ⟨_, fun _ => rfl, rfl, hok, rfl⟩

/-- The loop starts behind the CRLF of the last body, or at less than this CRLF. -/
theorem loopStart_spec {self self₁ : HttppEncoding} (h : loopStart self = some self₁) :
    self.readBytesTillHeader < self.bufReadRaw.left ∧ self.bytesTillEof = -1 ∧ self₁ = { self with
        bufReadRaw := ⟨self.bufReadRaw.mem, self.bufReadRaw.offset + self.readBytesTillHeader⟩
        readBytesTillHeader := 0 } ∨
      self.bufReadRaw.left < self.readBytesTillHeader ∧ self₁ = self := by
  unfold loopStart at h
  by_cases hsame : self.bufReadRaw.left = self.readBytesTillHeader
  · rw [if_pos hsame] at h
    cases h
  · simp only [if_neg hsame] at h
    by_cases hmore : self.readBytesTillHeader < self.bufReadRaw.left
    · simp only [if_pos hmore, and_true] at h
      by_cases hbte : self.bytesTillEof = -1
      · simp only [hbte, ne_eq, not_true_eq_false, if_false] at h
        rw [if_neg (by decide)] at h
        obtain rfl := Option.some.inj h
        exact Or.inl ⟨hmore, hbte, by rw [hbte]⟩
      · simp only [if_pos hbte, if_true] at h
        cases h
    · have hpos : ¬ (self.bytesTillEof ≠ -1 ∧ self.readBytesTillHeader = 0) := by omega
      simp only [if_neg hmore, if_neg hpos] at h
      split_ifs at h
      obtain rfl := Option.some.inj h
      exact Or.inr ⟨by omega, rfl⟩

theorem loopStart_ok {self self₁ : HttppEncoding} (hok : self.bufReadRaw.Ok) (h : loopStart self = some self₁) :
    self₁.bufReadRaw.Ok := by
  have hlen : self.bufReadRaw.offset + self.bufReadRaw.left = self.bufReadRaw.len := Nat.add_sub_cancel' hok
  rcases loopStart_spec h with ⟨hmore, _, rfl⟩ | ⟨_, rfl⟩
  · show self.bufReadRaw.offset + self.readBytesTillHeader ≤ self.bufReadRaw.len
    omega
  · exact hok

theorem loopStart_frame {self self₁ : HttppEncoding} (h : loopStart self = some self₁) :
    self₁.process = self.process ∧ self₁.bufReadDecoded = self.bufReadDecoded := by
  rcases loopStart_spec h with ⟨_, _, rfl⟩ | ⟨_, rfl⟩
  all_goals exact ⟨rfl, rfl⟩

/-! The scanner. -/

/-- The offsets the loop has noted lie between its start `o` and the byte `i` it is at. -/
structure Scan.Within (s : Scan) (o i : Nat) : Prop where
  inCR : s.offsetCR = -1 ∨ o ≤ s.offsetCR ∧ s.offsetCR < i
  inExtentions : s.offsetExtentions = -1 ∨
    o ≤ s.offsetExtentions ∧ s.offsetExtentions < i ∧ s.offsetExtentions ≠ s.offsetCR

/-- One byte: the loop goes on, or the byte is the LF behind `offset_CR`. -/
theorem Scan.next_within {s : Scan} {o i : Nat} (H : s.Within o i) (hoi : o ≤ i) (hs : s.offsetLF = -1)
    (c : UInt8) :
    (s.next i c).offsetLF = -1 ∧ (s.next i c).Within o (i + 1) ∨
      c = lf ∧ s.offsetCR = (i : Int) - 1 ∧ s.next i c = { s with offsetLF := i } := by
  obtain ⟨hcr, hext⟩ := H
  have stays : s.Within o (i + 1) := ⟨by omega, by omega⟩
  unfold Scan.next
  by_cases hq : s.inQuote ≠ 0
  · rw [if_pos hq]
    split_ifs
    all_goals exact Or.inl ⟨hs, stays.1, stays.2⟩
  · rw [if_neg hq]
    split_ifs with h1 h2 h3 h4
    · exact Or.inl ⟨hs, stays.1, stays.2⟩
    · refine Or.inl ⟨hs, ⟨stays.1, Or.inr ?_⟩⟩
      simp only
      omega
    · refine Or.inl ⟨hs, ⟨Or.inr ?_, ?_⟩⟩
      · simp only
        omega
      · simp only
        omega
    · exact Or.inr ⟨h4.1, h4.2, rfl⟩
    · exact Or.inl ⟨hs, stays⟩

/-- The end of a header: an LF whose offset is one behind `offset_CR`. -/
theorem scanHeader_end {o i : Nat} {xs : Bytes} {s : Scan} (H : s.Within o i) (hoi : o ≤ i)
    (hs : s.offsetLF = -1) (h : (scanHeader i xs s).offsetLF ≠ -1) :
    ∃ k, k < xs.length ∧ xs[k]? = some lf ∧ (scanHeader i xs s).offsetLF = (i : Int) + k ∧
      (scanHeader i xs s).offsetCR = (i : Int) + k - 1 ∧ (scanHeader i xs s).Within o (i + k) := by
  induction xs generalizing i s with
  | nil => exact absurd hs h
  -- on the bytes; the loop ends at the one that is the LF behind `offset_CR`
  | cons c cs ih =>
    rcases Scan.next_within H hoi hs c with ⟨hs', H'⟩ | ⟨hc, hcr, hnext⟩
    · have hstep : scanHeader i (c :: cs) s = scanHeader (i + 1) cs (s.next i c) := by
        rw [scanHeader, if_neg (not_not.mpr hs')]
      rw [hstep] at h ⊢
      obtain ⟨k, hk, hget, hLF, hCR, hwithin⟩ := ih H' (by omega) hs' h
      refine ⟨k + 1, Nat.succ_lt_succ hk, hget, ?_, ?_, ?_⟩
      · omega
      · omega
      · rw [show i + (k + 1) = i + 1 + k by omega]
        exact hwithin
    · have hne : (s.next i c).offsetLF ≠ -1 := by
        rw [hnext]
        simp only
        omega
      have hstep : scanHeader i (c :: cs) s = { s with offsetLF := i } := by
        rw [scanHeader, if_pos hne, hnext]
      rw [hstep]
      refine ⟨0, Nat.succ_pos _, by rw [hc]; rfl, ?_, ?_, H.1, H.2⟩
      · simp only
        omega
      · simp only
        omega

theorem Scan.start_within (o : Nat) : Scan.start.Within o o := ⟨Or.inl rfl, Or.inl rfl⟩

/-! The header. -/

/-- The scanner at the end of the loop. -/
def headerScan (self : HttppEncoding) : Scan :=
  scanHeader self.bufReadRaw.offset self.bufReadRaw.rest Scan.start

/-- Where the NUL goes. -/
def Scan.stop (s : Scan) : Int := if s.offsetExtentions ≠ -1 then s.offsetExtentions else s.offsetCR

/-- The extension parser, if there are extensions. -/
def headerExtentions (self : HttppEncoding) : Option HttppEncoding :=
  if (headerScan self).offsetExtentions ≠ -1 then
    encChunkedReadExtentions self
      ((self.bufReadRaw.mem.getD []).drop (headerScan self).offsetExtentions.toNat)
      ((headerScan self).offsetCR - (headerScan self).offsetExtentions).toNat
  else some self

/-- The raw buffer with the NUL. -/
def headerMem (self : HttppEncoding) : Bytes :=
  (self.bufReadRaw.mem.getD []).set (headerScan self).stop.toNat nul

/-- The state at the body of a chunk. -/
def bodyStart (self self₁ : HttppEncoding) (bodylen : Nat) : HttppEncoding :=
  { self₁ with
    bufReadRaw := ⟨some (headerMem self), (headerScan self).offsetLF.toNat + 1⟩
    bytesTillEof := if bodylen = 0 then 2 else self₁.bytesTillEof }

theorem chunkHeader_eq (memBody : Bool) (self : HttppEncoding) : chunkHeader memBody self =
    if (headerScan self).offsetLF = -1 then some (some [], self)
    else (headerExtentions self).bind fun self₁ =>
      if (headerScan self).stop < 0 then none
      else match sscanfLlx ((headerMem self).drop self.bufReadRaw.offset) with
        | none => some (none, { self₁ with bufReadRaw := ⟨some (headerMem self), self.bufReadRaw.offset⟩ })
        | some bodylen => some (chunkBody memBody (bodyStart self self₁ bodylen) bodylen) := by
  unfold chunkHeader headerExtentions
  by_cases hext : (headerScan self).offsetExtentions ≠ -1
  · have hstop : (headerScan self).stop = (headerScan self).offsetExtentions := if_pos hext
    rw [if_pos hext, headerMem, hstop]
    unfold headerScan at hext ⊢
    simp only [if_pos hext]
    refine if_congr Iff.rfl rfl (congrArg (Option.bind _) (funext fun self₁ => ?_))
    refine if_congr Iff.rfl rfl ?_
    unfold bodyStart headerMem
    rw [hstop]
    unfold headerScan
    generalize sscanfLlx _ = number
    cases number <;> rfl
  · have hstop : (headerScan self).stop = (headerScan self).offsetCR := if_neg hext
    rw [if_neg hext, headerMem, hstop]
    unfold headerScan at hext ⊢
    simp only [if_neg hext]
    refine if_congr Iff.rfl rfl (congrArg (Option.bind _) (funext fun self₁ => ?_))
    refine if_congr Iff.rfl rfl ?_
    unfold bodyStart headerMem
    rw [hstop]
    unfold headerScan
    generalize sscanfLlx _ = number
    cases number <;> rfl

/-- The number of a complete header, and the state with the offset of the raw buffer at the
body; `none` when the loop finds no end, or no number. -/
def acceptHeader (self : HttppEncoding) : Option (Nat × HttppEncoding) :=
  if (headerScan self).offsetLF = -1 then none
  else (headerExtentions self).bind fun self₁ =>
    if (headerScan self).stop < 0 then none
    else (sscanfLlx ((headerMem self).drop self.bufReadRaw.offset)).map fun bodylen =>
      (bodylen, bodyStart self self₁ bodylen)

/-- With a complete header the call goes on at the body. -/
theorem chunkHeader_accept {self self₂ : HttppEncoding} {n : Nat} (h : acceptHeader self = some (n, self₂))
    (memBody : Bool) : chunkHeader memBody self = some (chunkBody memBody self₂ n) := by
  unfold acceptHeader at h
  rw [chunkHeader_eq]
  by_cases hLF : (headerScan self).offsetLF = -1
  · rw [if_pos hLF] at h
    cases h
  · rw [if_neg hLF] at h ⊢
    obtain ⟨self₁, hext, h⟩ := Option.bind_eq_some_iff.mp h
    rw [hext, Option.bind_some]
    by_cases hstop : (headerScan self).stop < 0
    · rw [if_pos hstop] at h
      cases h
    · rw [if_neg hstop] at h ⊢
      obtain ⟨bodylen, hnumber, h⟩ := Option.map_eq_some_iff.mp h
      obtain ⟨rfl, rfl⟩ := Prod.mk.inj h
      simp only [hnumber]

theorem headerExtentions_eq {self self₁ : HttppEncoding} (h : headerExtentions self = some self₁) :
    ∃ metas, self₁ = { self with metaRead := self.metaRead ++ metas } := by
  unfold headerExtentions at h
  split_ifs at h
  · unfold encChunkedReadExtentions at h
    obtain ⟨metas, _, h⟩ := Option.bind_eq_some_iff.mp h
    exact ⟨metas, (Option.some.inj h).symm⟩
  · obtain rfl := Option.some.inj h
    exact ⟨[], by rw [List.append_nil]⟩

theorem headerMem_length (self : HttppEncoding) : (headerMem self).length = self.bufReadRaw.len := List.length_set

/-- Otherwise it stays at the header, or it faults. -/
theorem chunkHeader_reject {self : HttppEncoding} (hok : self.bufReadRaw.Ok) (h : acceptHeader self = none) :
    (∀ memBody, chunkHeader memBody self = none) ∨
      ∃ reply self', (∀ memBody, chunkHeader memBody self = some (reply, self')) ∧
        self'.process = self.process ∧ self'.bufReadRaw.Ok ∧ self'.bufReadDecoded = self.bufReadDecoded := by
  unfold acceptHeader at h
  simp only [chunkHeader_eq]
  by_cases hLF : (headerScan self).offsetLF = -1
  · simp only [if_pos hLF]
    exact Or.inr ⟨_, _, fun _ => rfl, rfl, hok, rfl⟩
  · simp only [if_neg hLF] at h ⊢
    cases hext : headerExtentions self with
    | none => exact Or.inl fun _ => rfl
    | some self₁ =>
      rw [hext, Option.bind_some] at h
      obtain ⟨metas, rfl⟩ := headerExtentions_eq hext
      simp only [Option.bind_some]
      by_cases hstop : (headerScan self).stop < 0
      · simp only [if_pos hstop]
        exact Or.inl fun _ => trivial
      · simp only [if_neg hstop] at h ⊢
        simp only [Option.map_eq_none_iff.mp h]
        refine Or.inr ⟨_, _, fun _ => rfl, rfl, ?_, rfl⟩
        show self.bufReadRaw.offset ≤ (headerMem self).length
        rw [headerMem_length]
        exact hok

theorem sscanfLlx_lt {s : Bytes} {n : Nat} (h : sscanfLlx s = some n) : n < 2 ^ 64 := by
  unfold sscanfLlx at h
  split at h
  · cases h
  · split_ifs at h
    all_goals
      obtain ⟨k, _, rfl⟩ := Option.map_eq_some_iff.mp h
    · split_ifs
      · exact Nat.mod_lt _ (Nat.two_pow_pos 64)
      · decide
    all_goals exact Nat.lt_of_le_of_lt (Nat.min_le_right _ _) (by decide)

/-- What is known at the body: the number fits its type, and only the metadata, the raw
buffer and `bytes_till_eof` have changed. -/
theorem acceptHeader_spec {self self₂ : HttppEncoding} {n : Nat} (hok : self.bufReadRaw.Ok)
    (h : acceptHeader self = some (n, self₂)) :
    n < 2 ^ 64 ∧ 2 ≤ self.bufReadRaw.left ∧ ∃ mem offset metas, offset ≤ mem.length ∧
      self₂ = { self with
        metaRead := self.metaRead ++ metas
        bufReadRaw := ⟨some mem, offset⟩
        bytesTillEof := if n = 0 then 2 else self.bytesTillEof } := by
  unfold acceptHeader at h
  by_cases hLF : (headerScan self).offsetLF = -1
  · rw [if_pos hLF] at h
    cases h
  · rw [if_neg hLF] at h
    obtain ⟨self₁, hext, h⟩ := Option.bind_eq_some_iff.mp h
    obtain ⟨metas, rfl⟩ := headerExtentions_eq hext
    by_cases hstop : (headerScan self).stop < 0
    · rw [if_pos hstop] at h
      cases h
    · rw [if_neg hstop] at h
      obtain ⟨bodylen, hnumber, h⟩ := Option.map_eq_some_iff.mp h
      obtain ⟨rfl, rfl⟩ := Prod.mk.inj h
      obtain ⟨k, hk, _, hend, hCR, hinCR, hinExt⟩ := scanHeader_end (Scan.start_within _) (Nat.le_refl _) rfl hLF
      rw [Buf.rest_length] at hk
      have hlen : self.bufReadRaw.offset + self.bufReadRaw.left = self.bufReadRaw.len := Nat.add_sub_cancel' hok
      refine ⟨sscanfLlx_lt hnumber, ?_, headerMem self, _, metas, ?_, rfl⟩
      · unfold Scan.stop at hstop
        unfold headerScan at hstop
        split_ifs at hstop
        all_goals omega
      · rw [headerMem_length]
        unfold headerScan
        omega

/-! One call. -/

/-- The header that a call finds when the callback hands over `bs`. -/
def headerIn (self : HttppEncoding) (bs : Bytes) : Option (Nat × HttppEncoding) :=
  (loopStart (received self bs)).bind acceptHeader

/-- With a header in it the call goes on at the body. -/
theorem encChunkedRead_header {self self₂ : HttppEncoding} {bs : Bytes} {n : Nat}
    (hrbth : self.readBytesTillHeader ≤ 2) (hbs : bs ≠ []) {f : ReadCallback σ} {userdata userdata' : σ}
    (hf : f (rawWanted self) userdata = (some bs, userdata')) (hheader : headerIn self bs = some (n, self₂))
    (memBody : Bool) (len : Nat) :
    encChunkedRead true memBody self len (some f) userdata =
      some ((chunkBody memBody self₂ n).1, (chunkBody memBody self₂ n).2, userdata') := by
  obtain ⟨self₁, hloop, haccept⟩ := Option.bind_eq_some_iff.mp hheader
  rw [encChunkedRead_received hrbth hbs hf, chunkRaw_loop hloop, chunkHeader_accept haccept]
  rfl

/-- A copy from a buffer without unread bytes. -/
theorem copyBuffer_drained {src : Buf} (hok : src.Ok) (hrest : src.rest = []) (len : Nat) :
    (copyBuffer src len).1.bytes = [] ∧ (copyBuffer src len).2.Ok ∧ (copyBuffer src len).2.rest = [] := by
  obtain ⟨hbytes, hrest', hok', _⟩ := copyBuffer_spec hok len
  rw [hrest, List.take_nil] at hbytes
  rw [hrest, List.drop_nil] at hrest'
  exact ⟨hbytes, hok', hrest'⟩

/-- Its value is not taken for the length; only the length whose conversion to `ssize_t` is
the -1 of a failed copy is left out. -/
theorem copyBuffer_short {src : Buf} (hok : src.Ok) (hrest : src.rest = []) {len : Nat} (hpos : 0 < len)
    (hlen : len < 2 ^ 64 - 1) : (copyBuffer src len).1.value ≠ toSsize len := by
  obtain ⟨hbytes, _, _⟩ := copyBuffer_drained hok hrest len
  have hsize : toSsize len ≠ 0 ∧ toSsize len ≠ -1 := by
    unfold toSsize
    rw [BitVec.toInt_eq_toNat_cond, BitVec.toNat_ofNat, Nat.mod_eq_of_lt (by omega)]
    split_ifs
    all_goals omega
  cases hret : (copyBuffer src len).1 with
  | none => exact Ne.symm hsize.2
  | some bs =>
    rw [hret, Reply.bytes_some] at hbytes
    rw [hbytes]
    exact Ne.symm hsize.1

/-- A call whose decoded buffer is empty runs the handler, if the value of the copy is not
taken for the length. -/
theorem httppEncodingRead_drained {self : HttppEncoding} (hproc : self.process = .chunked)
    (hok : self.bufReadDecoded.Ok) (hrest : self.bufReadDecoded.rest = []) {len : Nat} (hpos : 0 < len)
    (hvalue : (copyBuffer self.bufReadDecoded len).1.value ≠ toSsize len) (memRaw memBody : Bool)
    (cb : Option (ReadCallback σ)) (userdata : σ) :
    httppEncodingRead memRaw memBody self len cb userdata =
      (encChunkedRead memRaw memBody { self with bufReadDecoded := (copyBuffer self.bufReadDecoded len).2 }
        len cb userdata).map fun r => match r.1 with
          | none => (none, r.2)
          | some out => (some (out ++ (copyBuffer r.2.1.bufReadDecoded (len - out.length)).1.bytes),
              { r.2.1 with bufReadDecoded := (copyBuffer r.2.1.bufReadDecoded (len - out.length)).2 }, r.2.2) := by
  obtain ⟨hbytes, _, _⟩ := copyBuffer_drained hok hrest len
  rw [httppEncodingRead_handled hproc hpos hvalue hbytes, List.length_nil, Nat.sub_zero, if_pos rfl]
  rfl

/-! The invariant. -/

section

variable {self self' : HttppEncoding} {memRaw memBody : Bool} {reply : Reply}

theorem chunkBody_sound (H : Sound self) (memBody : Bool) (n : Nat) : Sound (chunkBody memBody self n).2 := by
  obtain ⟨hproc, hraw, hdec⟩ := H
  rcases chunkBody_cases hraw memBody n with ⟨_, heq⟩ | ⟨_, _, heq⟩ | ⟨_, _, heq⟩ |
    ⟨_, _, raw, hraw', _, heq⟩ | ⟨_, _, raw, hraw', _, heq⟩
  all_goals rw [heq]
  · exact ⟨hproc, Buf.null_ok, hdec⟩
  · exact ⟨hproc, Buf.null_ok, hraw⟩
  · exact ⟨hproc, hraw, Buf.null_ok⟩
  · exact ⟨hproc, hraw', Nat.zero_le _⟩
  · exact ⟨hproc, hraw', Nat.zero_le _⟩

theorem chunkRaw_sound (H : Sound self) (h : chunkRaw memBody self = some (reply, self')) : Sound self' := by
  -- the call ends in front of the header, at it, or at the body
  cases hloop : loopStart self with
  | none =>
    obtain ⟨self₁, heq, hproc, hraw, hdec⟩ := chunkRaw_before H.rawOk hloop
    obtain ⟨_, rfl⟩ := Prod.mk.inj (Option.some.inj ((heq memBody).symm.trans h))
    exact ⟨hproc.trans H.chunked, hraw, hdec ▸ H.decodedOk⟩
  | some self₁ =>
    obtain ⟨hproc, hdec⟩ := loopStart_frame hloop
    have hraw := loopStart_ok H.rawOk hloop
    rw [chunkRaw_loop hloop] at h
    cases haccept : acceptHeader self₁ with
    | none =>
      rcases chunkHeader_reject hraw haccept with hfault | ⟨reply₂, self₂, heq, hproc₂, hraw₂, hdec₂⟩
      · rw [hfault] at h
        cases h
      · obtain ⟨_, rfl⟩ := Prod.mk.inj (Option.some.inj ((heq memBody).symm.trans h))
        refine ⟨hproc₂.trans (hproc.trans H.chunked), hraw₂, ?_⟩
        rw [hdec₂, hdec]
        exact H.decodedOk
    | some r =>
      obtain ⟨n, self₂⟩ := r
      obtain ⟨_, _, mem, offset, metas, ho, rfl⟩ := acceptHeader_spec hraw haccept
      rw [chunkHeader_accept haccept] at h
      have hstart : Sound { self₁ with
          metaRead := self₁.metaRead ++ metas
          bufReadRaw := ⟨some mem, offset⟩
          bytesTillEof := if n = 0 then 2 else self₁.bytesTillEof } :=
        ⟨hproc.trans H.chunked, ho, hdec ▸ H.decodedOk⟩
      have hsound := chunkBody_sound hstart memBody n
      rw [Option.some.inj h] at hsound
      exact hsound

theorem received_sound (H : Sound self) (bs : Bytes) : Sound (received self bs) :=
  ⟨H.chunked, (received_spec H.rawOk bs).1, H.decodedOk⟩

theorem encChunkedRead_sound (H : Sound self) {len : Nat} {cb : Option (ReadCallback σ)} {userdata userdata' : σ}
    (h : encChunkedRead memRaw memBody self len cb userdata = some (reply, self', userdata')) : Sound self' := by
  rcases encChunkedRead_inv h with ⟨k, rfl⟩ | rfl | ⟨bs, _, hraw⟩
  · exact ⟨H.chunked, H.rawOk, H.decodedOk⟩
  · exact ⟨H.chunked, (dropRaw_growRaw H.rawOk).1, H.decodedOk⟩
  · exact chunkRaw_sound (received_sound H bs) hraw

theorem copyBuffer_sound (H : Sound self) (len : Nat) :
    Sound { self with bufReadDecoded := (copyBuffer self.bufReadDecoded len).2 } :=
  ⟨H.chunked, H.rawOk, (copyBuffer_spec H.decodedOk len).2.2.1⟩

theorem httppEncodingRead_sound (H : Sound self) {len : Nat} {cb : Option (ReadCallback σ)}
    {userdata userdata' : σ}
    (h : httppEncodingRead memRaw memBody self len cb userdata = some (reply, self', userdata')) : Sound self' := by
  have hcopied := copyBuffer_sound H len
  by_cases hlen : len = 0
  · subst hlen
    cases h
    exact H
  · have hpos := Nat.pos_of_ne_zero hlen
    by_cases hall : (copyBuffer self.bufReadDecoded len).1.value = toSsize len
    · rw [httppEncodingRead_copied hpos hall] at h
      cases h
      exact hcopied
    · rw [httppEncodingRead_handled H.chunked hpos hall rfl] at h
      obtain ⟨⟨ret, self₁, userdata₁⟩, hread, h⟩ := Option.map_eq_some_iff.mp h
      have hsound := encChunkedRead_sound hcopied hread
      cases ret with
      | none =>
        cases h
        exact hsound
      | some bs =>
        cases h
        exact copyBuffer_sound hsound _

/-- What is known behind a header that a call has found: it stood at the front, and only the
metadata, the raw buffer and `bytes_till_eof` have changed. -/
theorem headerIn_spec (H : Sound self) (hrbth : self.readBytesTillHeader ≤ 2) {bs : Bytes} {n : Nat}
    (h : headerIn self bs = some (n, self')) :
    n < 2 ^ 64 ∧ ∃ mem offset metas, offset ≤ mem.length ∧
      self' = { self with
        metaRead := self.metaRead ++ metas
        bufReadRaw := ⟨some mem, offset⟩
        bytesTillEof := if n = 0 then 2 else -1
        readBytesTillHeader := 0 } := by
  obtain ⟨self₁, hloop, haccept⟩ := Option.bind_eq_some_iff.mp h
  obtain ⟨hn, htwo, mem, offset, metas, ho, rfl⟩ :=
    acceptHeader_spec (loopStart_ok (received_sound H bs).rawOk hloop) haccept
  rcases loopStart_spec hloop with ⟨_, hbte, rfl⟩ | ⟨hshort, rfl⟩
  · refine ⟨hn, mem, offset, metas, ho, ?_⟩
    rw [hbte]
    rfl
  · -- a header does not fit into less than a CRLF
    have hle : (received self bs).readBytesTillHeader ≤ 2 := hrbth
    omega

end

/-- Every state that calls lead to is sound. -/
theorem Reachable.sound {self : HttppEncoding} (h : Reachable self) : Sound self := by
  induction h with
  | new => exact ⟨rfl, Buf.null_ok, Buf.null_ok⟩
  | read _ _ call ih => exact httppEncodingRead_sound ih call
  | getMeta _ ih => exact ⟨ih.chunked, ih.rawOk, ih.decodedOk⟩

end IcecastCommon.Encoding
