import IcecastCommon.Encoding.WriteRun

/- What the encoder writes on a backend that takes everything, against a decoder for the
   Chunked-Body of RFC 2616. The data comes back, but the terminating chunk has one CRLF
   too many: it stays behind the body. -/
namespace IcecastCommon.Encoding
open Library

/-! Printed lengths are read back. -/

theorem hexDigit_hexChar : ∀ d < 16, hexDigit (hexChar d) = some d := by decide

theorem hexValue_append (ds : Bytes) (c : UInt8) :
    hexValue (ds ++ [c]) = 16 * hexValue ds + (hexDigit c).getD 0 := by
  unfold hexValue
  rw [List.foldl_append]
  rfl

theorem printDigits_spec (fuel : Nat) {n : Nat} (hfuel : 0 < fuel) (hn : n < 16 ^ fuel) (acc : Bytes) :
    ∃ ds, printDigits fuel n acc = ds ++ acc ∧ ds ≠ [] ∧ (∀ c ∈ ds, IsHex c) ∧
      hexValue ds = n := by
  induction fuel generalizing n acc with
  | zero => exact absurd hfuel (Nat.lt_irrefl 0)
  | succ fuel ih =>
    unfold printDigits
    by_cases hlt : n < 16
    · rw [if_pos hlt]
      refine ⟨[hexChar n], rfl, List.cons_ne_nil _ _, ?_, ?_⟩
      · intro c hc
        rw [List.mem_singleton.mp hc, IsHex, hexDigit_hexChar n hlt]
        exact Option.some_ne_none n
      · show 16 * 0 + (hexDigit (hexChar n)).getD 0 = n
        rw [hexDigit_hexChar n hlt, Option.getD_some]
        omega
    · rw [if_neg hlt]
      have hpow : 16 ^ (fuel + 1) = 16 ^ fuel * 16 := Nat.pow_succ 16 fuel
      have hpos : 0 < fuel := by
        rcases Nat.eq_zero_or_pos fuel with h | h
        · rw [h] at hn
          exact absurd hn hlt
        · exact h
      have hmod : n % 16 < 16 := Nat.mod_lt _ (by decide)
      obtain ⟨ds, heq, hne, hhex, hval⟩ := ih hpos (n := n / 16) (by omega) (hexChar (n % 16) :: acc)
      refine ⟨ds ++ [hexChar (n % 16)], ?_, by simp, ?_, ?_⟩
      · rw [heq, List.append_assoc]
        rfl
      · intro c hc
        rcases List.mem_append.mp hc with h | h
        · exact hhex c h
        · rw [List.mem_singleton.mp h, IsHex, hexDigit_hexChar _ hmod]
          exact Option.some_ne_none _
      · rw [hexValue_append, hval, hexDigit_hexChar _ hmod, Option.getD_some]
        omega

theorem printLx_spec {n : Nat} (hn : n < 2 ^ 64) :
    printLx n ≠ [] ∧ (∀ c ∈ printLx n, IsHex c) ∧ hexValue (printLx n) = n := by
  obtain ⟨ds, heq, h⟩ := printDigits_spec 16 (by decide) (n := n) hn []
  rw [List.append_nil] at heq
  rw [printLx, heq]
  exact h

/-! The reference decoder. -/

/-- What follows a CRLF. -/
def stripCrlf : Bytes → Option Bytes
  | c :: d :: s => if c = cr ∧ d = lf then some s else none
  | _ => none

/-- A Chunked-Body without extensions and trailer: the data and what stands behind it. -/
def decodeBody : Nat → Bytes → Option (Bytes × Bytes)
  | 0, _ => none
  | fuel + 1, s => do
    let size := s.takeWhile fun c => decide (IsHex c)
    if size = [] then none
    else
      let s ← stripCrlf (s.drop size.length)
      if hexValue size = 0 then
        let rest ← stripCrlf s
        some ([], rest)
      else if s.length < hexValue size then none
      else
        let rest ← stripCrlf (s.drop (hexValue size))
        let (data, rest) ← decodeBody fuel rest
        some (s.take (hexValue size) ++ data, rest)

theorem stripCrlf_crlf (s : Bytes) : stripCrlf (crlf ++ s) = some s := rfl

theorem takeWhile_hex {ds s : Bytes} (h : ∀ c ∈ ds, IsHex c) :
    (ds ++ crlf ++ s).takeWhile (fun c => decide (IsHex c)) = ds := by
  rw [List.append_assoc, List.takeWhile_append_of_pos fun c hc => decide_eq_true (h c hc)]
  have hcr : decide (IsHex cr) = false := by decide
  show ds ++ List.takeWhile _ (cr :: lf :: s) = ds
  rw [List.takeWhile_cons_of_neg (by rw [hcr]; decide), List.append_nil]

theorem drop_size (ds s : Bytes) : (ds ++ crlf ++ s).drop ds.length = crlf ++ s := by
  rw [List.append_assoc, List.drop_left]

theorem decodeBody_chunk {data : Bytes} (hne : data ≠ []) (hfit : data.length < 2 ^ 64) (s : Bytes)
    (fuel : Nat) :
    decodeBody (fuel + 1) (dataChunk [] data ++ s) =
      (decodeBody fuel s).map fun r => (data ++ r.1, r.2) := by
  obtain ⟨hds, hhex, hval⟩ := printLx_spec hfit
  have hpos := List.length_pos_iff.mpr hne
  have hsplit : dataChunk [] data ++ s = printLx data.length ++ crlf ++ (data ++ (crlf ++ s)) := by
    simp only [dataChunk, List.append_nil, List.append_assoc]
  rw [hsplit]
  rw [decodeBody]
  simp only [takeWhile_hex hhex, drop_size, stripCrlf_crlf, hval]
  rw [if_neg hds]
  simp only [Option.bind_eq_bind, Option.bind_some]
  rw [if_neg (by omega), if_neg (by rw [List.length_append]; omega)]
  simp only [List.drop_left, List.take_left, stripCrlf_crlf, Option.bind_some]
  cases decodeBody fuel s <;> rfl

theorem decodeBody_end (fuel : Nat) (s : Bytes) :
    decodeBody (fuel + 1) (lastChunk ++ s) = some ([], s) := by
  have hsplit : lastChunk ++ s = [48] ++ crlf ++ (crlf ++ s) := rfl
  have hhex : ∀ c ∈ ([48] : Bytes), IsHex c := List.forall_mem_singleton.mpr (by decide)
  rw [hsplit]
  rw [decodeBody]
  simp only [takeWhile_hex hhex, drop_size, stripCrlf_crlf]
  rfl

/-! Everything is taken. -/

/-- A non-empty buffer. -/
structure Data where
  buf : Bytes
  nonempty : buf ≠ []

/-- The part of a buffer that one chunk takes. -/
def Data.chunk (d : Data) : Bytes := d.buf.take 1048576

/-- The call that writes a buffer. -/
def Data.call (d : Data) : WriteCall := .data d.buf d.nonempty [.all, .all] true true

/-- The call that ends the stream. -/
def flushCall : WriteCall := .flush [.all, .all] true true

theorem flushOutput_all (self : HttppEncoding) (mem accepted : Bytes) (hne : mem ≠ [])
    (answers : List Answer) :
    flushOutput { self with bufWriteEncoded := ⟨some mem, 0⟩ } (some backend)
        (.all :: answers, accepted) =
      ({ self with bufWriteEncoded := Buf.null }, answers, accepted ++ mem) := by
  have hpos := List.length_pos_iff.mpr hne
  unfold flushOutput
  simp only [Buf.some_rest, List.drop_zero, backend, Int.toNat_natCast, Nat.zero_add]
  rw [if_pos (by omega), if_pos True.intro]

/-- A data call on an encoder with queued metadata. -/
theorem call_step_meta (metas : List HttppMeta) (d : Data) (accepted : Bytes) :
    writeStep d.call (httppEncodingAppendMeta (httppEncodingNew .chunked) metas, accepted) =
      some ((d.chunk.length : Int), httppEncodingNew .chunked,
        accepted ++ dataChunk (cString (metas.flatMap writeExtension)) d.chunk) := by
  have hne (text : Bytes) : printLx d.chunk.length ++ text ++ crlf ++ d.chunk ++ crlf ≠ [] := by
    simp [crlf]
  have h (text : Bytes) :=
    flushOutput_all (httppEncodingNew .chunked) _ accepted (hne text) [.all]
  cases metas with
  | nil =>
    exact congrArg (fun r : HttppEncoding × List Answer × Bytes =>
      some ((d.chunk.length : Int), r.1, r.2.2)) (h [])
  | cons m metas =>
    exact congrArg (fun r : HttppEncoding × List Answer × Bytes =>
      some ((d.chunk.length : Int), r.1, r.2.2)) (h (cString ((m :: metas).flatMap writeExtension)))

theorem call_step (d : Data) (accepted : Bytes) :
    writeStep d.call (httppEncodingNew .chunked, accepted) =
      some ((d.chunk.length : Int), httppEncodingNew .chunked, accepted ++ dataChunk [] d.chunk) :=
  call_step_meta [] d accepted

theorem flush_step (accepted : Bytes) :
    writeStep flushCall (httppEncodingNew .chunked, accepted) =
      some (0, httppEncodingNew .chunked, accepted ++ endChunk []) := by
  have hne : printLx 0 ++ [] ++ crlf ++ [] ++ (crlf ++ crlf) ≠ [] := by decide
  have h := flushOutput_all (httppEncodingNew .chunked) _ accepted hne [.all]
  exact congrArg (fun r : HttppEncoding × List Answer × Bytes => some ((0 : Int), r.1, r.2.2)) h

/-- The chunks of the buffers. -/
def dataChunks (ds : List Data) : Bytes := ds.flatMap fun d => dataChunk [] d.chunk

theorem calls_run (ds : List Data) (accepted : Bytes) :
    runCalls writeStep (ds.map Data.call ++ [flushCall]) (httppEncodingNew .chunked, accepted) =
      some (ds.map (fun d => (d.chunk.length : Int)) ++ [0], httppEncodingNew .chunked,
        accepted ++ dataChunks ds ++ endChunk []) := by
  induction ds generalizing accepted with
  | nil =>
    show runCalls writeStep [flushCall] _ = some ([0], _, accepted ++ [] ++ endChunk [])
    rw [runCalls_cons (flush_step accepted), List.append_nil]
    rfl
  | cons d ds ih =>
    rw [List.map_cons, List.cons_append, runCalls_cons (call_step d accepted), ih]
    simp only [dataChunks, List.flatMap_cons, List.append_assoc, List.map_cons, List.cons_append,
      Option.map_some]

theorem decodeBody_chunks (ds : List Data) (s : Bytes) (fuel : Nat) :
    decodeBody (ds.length + fuel + 1) (dataChunks ds ++ (lastChunk ++ s)) =
      some (ds.flatMap Data.chunk, s) := by
  induction ds with
  | nil => exact decodeBody_end _ s
  | cons d ds ih =>
    have hne : d.chunk ≠ [] := by
      intro h
      rcases List.take_eq_nil_iff.mp h with h | h
      · exact absurd h (by decide)
      · exact d.nonempty h
    have hfit : d.chunk.length < 2 ^ 64 := by
      unfold Data.chunk
      rw [List.length_take]
      omega
    rw [dataChunks, List.flatMap_cons, List.append_assoc, List.length_cons,
      show ds.length + 1 + fuel + 1 = ds.length + fuel + 1 + 1 by omega, decodeBody_chunk hne hfit]
    rw [dataChunks] at ih
    rw [ih]
    rfl

/-- The output of any sequence of writes and one flush is never one Chunked-Body: the
reference decoder gets the data and leaves a CRLF. -/
theorem write_body (ds : List Data) :
    ∃ rets self accepted, writeNew (ds.map Data.call ++ [flushCall]) = some (rets, self, accepted) ∧
      accepted = dataChunks ds ++ lastChunk ++ crlf ∧ accepted ≠ dataChunks ds ++ lastChunk ∧
      ∀ fuel, decodeBody (ds.length + fuel + 1) accepted = some (ds.flatMap Data.chunk, crlf) := by
  have hend : dataChunks ds ++ endChunk [] = dataChunks ds ++ lastChunk ++ crlf := by
    rw [List.append_assoc]
    rfl
  refine ⟨_, _, _, calls_run ds [], hend, ?_, fun fuel => ?_⟩
  · intro h
    have hlen := congrArg List.length (hend.symm.trans h)
    simp only [crlf, List.length_append, List.length_cons, List.length_nil] at hlen
    omega
  · show decodeBody _ (dataChunks ds ++ endChunk []) = _
    rw [hend, List.append_assoc]
    exact decodeBody_chunks ds crlf fuel

/-- One byte and the end of the stream. -/
theorem write_body_fails :
    (writeNew [Data.call ⟨[97], List.cons_ne_nil _ _⟩, flushCall]).map (fun r => r.2.2) ≠
      some (dataChunks [⟨[97], List.cons_ne_nil _ _⟩] ++ lastChunk) := by
  decide

end IcecastCommon.Encoding
