import IcecastCommon.Encoding.Lost

/- Reading back what the encoder wrote for one data call with metadata: the run lemmas for
   lists that survive and for lists that do not, and the exact condition. -/
namespace IcecastCommon.Encoding
open Library

/-- A call that can make progress: there is memory, the buffer has a possible size and the
callback gives at least a byte if it has one. -/
def ReadCall.Willing (c : ReadCall) : Prop :=
  c.memRaw = true ∧ c.len < 2 ^ 63 ∧ ∃ q, c.feed = .give q ∧ 0 < q

/-! One chunk is read to its end. -/

/-- With one chunk and nothing left to hand over, it was decoded. -/
theorem Phase.over {bte : Int} {rbh : Nat} {rest todo : Bytes} {metas : List HttppMeta}
    (h : Phase .open 1 bte rbh rest [] todo metas) : todo = [] ∧ metas = [] := by
  obtain ⟨R, hR⟩ : ∃ R : Bytes, R = [] := ⟨[], rfl⟩
  rw [← hR] at h
  cases h with
  | header stream fresh =>
    rename_i cs
    rw [hR, List.append_nil] at stream
    cases cs with
    | nil => exact ⟨rfl, rfl⟩
    | cons c cs =>
      rcases fresh with h | ⟨_, h⟩
      · rw [List.length_cons] at h
        omega
      · rw [stream, encode_cons] at h
        simp only [lineLen, crlf, List.length_append, List.length_cons, List.length_nil] at h
        omega
  | body stream nonempty fresh =>
    rw [hR, List.append_assoc] at stream
    exact absurd (List.append_eq_nil_iff.mp stream.symm).1 nonempty
  | tail stream short fresh =>
    rw [hR, List.append_nil] at stream
    rw [stream] at short
    simp only [crlf, List.length_append, List.length_cons, List.length_nil] at short
    omega
  | last | done => exact ⟨rfl, rfl⟩

theorem runCalls_readStep_cases {c : ReadCall} {self : HttppEncoding} {R : Bytes} {reply : Reply}
    {self' : HttppEncoding} {R' : Bytes} {o : Reply} {st : HttppEncoding × Bytes}
    (h : httppEncodingRead c.memRaw true self c.len c.feed.callback R = some (reply, self', R'))
    (hstep : readStep c (self, R) = some (o, st)) : o = reply ∧ st = (self', R') := by
  have h := hstep.symm.trans h
  simp only [Option.some.injEq, Prod.mk.injEq] at h
  exact h

/-- Enough willing calls return the body of a chunk and leave its metadata. -/
theorem chunk_run (c : Chunk) (calls : List ReadCall) (hcalls : ∀ d ∈ calls, d.Willing)
    (hlen : 2 * (encode [c] .open).length ≤ calls.length) :
    ∃ replies self R, readNew calls (encode [c] .open) = some (replies, self, R) ∧
      outputs replies = c.body ∧ self.metaRead = c.metas := by
  have hbodies : bodies [c] = c.body := List.append_nil _
  have hmetas : metasOf [c] = c.metas := List.append_nil _
  have H := reading_new [c] .open
  rw [hbodies, hmetas] at H
  have hbody : c.body.length ≤ (encode [c] .open).length := by
    rw [encode_cons]
    simp only [List.length_append]
    omega
  have T : Tracks readStep output (Reading .open 1 c.body c.metas)
      (fun c reply => reply.bytes.length ≤ c.len) ReadCall.Willing :=
    fun out d st _ hinv => readStep_tracks .open 1 c.body c.metas out d st trivial hinv
  obtain ⟨replies, ⟨self, R⟩, hrun, hread, hzero⟩ := T.drains
    (fun out st => st.2.length + (c.body.length - out.length))
    (by
      rintro out d ⟨s, R⟩ o st ⟨hmem, hfit, hfeed⟩ hinv hstep
      obtain ⟨reply, s', R', heq, hread, _, hR, hprog⟩ :=
        httppEncodingRead_reading hinv d.memRaw d.pos d.feed
      obtain ⟨rfl, rfl⟩ := runCalls_readStep_cases heq hstep
      obtain ⟨_, _, _, hD, _⟩ := hread.phase
      have hout := congrArg List.length hD
      simp only [output, List.length_append] at hout ⊢
      rcases hprog hmem hfit hfeed with h | h | ⟨hR0, hdec⟩
      · have := List.length_pos_iff.mpr h
        omega
      · omega
      · obtain ⟨_, _, hphase0, hD0, _⟩ := hinv.phase
        simp only [hR0, hdec] at hphase0 hD0
        rw [hphase0.over.1] at hD0
        have hlenD := congrArg List.length hD0
        have hlenR := congrArg List.length hR0
        simp only [List.length_append, List.length_nil] at hlenD hlenR
        omega)
    calls hcalls H (by simp only [List.length_nil]; omega)
  obtain ⟨replies', st', hrun', _, hall⟩ := T.run calls hcalls H
  rw [hrun] at hrun'
  simp only [Option.some.injEq, Prod.mk.injEq] at hrun'
  obtain ⟨rfl, _⟩ := hrun'
  rw [history_output [] hall.length_eq, List.nil_append] at hread hzero
  obtain ⟨todo, metas, hphase, hD, hM⟩ := hread.phase
  simp only at hphase hD hM hzero
  have hR : R = [] := List.eq_nil_of_length_eq_zero (by omega)
  rw [hR] at hphase
  obtain ⟨htodo, hmetasLeft⟩ := hphase.over
  have hlenD := congrArg List.length hD
  simp only [List.length_append] at hlenD
  have hdec : self.bufReadDecoded.rest = [] := List.eq_nil_of_length_eq_zero (by omega)
  refine ⟨replies, self, R, hrun, ?_, ?_⟩
  · rw [hD, hdec, htodo, List.append_nil, List.append_nil]
  · rw [hM, hmetasLeft, List.append_nil]

/-! The exact condition. -/

/-- The round trip: the entries are attached and one data call is made; reading back what
was written returns the data, and the metadata is the list that was attached. -/
def RoundTrip (es : List Entry) (d : Data) (calls : List ReadCall) : Prop :=
  ∃ rets enc written replies dec R,
    writeNew (es.map appendCall ++ [d.call]) = some (rets, enc, written) ∧
    readNew calls written = some (replies, dec, R) ∧
    outputs replies = d.chunk ∧
    (httppEncodingGetMeta dec).1.map HttppMeta.pair = es.map Entry.pair

theorem roundTrip_of_survives {es : List Entry} (h : Survives es) (d : Data)
    (calls : List ReadCall) (hcalls : ∀ c ∈ calls, c.Willing)
    (hlen : 2 * (metaChunk es d).length ≤ calls.length) : RoundTrip es d calls := by
  obtain ⟨rets, enc, hwritten⟩ := metaChunk_written es d
  have hfit := d.chunk_length
  obtain ⟨metas, ext, hline, hpairs⟩ := headerLine_meta h (n := d.chunk.length) (by omega)
  have hencode : encode [⟨_, d.chunk, metas, ext, hline, d.chunk_nonempty, by omega⟩] .open =
      metaChunk es d := by
    simp only [encode, Ending.bytes, List.flatMap_cons, List.flatMap_nil, List.append_nil]
    rfl
  obtain ⟨replies, dec, R, hrun, hout, hmeta⟩ :=
    chunk_run ⟨_, d.chunk, metas, ext, hline, d.chunk_nonempty, by omega⟩ calls hcalls
      (by rw [hencode]; exact hlen)
  rw [hencode] at hrun
  refine ⟨rets, enc, _, replies, dec, R, hwritten, hrun, hout, ?_⟩
  show dec.metaRead.map HttppMeta.pair = _
  rw [hmeta, hpairs]

theorem survives_of_roundTrip {es : List Entry} {d : Data} {calls : List ReadCall}
    (h : RoundTrip es d calls) : Survives es := by
  obtain ⟨rets, enc, written, replies, dec, R, hwrite, hread, _, hmeta⟩ := h
  obtain ⟨rets', enc', hwritten⟩ := metaChunk_written es d
  rw [hwrite] at hwritten
  simp only [Option.some.injEq, Prod.mk.injEq] at hwritten
  obtain ⟨_, _, rfl⟩ := hwritten
  by_contra hno
  exact run_lost hno hread hmeta

/-- Metadata comes back exactly if no value has a backslash and only the last value is
empty, whatever pieces the chunk is read in. -/
theorem meta_round_trip (es : List Entry) (d : Data) (calls : List ReadCall)
    (hcalls : ∀ c ∈ calls, c.Willing) (hlen : 2 * (metaChunk es d).length ≤ calls.length) :
    RoundTrip es d calls ↔
      (∀ e ∈ es, backslash ∉ e.value) ∧ ∀ e ∈ es.dropLast, e.value ≠ [] :=
  ⟨survives_of_roundTrip, fun h => roundTrip_of_survives h d calls hcalls hlen⟩

/-- An entry with the key `k` and a value of one byte. -/
def oneByteEntry (x : UInt8) (h : x ≠ nul) : Entry where
  key := [107]
  value := [x]
  keyNonempty := List.cons_ne_nil _ _
  keyToken := List.forall_mem_singleton.mpr (by decide)
  valueNul := fun hm => h (List.mem_singleton.mp hm).symm

theorem oneByte_ne : ([97] : Bytes) ≠ [] := List.cons_ne_nil _ _

/-- A buffer of one byte. -/
def oneByteData : Data := ⟨[97], oneByte_ne⟩

/-- Two values of a byte, and an empty one behind them. -/
def plainEntries : List Entry :=
  [oneByteEntry 118 (by decide), oneByteEntry 119 (by decide),
    { oneByteEntry 120 (by decide) with value := [], valueNul := List.not_mem_nil }]

theorem meta_round_trip_plain : RoundTrip plainEntries oneByteData (List.replicate 40 byteCall) := by
  refine (meta_round_trip plainEntries oneByteData _ ?_ (by decide)).mpr ⟨by decide, by decide⟩
  intro c hc
  rw [List.eq_of_mem_replicate hc]
  exact ⟨rfl, by decide, 1, rfl, Nat.one_pos⟩

/-- A value that is a backslash is lost. -/
theorem meta_round_trip_fails :
    ¬RoundTrip [oneByteEntry backslash (by decide)] oneByteData (List.replicate 24 byteCall) := by
  intro h
  exact (survives_of_roundTrip h).1 _ List.mem_cons_self (by decide)

end IcecastCommon.Encoding
