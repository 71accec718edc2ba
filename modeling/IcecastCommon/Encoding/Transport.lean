import IcecastCommon.Encoding.Carried
import IcecastCommon.Encoding.RoundTrip

/- An encoder and a decoder at the two ends of a link. The calls on them come in any order: the
   encoder's backend takes what it likes of what it is offered, and the callback of the decoder
   hands over what it likes of what has arrived. The decoder never returns anything but the data
   that was accepted, in its order, each entry of the metadata comes once, and the end is
   reported when all of it was returned. -/
namespace IcecastCommon.Encoding
open Library

/-- An encoder, what its backend took and nobody has read, and a decoder. -/
structure Transport where
  enc : HttppEncoding
  link : Bytes
  dec : HttppEncoding

def transportNew : Transport := ⟨httppEncodingNew .chunked, [], httppEncodingNew .chunked⟩

/-- A call on one of the two ends. -/
inductive TransportCall where
  | write (c : WriteCall)
  | read (c : ReadCall)
  | getMeta

/-- What it gives its caller. -/
inductive TransportReply where
  | wrote (ret : Int)
  | read (reply : Reply)
  | metas (entries : List HttppMeta)

def transportStep (c : TransportCall) (s : Transport) : Option (TransportReply × Transport) :=
  match c with
  | .write c => (writeStep c (s.enc, s.link)).map fun r => (.wrote r.1, { s with enc := r.2.1, link := r.2.2 })
  | .read c => (readStep c (s.dec, s.link)).map fun r => (.read r.1, { s with dec := r.2.1, link := r.2.2 })
  | .getMeta => some (.metas (httppEncodingGetMeta s.dec).1, { s with dec := (httppEncodingGetMeta s.dec).2 })

/-! What was sent and what was received. -/

/-- What the calls on the encoder put into the stream, and whether the stream has its end. -/
structure Ledger where
  data : Bytes
  metas : List HttppMeta
  ended : Bool

/-- The metadata that goes into a chunk. -/
def queued (memExt : Bool) (self : HttppEncoding) : List HttppMeta := if memExt = true then self.metaWrite else []

/-- A call that wrote a chunk enters it, unless the stream has its end already. -/
def Ledger.enter (l : Ledger) (c : WriteCall) (st : HttppEncoding × Bytes) (ret : Int) : Ledger :=
  if l.ended = true ∨ contribution c st ret = [] then l
  else
    match c with
    | .data buf _ _ memExt _ =>
      { l with data := l.data ++ buf.take ret.toNat, metas := l.metas ++ queued memExt st.1 }
    | .flush _ memExt _ => { l with metas := l.metas ++ queued memExt st.1, ended := true }
    | .appendMeta _ => l

def Ledger.after (l : Ledger) (c : TransportCall) (s : Transport) (reply : TransportReply) : Ledger :=
  match c, reply with
  | .write c, .wrote ret => l.enter c (s.enc, s.link) ret
  | _, _ => l

/-- The ledger along a sequence of calls. -/
def ledger : List TransportCall → Transport → Ledger → Ledger
  | [], _, l => l
  | c :: cs, s, l =>
    match transportStep c s with
    | none => l
    | some (reply, s') => ledger cs s' (l.after c s reply)

/-- What the calls from the start on put into the stream. -/
def sent (cs : List TransportCall) : Ledger := ledger cs transportNew ⟨[], [], false⟩

def TransportReply.data : TransportReply → Bytes
  | .read reply => reply.bytes
  | _ => []

def TransportReply.entries : TransportReply → List HttppMeta
  | .metas entries => entries
  | _ => []

/-- The data that the decoder returned. -/
def delivered (replies : List TransportReply) : Bytes := replies.flatMap TransportReply.data

/-- The metadata that the decoder returned. -/
def told (replies : List TransportReply) : List HttppMeta := replies.flatMap TransportReply.entries

/-- Metadata that the decoder understands: no value is empty or has a backslash. -/
def Understandable (metas : List HttppMeta) : Prop :=
  ∃ es : List Entry, metas = es.map Entry.toMeta ∧ ∀ e ∈ es, e.Solid

/-- A call attaches such metadata only. -/
def Attaches : TransportCall → Prop
  | .write (.appendMeta new) => Understandable new
  | _ => True

/-! The invariant. -/

/-- The decoder reads from what has arrived and what is pending behind it. -/
def Transport.stream (s : Transport) : Bytes := s.link ++ s.enc.bufWriteEncoded.rest

structure Transports (l : Ledger) (seen : List HttppMeta) (out : Bytes) (s : Transport) : Prop where
  chunked : s.enc.process = .chunked
  ok : s.enc.bufWriteEncoded.Ok
  queue : Understandable s.enc.metaWrite
  carried : ∃ M, l.metas.map HttppMeta.pair = (seen ++ M).map HttppMeta.pair ∧
    Carried l.ended l.data M out (s.dec, s.stream)

theorem transports_new : Transports ⟨[], [], false⟩ [] [] transportNew :=
  ⟨rfl, Buf.null_ok, ⟨[], rfl, fun _ h => absurd h List.not_mem_nil⟩, [], rfl, carried_new⟩

theorem Understandable.append {metas new : List HttppMeta} (h : Understandable metas) (h' : Understandable new) :
    Understandable (metas ++ new) := by
  obtain ⟨es, rfl, hes⟩ := h
  obtain ⟨es', rfl, hes'⟩ := h'
  refine ⟨es ++ es', by rw [List.map_append], fun e he => ?_⟩
  exact (List.mem_append.mp he).elim (hes e) (hes' e)

theorem Understandable.queued {self : HttppEncoding} (h : Understandable self.metaWrite) (memExt : Bool) :
    ∃ es : List Entry, Encoding.queued memExt self = es.map Entry.toMeta ∧ Survives es ∧
      queuedText memExt self = texts es := by
  obtain ⟨es, hmeta, hes⟩ := h
  cases memExt with
  | false =>
    refine ⟨[], rfl, ⟨fun _ h => absurd h List.not_mem_nil, fun _ h => absurd h List.not_mem_nil⟩, ?_⟩
    rw [queuedText]
    rfl
  | true =>
    refine ⟨es, hmeta, ⟨fun e he => (hes e he).1, fun e he => (hes e (List.dropLast_subset es he)).2⟩, ?_⟩
    rw [queuedText, if_pos rfl, hmeta, List.flatMap_map]
    refine cString_of_plain fun hmem => ?_
    obtain ⟨e, _, he⟩ := List.mem_flatMap.mp hmem
    exact nul_notMem_text e he

theorem pairs_toMeta (es : List Entry) : (es.map Entry.toMeta).map HttppMeta.pair = es.map Entry.pair := by
  rw [List.map_map]
  refine List.map_congr_left fun e _ => ?_
  simp only [Function.comp_apply, e.toMeta_eq, HttppMeta.pair, Entry.pair, Option.getD_some]

/-! A call on the encoder. -/

section
variable {l : Ledger} {seen : List HttppMeta} {out : Bytes} {s : Transport}

/-- A data chunk is a chunk for the decoder. -/
theorem Understandable.chunk {self : HttppEncoding} (h : Understandable self.metaWrite) (memExt : Bool) {data : Bytes}
    (hne : data ≠ []) (hfit : data.length < 2 ^ 63) :
    ∃ c : Chunk, c.body = data ∧ c.metas.map HttppMeta.pair = (Encoding.queued memExt self).map HttppMeta.pair ∧
      encode [c] .open = dataChunk (queuedText memExt self) data := by
  obtain ⟨es, hqueued, hsurvives, htext⟩ := h.queued memExt
  obtain ⟨metas, ext, hline, hpairs⟩ := headerLine_meta hsurvives (n := data.length) (by omega)
  refine ⟨⟨_, data, metas, ext, hline, hne, hfit⟩, rfl, ?_, ?_⟩
  · rw [hqueued, pairs_toMeta]
    exact hpairs
  · rw [htext]
    simp only [encode, Ending.bytes, dataChunk, List.flatMap_cons, List.flatMap_nil, List.append_nil]

/-- The chunk of a flush is the end for the decoder. -/
theorem Understandable.final {self : HttppEncoding} (h : Understandable self.metaWrite) (memExt : Bool) :
    ∃ f : Final, f.metas.map HttppMeta.pair = (Encoding.queued memExt self).map HttppMeta.pair ∧
      f.bytes [] = endChunk (queuedText memExt self) := by
  obtain ⟨es, hqueued, hsurvives, htext⟩ := h.queued memExt
  obtain ⟨metas, ext, hline, hpairs⟩ := headerLine_meta hsurvives (n := 0) (by decide)
  refine ⟨⟨_, metas, ext, hline⟩, ?_, ?_⟩
  · rw [hqueued, pairs_toMeta]
    exact hpairs
  · rw [htext, Final.bytes, endChunk, List.append_nil]

/-- A call leaves the queue as it is, empties it or appends to it. -/
theorem writeStep_queue {W : Bytes} {st st' : HttppEncoding × Bytes} {c : WriteCall} {ret : Int} (H : Written W st)
    (hqueue : Understandable st.1.metaWrite) (hattach : Attaches (.write c))
    (h : writeStep c st = some (ret, st')) : Understandable st'.1.metaWrite := by
  obtain ⟨self, accepted⟩ := st
  have hempty : Understandable [] := ⟨[], rfl, fun _ h => absurd h List.not_mem_nil⟩
  have write {answers : List Answer} {memExt memBuf : Bool} {buf : Option Bytes} {self' : HttppEncoding}
      {answers' : List Answer} {accepted' : Bytes} (h : httppEncodingWrite memExt memBuf self buf (some backend)
        (answers, accepted) = (ret, self', answers', accepted')) : Understandable self'.metaWrite := by
    obtain ⟨htaken, hkept⟩ := httppEncodingWrite_meta H h
    by_cases hdrains : Drains answers self
    · rw [htaken hdrains]
      split_ifs
      · exact hempty
      · exact hqueue
    · rw [hkept hdrains]
      exact hqueue
  cases c with
  | data buf nonempty answers memExt memBuf =>
    cases hwrite : httppEncodingWrite memExt memBuf self (some buf) (some backend) (answers, accepted) with
    | mk ret₁ r =>
      obtain ⟨self', answers', accepted'⟩ := r
      simp only [writeStep, hwrite, Option.some.injEq, Prod.mk.injEq] at h
      obtain ⟨rfl, rfl⟩ := h
      exact write hwrite
  | flush answers memExt memBuf =>
    cases hwrite : httppEncodingWrite memExt memBuf self none (some backend) (answers, accepted) with
    | mk ret₁ r =>
      obtain ⟨self', answers', accepted'⟩ := r
      simp only [writeStep, hwrite, Option.some.injEq, Prod.mk.injEq] at h
      obtain ⟨rfl, rfl⟩ := h
      exact write hwrite
  | appendMeta new =>
    cases h
    exact hqueue.append hattach

theorem write_transports (T : Transports l seen out s) {c : WriteCall} (hattach : Attaches (.write c)) :
    ∃ ret st', writeStep c (s.enc, s.link) = some (ret, st') ∧
      Transports (l.enter c (s.enc, s.link) ret) seen out { s with enc := st'.1, link := st'.2 } := by
  have H : Written s.stream (s.enc, s.link) := ⟨T.chunked, T.ok, rfl⟩
  obtain ⟨ret, st', hstep, H', hret⟩ := writeStep_written H c
  refine ⟨ret, st', hstep, H'.chunked, H'.ok, writeStep_queue H T.queue hattach hstep, ?_⟩
  have hstream : Transport.stream { s with enc := st'.1, link := st'.2 } =
      s.stream ++ contribution c (s.enc, s.link) ret := H'.total
  rw [hstream]
  obtain ⟨M, hM, C⟩ := T.carried
  by_cases hsame : l.ended = true ∨ contribution c (s.enc, s.link) ret = []
  · rw [show l.enter c (s.enc, s.link) ret = l from if_pos hsame]
    refine ⟨M, hM, ?_⟩
    rcases hsame with hended | hnone
    · rw [hended] at C ⊢
      exact C.ignore _
    · rw [hnone, List.append_nil]
      exact C
  · obtain ⟨hended, hsome⟩ := not_or.mp hsame
    rw [Bool.not_eq_true] at hended
    rw [hended] at C
    cases c with
    | appendMeta new => exact absurd rfl hsome
    | data buf nonempty answers memExt memBuf =>
      rw [show l.enter (.data buf nonempty answers memExt memBuf) (s.enc, s.link) ret =
        { l with data := l.data ++ buf.take ret.toNat, metas := l.metas ++ queued memExt s.enc } from if_neg hsame]
      by_cases hpos : 0 < ret
      · have hne : buf.take ret.toNat ≠ [] := fun hnil =>
          (List.take_eq_nil_iff.mp hnil).elim (fun h => by omega) nonempty
        have hfit : (buf.take ret.toNat).length < 2 ^ 63 := by
          have hmax : ret ≤ 0 ∨ ret = min 1048576 buf.length := hret
          rw [List.length_take]
          omega
        obtain ⟨c, hbody, hmetas, hbytes⟩ := T.queue.chunk memExt hne hfit
        have C' := C.write c
        rw [hbytes, hbody] at C'
        refine ⟨M ++ c.metas, ?_, ?_⟩
        · rw [← List.append_assoc, List.map_append, List.map_append, hM, hmetas]
        · rw [contribution, if_pos hpos, hended]
          exact C'
      · exact absurd (if_neg hpos) hsome
    | flush answers memExt memBuf =>
      rw [show l.enter (.flush answers memExt memBuf) (s.enc, s.link) ret =
        { l with metas := l.metas ++ queued memExt s.enc, ended := true } from if_neg hsame]
      obtain ⟨f, hmetas, hbytes⟩ := T.queue.final memExt
      have C' := C.finish f
      rw [hbytes] at C'
      refine ⟨M ++ f.metas, ?_, ?_⟩
      · rw [← List.append_assoc, List.map_append, List.map_append, hM, hmetas]
      · by_cases hdrained :
            httppEncodingPending (flushOutput s.enc (some backend) (answers, s.link)).1 = 0 ∧ memBuf = true
        · rw [contribution]
          simp only [if_pos hdrained]
          exact C'
        · exact absurd (if_neg hdrained) hsome

/-! A call on the decoder. -/

theorem read_transports (T : Transports l seen out s) (c : ReadCall) :
    ∃ reply st', readStep c (s.dec, s.link) = some (reply, st') ∧
      Transports l seen (out ++ reply.bytes) { s with dec := st'.1, link := st'.2 } ∧ st'.2.length ≤ s.link.length ∧
      (c.len < 2 ^ 63 → (s.dec.bufReadDecoded.rest ≠ [] → reply.bytes ≠ []) ∧
        (c.memRaw = true → (∃ q, c.feed = .give q ∧ 0 < q) → s.link ≠ [] → s.dec.bytesTillEof ≠ 0 →
          reply.bytes ≠ [] ∨ st'.2.length < s.link.length)) := by
  obtain ⟨M, hM, C⟩ := T.carried
  obtain ⟨_, _, W', heq, C', hle, hprog⟩ := httppEncodingRead_carried C c.memRaw c.pos (c.feed.limit s.link.length)
  have hcorr := httppEncodingRead_corresponds (c.feed.limit_corresponds s.link s.enc.bufWriteEncoded.rest) c.memRaw true
    s.dec c.len
  rw [Transport.stream] at heq
  obtain ⟨r, hr, hrW⟩ := Option.map_eq_some_iff.mp (hcorr.symm.trans heq)
  obtain ⟨reply, dec', link'⟩ := r
  cases hrW
  dsimp only at C' hle hprog
  rw [Transport.stream, List.length_append, List.length_append] at hle
  refine ⟨reply, (dec', link'), hr, ⟨T.chunked, T.ok, T.queue, M, hM, C'⟩, by dsimp only; omega, fun hfit => ?_⟩
  refine ⟨(hprog hfit).1, fun hmem hfeed hlink hbte => ?_⟩
  have hpos := List.length_pos_iff.mpr hlink
  obtain ⟨q, hq, hqpos⟩ := hfeed
  have hstream : s.stream ≠ [] := fun hnil => hlink (List.append_eq_nil_iff.mp hnil).1
  refine ((hprog hfit).2 hmem ⟨min q s.link.length, by rw [hq]; rfl, by omega⟩ hstream hbte).imp id fun h => ?_
  rw [Transport.stream, List.length_append, List.length_append] at h
  dsimp only
  omega

theorem getMeta_transports (T : Transports l seen out s) :
    Transports l (seen ++ (httppEncodingGetMeta s.dec).1) out { s with dec := (httppEncodingGetMeta s.dec).2 } := by
  obtain ⟨M, hM, C⟩ := T.carried
  obtain ⟨M', rfl, C'⟩ := C.getMeta
  refine ⟨T.chunked, T.ok, T.queue, M', ?_, C'⟩
  rw [hM, List.append_assoc]
  rfl

/-! Sequences of calls. -/

/-- One call goes through and keeps the invariant. -/
theorem transportStep_transports (T : Transports l seen out s) {c : TransportCall} (hattach : Attaches c) :
    ∃ reply s', transportStep c s = some (reply, s') ∧
      Transports (l.after c s reply) (seen ++ reply.entries) (out ++ reply.data) s' := by
  cases c with
  | write c =>
    obtain ⟨ret, st', hstep, T'⟩ := write_transports T hattach
    refine ⟨.wrote ret, { s with enc := st'.1, link := st'.2 }, by rw [transportStep, hstep]; rfl, ?_⟩
    show Transports _ (seen ++ []) (out ++ []) _
    rw [List.append_nil, List.append_nil]
    exact T'
  | read c =>
    obtain ⟨reply, st', hstep, T', _⟩ := read_transports T c
    refine ⟨.read reply, { s with dec := st'.1, link := st'.2 }, by rw [transportStep, hstep]; rfl, ?_⟩
    show Transports l (seen ++ []) (out ++ reply.bytes) _
    rw [List.append_nil]
    exact T'
  | getMeta =>
    refine ⟨_, _, rfl, ?_⟩
    show Transports l _ (out ++ []) _
    rw [List.append_nil]
    exact getMeta_transports T

theorem run_transports (T : Transports l seen out s) {cs : List TransportCall} (hcs : ∀ c ∈ cs, Attaches c) :
    ∃ replies s', runCalls transportStep cs s = some (replies, s') ∧
      Transports (ledger cs s l) (seen ++ told replies) (out ++ delivered replies) s' := by
  induction cs generalizing l seen out s with
  | nil =>
    refine ⟨[], s, rfl, ?_⟩
    show Transports l (seen ++ []) (out ++ []) s
    rw [List.append_nil, List.append_nil]
    exact T
  | cons c cs ih =>
    obtain ⟨reply, s₁, hstep, T₁⟩ := transportStep_transports T (hcs c List.mem_cons_self)
    obtain ⟨replies, s', hrun, T'⟩ := ih T₁ fun d hd => hcs d (List.mem_cons_of_mem _ hd)
    refine ⟨reply :: replies, s', by rw [runCalls_cons hstep, hrun]; rfl, ?_⟩
    rw [ledger, hstep, told, delivered, List.flatMap_cons, List.flatMap_cons, ← List.append_assoc, ← List.append_assoc]
    exact T'

end

/-! What the receiver sees. -/

section
variable {ended : Bool} {D out W : Bytes} {M : List HttppMeta} {dec : HttppEncoding}

theorem eof_iff_done : httppEncodingEof dec none = 1 ↔ dec.bufReadDecoded.rest = [] ∧ dec.bytesTillEof = 0 := by
  rw [httppEncodingEof_iff, ← Buf.rest_length, List.length_eq_zero_iff]

/-- The end is reported behind the last byte and the last entry. -/
theorem Carried.eof (C : Carried ended D M out (dec, W)) (hbte : dec.bytesTillEof = 0) :
    ended = true ∧ D = out ++ dec.bufReadDecoded.rest ∧ M = dec.metaRead := by
  obtain ⟨_, _, _, _, todo, metas, hstage, hD, hM⟩ := C
  dsimp only at hstage hD hM
  rw [hbte] at hstage
  generalize dec.readBytesTillHeader = rbh, dec.bufReadRaw.rest = rest at hstage
  cases hstage with
  | eof => exact ⟨rfl, by rw [hD, List.append_nil], by rw [hM, List.append_nil]⟩

theorem Final.bytes_ne_nil (f : Final) (y : Bytes) : f.bytes y ≠ [] := by
  simp [Final.bytes, crlf]

/-- When all was handed over, what is missing are chunks in the raw buffer. -/
theorem Carried.over (C : Carried ended D M out (dec, W)) (hW : W = []) :
    ∃ chunks, D = out ++ dec.bufReadDecoded.rest ++ bodies chunks ∧ encode chunks .open <+: dec.bufReadRaw.rest ∧
      (dec.bufReadRaw.rest = [] → M = dec.metaRead ∧ (dec.bytesTillEof = 0 ↔ ended = true)) := by
  obtain ⟨_, _, _, _, todo, metas, hstage, hD, hM⟩ := C
  dsimp only at hstage hD hM
  generalize dec.bytesTillEof = bte, dec.readBytesTillHeader = rbh, dec.bufReadRaw.rest = rest at hstage ⊢
  cases hstage with
  | chunks phase =>
    cases phase with
    | header stream fresh =>
      rename_i cs
      rw [hW, List.append_nil] at stream
      refine ⟨cs, hD, by rw [stream], fun hnil => ?_⟩
      rw [hnil] at stream
      cases cs with
      | nil => exact ⟨by rw [hM]; exact List.append_nil _, by simp⟩
      | cons c cs =>
        rw [encode_cons] at stream
        exact absurd stream.symm (by simp [crlf])
    | body stream nonempty fresh =>
      rw [hW, List.append_assoc] at stream
      exact absurd (List.append_eq_nil_iff.mp stream.symm).1 nonempty
    | tail stream short fresh =>
      rw [hW, List.append_nil] at stream
      rw [stream, List.length_append, show crlf.length = 2 from rfl] at short
      omega
    | done eof => omega
  | ending phase => exact absurd (List.append_eq_nil_iff.mp hW).2 (Final.bytes_ne_nil _ _)
  | past stream nonempty =>
    rename_i f cs y z
    refine ⟨cs, hD, List.prefix_append _ _, fun hnil => ?_⟩
    exact absurd (List.append_eq_nil_iff.mp hnil).2 nonempty
  | closing stream short =>
    rw [hW, List.append_nil] at stream
    rw [stream, List.length_append, List.length_append, show crlf.length = 2 from rfl] at short
    omega
  | closed => exact absurd hW (by simp [crlf])
  | eof => exact ⟨[], hD, List.nil_prefix, fun _ => ⟨by rw [hM, List.append_nil], by simp⟩⟩

end

theorem transport_spec {cs : List TransportCall} (h : ∀ c ∈ cs, Attaches c) :
    ∃ replies s, runCalls transportStep cs transportNew = some (replies, s) ∧
      Transports (sent cs) (told replies) (delivered replies) s := by
  obtain ⟨replies, s, hrun, T⟩ := run_transports transports_new h
  exact ⟨replies, s, hrun, T⟩

/-- However the calls on the two ends are mixed, the decoder returns the data and the metadata that were sent, each
once and in their order. It reports the end only when that is all and nothing is to come. -/
theorem transport_sound {cs : List TransportCall} (h : ∀ c ∈ cs, Attaches c) :
    ∃ replies s, runCalls transportStep cs transportNew = some (replies, s) ∧
      delivered replies <+: (sent cs).data ∧
      (told replies).map HttppMeta.pair <+: (sent cs).metas.map HttppMeta.pair ∧
      (httppEncodingEof s.dec none = 1 → (sent cs).ended = true ∧ delivered replies = (sent cs).data ∧
        (told replies ++ s.dec.metaRead).map HttppMeta.pair = (sent cs).metas.map HttppMeta.pair) := by
  obtain ⟨replies, s, hrun, T⟩ := transport_spec h
  obtain ⟨M, hM, C⟩ := T.carried
  refine ⟨replies, s, hrun, ?_, ?_, fun heof => ?_⟩
  · obtain ⟨todo, metas, _, hD, _⟩ := C.stage
    rw [hD, List.append_assoc]
    exact List.prefix_append _ _
  · rw [hM, List.map_append]
    exact List.prefix_append _ _
  · obtain ⟨hdecoded, hbte⟩ := eof_iff_done.mp heof
    obtain ⟨hended, hD, hmetas⟩ := C.eof hbte
    exact ⟨hended, by rw [hD, hdecoded, List.append_nil], by rw [hM, hmetas]⟩

theorem letterV_ne_nul : (118 : UInt8) ≠ nul := by decide

theorem letterA_ne_nil : ([97] : Bytes) ≠ [] := List.cons_ne_nil 97 []

theorem letterB_ne_nil : ([98] : Bytes) ≠ [] := List.cons_ne_nil 98 []

/-- An entry and a byte are sent while the backend is slow and the reader tries to read; then the stream is ended. -/
def mixedRun : List TransportCall :=
  [.write (.appendMeta [(oneByteEntry 118 letterV_ne_nul).toMeta]),
    .write (.data [97] letterA_ne_nil [.all, .accept 3] true true), .read wholeCall,
    .write (.flush [.all, .accept 6] true true), .read wholeCall, .read wholeCall,
    .write (.data [98] letterB_ne_nil [.all] true true), .read wholeCall, .read wholeCall, .getMeta]

theorem mixedRun_attaches : ∀ c ∈ mixedRun, Attaches c := by
  simp only [mixedRun, List.forall_mem_cons]
  refine ⟨⟨[oneByteEntry 118 letterV_ne_nul], rfl, ?_⟩, trivial, trivial, trivial, trivial, trivial, trivial, trivial,
    trivial, trivial, fun _ h => absurd h List.not_mem_nil⟩
  exact List.forall_mem_singleton.mpr ⟨by decide, List.cons_ne_nil _ _⟩

theorem transport_sound_mixedRun :
    ∃ replies s, runCalls transportStep mixedRun transportNew = some (replies, s) ∧ httppEncodingEof s.dec none = 1 ∧
      delivered replies = [97] ∧ (told replies ++ s.dec.metaRead).map HttppMeta.pair = [(some [107], [118])] := by
  obtain ⟨replies, s, hrun, _, _, hend⟩ := transport_sound mixedRun_attaches
  have hone : (runCalls transportStep mixedRun transportNew).map (fun r => httppEncodingEof r.2.dec none) = some 1 := by
    decide
  rw [hrun] at hone
  have heof := Option.some.inj hone
  obtain ⟨_, hdata, hmetas⟩ := hend heof
  exact ⟨replies, s, hrun, heof, hdata.trans (by decide), hmetas.trans (by decide)⟩

/-- The reader has all it can get for now. -/
def Settled (s : Transport) : Prop := s.dec.bufReadDecoded.rest = [] ∧ (s.link = [] ∨ s.dec.bytesTillEof = 0)

/-- Enough willing calls read what has arrived, unless the end comes first. -/
theorem transports_settle {l : Ledger} {seen : List HttppMeta} {out : Bytes} {s : Transport}
    (T : Transports l seen out s) {reads : List ReadCall} (hreads : ∀ c ∈ reads, c.Willing)
    (hlen : s.link.length + (l.data.length - out.length) ≤ reads.length) :
    ∃ js, js <+: reads ∧ ∃ replies s', runCalls transportStep (js.map .read) s = some (replies, s') ∧
      Transports l seen (out ++ delivered replies) s' ∧ s'.enc = s.enc ∧ Settled s' := by
  induction reads generalizing out s with
  | nil =>
    obtain ⟨M, _, C⟩ := T.carried
    obtain ⟨todo, metas, _, hD, _⟩ := C.stage
    have hsum := congrArg List.length hD
    dsimp only at hsum
    rw [List.length_append, List.length_append] at hsum
    rw [List.length_nil] at hlen
    refine ⟨[], List.prefix_rfl, [], s, rfl, ?_, rfl, ?_, Or.inl ?_⟩
    · rw [show delivered [] = [] from rfl, List.append_nil]
      exact T
    · exact List.eq_nil_of_length_eq_zero (by omega)
    · exact List.eq_nil_of_length_eq_zero (by omega)
  | cons c reads ih =>
    by_cases hsettled : Settled s
    · refine ⟨[], List.nil_prefix, [], s, rfl, ?_, rfl, hsettled⟩
      rw [show delivered [] = [] from rfl, List.append_nil]
      exact T
    · obtain ⟨hmem, hfit, hfeed⟩ := hreads c List.mem_cons_self
      obtain ⟨reply, st', hstep, T', hle, hprog⟩ := read_transports T c
      obtain ⟨hcopied, hread⟩ := hprog hfit
      obtain ⟨_, _, C⟩ := T'.carried
      obtain ⟨_, _, _, hD, _⟩ := C.stage
      have hsum := congrArg List.length hD
      simp only [List.length_append] at hsum
      have hless : st'.2.length + (l.data.length - (out ++ reply.bytes).length) <
          s.link.length + (l.data.length - out.length) := by
        rw [List.length_append]
        by_cases hdecoded : s.dec.bufReadDecoded.rest = []
        · have hmore := not_or.mp fun h => hsettled ⟨hdecoded, h⟩
          rcases hread hmem hfeed hmore.1 hmore.2 with h | h
          · have := List.length_pos_iff.mpr h
            omega
          · omega
        · have := List.length_pos_iff.mpr (hcopied hdecoded)
          omega
      rw [List.length_cons] at hlen
      obtain ⟨js, hjs, replies, s', hrun, T'', henc, hs'⟩ :=
        ih T' (fun d hd => hreads d (List.mem_cons_of_mem _ hd)) (by dsimp only; omega)
      refine ⟨c :: js, (List.prefix_cons_inj c).mpr hjs, .read reply :: replies, s', ?_, ?_, henc, hs'⟩
      · have hcall : transportStep (.read c) s = some (.read reply, { s with dec := st'.1, link := st'.2 }) := by
          rw [transportStep, hstep]
          rfl
        rw [List.map_cons, runCalls_cons hcall, hrun]
        rfl
      · rw [delivered, List.flatMap_cons, ← List.append_assoc]
        exact T''

/-- When nothing is pending in the encoder, enough willing calls return all the data that was sent, but for chunks
that stay in the raw buffer. Without such a chunk all the metadata is there too, and the end is reported exactly if
it was sent. -/
theorem transport_delivers {cs : List TransportCall} (h : ∀ c ∈ cs, Attaches c) {replies : List TransportReply}
    {s : Transport} (hrun : runCalls transportStep cs transportNew = some (replies, s))
    (hpending : httppEncodingPending s.enc = 0) {reads : List ReadCall} (hreads : ∀ c ∈ reads, c.Willing)
    (hlen : s.link.length + ((sent cs).data.length - (delivered replies).length) ≤ reads.length) :
    ∃ js, js <+: reads ∧ ∃ replies' s', runCalls transportStep (js.map .read) s = some (replies', s') ∧
      ∃ chunks, (sent cs).data = delivered replies ++ delivered replies' ++ bodies chunks ∧
        encode chunks .open <+: s'.dec.bufReadRaw.rest ∧
        (s'.dec.bufReadRaw.rest = [] →
          (told replies ++ s'.dec.metaRead).map HttppMeta.pair = (sent cs).metas.map HttppMeta.pair ∧
          (httppEncodingEof s'.dec none = 1 ↔ (sent cs).ended = true)) := by
  obtain ⟨replies₁, s₁, hrun₁, T⟩ := transport_spec h
  cases hrun.symm.trans hrun₁
  obtain ⟨js, hjs, replies', s', hrun', T', henc, hdecoded, hover⟩ := transports_settle T hreads hlen
  refine ⟨js, hjs, replies', s', hrun', ?_⟩
  obtain ⟨M, hM, C⟩ := T'.carried
  rw [hM, eof_iff_done]
  rcases hover with hlink | hbte
  · have hstream : s'.stream = [] := by
      rw [pending_eq] at hpending
      rw [Transport.stream, hlink, henc, List.eq_nil_of_length_eq_zero hpending]
      rfl
    obtain ⟨chunks, hD, hraw, hempty⟩ := C.over hstream
    rw [hdecoded, List.append_nil] at hD
    refine ⟨chunks, hD, hraw, fun hnil => ?_⟩
    obtain ⟨hmetas, hbte⟩ := hempty hnil
    exact ⟨by rw [hmetas], fun heof => hbte.mp heof.2, fun hended => ⟨hdecoded, hbte.mpr hended⟩⟩
  · obtain ⟨hended, hD, hmetas⟩ := C.eof hbte
    refine ⟨[], by rw [hD, hdecoded]; rfl, List.nil_prefix, fun _ => ⟨by rw [hmetas], ?_⟩⟩
    exact ⟨fun _ => hended, fun _ => ⟨hdecoded, hbte⟩⟩

/-- An entry and a byte are sent and nothing is read. -/
def unreadRun : List TransportCall :=
  [.write (.appendMeta [(oneByteEntry 118 letterV_ne_nul).toMeta]),
    .write (.data [97] letterA_ne_nil [.all, .all] true true)]

theorem unreadRun_attaches : ∀ c ∈ unreadRun, Attaches c := by
  simp only [unreadRun, List.forall_mem_cons]
  refine ⟨⟨[oneByteEntry 118 letterV_ne_nul], rfl, ?_⟩, trivial, fun _ h => absurd h List.not_mem_nil⟩
  exact List.forall_mem_singleton.mpr ⟨by decide, List.cons_ne_nil _ _⟩

theorem transport_delivers_unreadRun : ∃ replies s, runCalls transportStep unreadRun transportNew = some (replies, s) ∧
    ∃ js, js <+: List.replicate 24 byteCall ∧
      ∃ replies' s', runCalls transportStep (js.map .read) s = some (replies', s') ∧
        ∃ chunks, [97] = delivered replies ++ delivered replies' ++ bodies chunks ∧
          encode chunks .open <+: s'.dec.bufReadRaw.rest := by
  obtain ⟨replies, s, hrun, _⟩ := transport_spec unreadRun_attaches
  have hstart : (runCalls transportStep unreadRun transportNew).map (fun r => (httppEncodingPending r.2.enc,
      decide (r.2.link.length + ((sent unreadRun).data.length - (delivered r.1).length) ≤ 24))) = some (0, true) := by
    decide
  rw [hrun] at hstart
  obtain ⟨hpending, hlen⟩ := Prod.mk.inj (Option.some.inj hstart)
  have hwilling : ∀ c ∈ List.replicate 24 byteCall, c.Willing := by
    intro c hc
    rw [List.eq_of_mem_replicate hc]
    exact ⟨rfl, by decide, 1, rfl, Nat.one_pos⟩
  obtain ⟨js, hjs, replies', s', hrun', chunks, hdata, hraw, _⟩ := transport_delivers unreadRun_attaches hrun hpending
    hwilling (by rw [List.length_replicate]; exact of_decide_eq_true hlen)
  exact ⟨replies, s, hrun, js, hjs, replies', s', hrun', chunks, hdata, hraw⟩

end IcecastCommon.Encoding
