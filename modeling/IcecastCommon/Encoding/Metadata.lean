import IcecastCommon.Encoding.Body
import IcecastCommon.Encoding.Extensions
import IcecastCommon.Encoding.ReadRun

/- The way of metadata through a chunk. A list that `Survives` makes a well formed header,
   so the invariant of the reader gives it back; from any other list the first bad entry
   is read wrong, and since the reader only appends entries that is never mended. -/
namespace IcecastCommon.Encoding
open Library

/-! The chunk. -/

def appendCall (e : Entry) : WriteCall := .appendMeta [e.toMeta]

/-- The bytes of a chunk with metadata. -/
def metaChunk (es : List Entry) (d : Data) : Bytes := dataChunk (texts es) d.chunk

theorem nul_notMem_escapeValue {v : Bytes} (h : nul ∉ v) : nul ∉ escapeValue v := by
  intro hmem
  obtain ⟨c, hc, hmem⟩ := List.mem_flatMap.mp hmem
  split_ifs at hmem with hq
  · rcases List.mem_cons.mp hmem with e | hmem
    · exact absurd e (by decide)
    · exact h (List.mem_singleton.mp hmem ▸ hc)
  · exact h (List.mem_singleton.mp hmem ▸ hc)

theorem nul_notMem_text (e : Entry) : nul ∉ e.text := by
  intro hmem
  by_cases hv : e.value = []
  · rw [Entry.text_empty hv] at hmem
    rcases List.mem_cons.mp hmem with h | h
    · exact absurd h (by decide)
    · exact e.nul_notMem_key h
  · rw [Entry.text_solid hv] at hmem
    rcases List.mem_append.mp hmem with h | h
    · rcases List.mem_cons.mp h with h | h
      · exact absurd h (by decide)
      · exact e.nul_notMem_key h
    · rcases List.mem_cons.mp h with h | h
      · exact absurd h (by decide)
      rcases List.mem_cons.mp h with h | h
      · exact absurd h (by decide)
      rcases List.mem_append.mp h with h | h
      · exact nul_notMem_escapeValue e.valueNul h
      · exact absurd (List.mem_singleton.mp h) (by decide)

theorem appendCalls_run (es : List Entry) (metas : List HttppMeta) (accepted : Bytes) :
    ∃ rets, runCalls writeStep (es.map appendCall)
        (httppEncodingAppendMeta (httppEncodingNew .chunked) metas, accepted) =
      some (rets, httppEncodingAppendMeta (httppEncodingNew .chunked)
        (metas ++ es.map Entry.toMeta), accepted) := by
  induction es generalizing metas with
  | nil => exact ⟨[], by rw [List.map_nil, List.map_nil, List.append_nil]; rfl⟩
  | cons e es ih =>
    obtain ⟨rets, hrun⟩ := ih (metas ++ [e.toMeta])
    refine ⟨0 :: rets, ?_⟩
    rw [List.append_assoc] at hrun
    have hstep : writeStep (appendCall e)
        (httppEncodingAppendMeta (httppEncodingNew .chunked) metas, accepted) =
        some (0, httppEncodingAppendMeta (httppEncodingNew .chunked) (metas ++ [e.toMeta]),
          accepted) := rfl
    rw [List.map_cons, runCalls_cons hstep, hrun]
    rfl

/-- What the encoder writes for one data call behind the metadata. -/
theorem metaChunk_written (es : List Entry) (d : Data) :
    ∃ rets self, writeNew (es.map appendCall ++ [d.call]) = some (rets, self, metaChunk es d) := by
  obtain ⟨rets, hrun⟩ := appendCalls_run es [] []
  rw [List.nil_append] at hrun
  have htexts : cString ((es.map Entry.toMeta).flatMap writeExtension) = texts es := by
    have hmap : (es.map Entry.toMeta).flatMap writeExtension = texts es := List.flatMap_map ..
    rw [hmap]
    apply cString_of_plain
    intro hmem
    obtain ⟨e, _, he⟩ := List.mem_flatMap.mp hmem
    exact nul_notMem_text e he
  have hcall := call_step_meta (es.map Entry.toMeta) d []
  rw [htexts] at hcall
  refine ⟨rets ++ [(d.chunk.length : Int)], httppEncodingNew .chunked, ?_⟩
  have happ := runCalls_append hrun [d.call]
  rw [runCalls_cons hcall] at happ
  exact happ

theorem Data.chunk_nonempty (d : Data) : d.chunk ≠ [] := by
  intro h
  rcases List.take_eq_nil_iff.mp h with h | h
  · exact absurd h (by decide)
  · exact d.nonempty h

theorem Data.chunk_length (d : Data) : d.chunk.length ≤ 1048576 := by
  unfold Data.chunk
  rw [List.length_take]
  exact Nat.min_le_left _ _

/-! Lists that survive. -/

section

variable {i : Nat} {s : Scan}

theorem scanHeader_emptyEntry {e : Entry} (he : e.value = []) (hq : s.inQuote = 0)
    (hs : s.offsetLF = -1) (hx : s.offsetExtentions ≠ -1) : scanHeader i e.text s = s := by
  rw [Entry.text_empty he, scanHeader_semicolon hq hs hx]
  exact scanHeader_key hq hs e.keyToken

/-- The scanner and the parser on the text of a list that survives. -/
theorem texts_survive {es : List Entry} (h : Survives es) :
    (∀ (i : Nat) (s : Scan), s.inQuote = 0 → s.offsetLF = -1 → s.offsetExtentions ≠ -1 →
        scanHeader i (texts es) s = s) ∧
      ∃ metas, metas.map HttppMeta.pair = es.map Entry.pair ∧
        ∀ x, readExtentions ((texts es).length + 1) (texts es ++ x) (texts es).length =
          some metas := by
  have hpairs (pre : List Entry) :
      (pre.map Entry.toMeta).map HttppMeta.pair = pre.map Entry.pair := by
    rw [List.map_map]
    refine List.map_congr_left fun e _ => ?_
    simp only [Function.comp_apply, e.toMeta_eq, HttppMeta.pair, Entry.pair, Option.getD_some]
  obtain ⟨pre, rest, rfl, hpre, ⟨_, hrest⟩ | ⟨hno, _⟩⟩ := entries_cases es
  · rcases hrest with rfl | ⟨e, rfl, he⟩
    · rw [List.append_nil]
      refine ⟨fun i s hq hs hx => scanHeader_texts hpre hq hs hx, _, hpairs pre, fun x => ?_⟩
      obtain ⟨fuel', hfuel', heq⟩ := readExtentions_texts hpre x 0
        ((texts pre).length + 1) (by omega)
      have hz : readExtentions fuel' x 0 = some [] := by
        cases fuel' with
        | zero => exact absurd hfuel' (Nat.lt_irrefl 0)
        | succ fuel' => rfl
      rw [Nat.add_zero, hz, Option.map_some, List.append_nil] at heq
      exact heq
    · have hsplit : texts (pre ++ [e]) = texts pre ++ e.text := by
        simp only [texts, List.flatMap_append, List.flatMap_cons, List.flatMap_nil, List.append_nil]
      refine ⟨fun i s hq hs hx => ?_, pre.map Entry.toMeta ++ [⟨some e.key, none, 0⟩], ?_, fun x => ?_⟩
      · have hscan := scanHeader_texts (i := i) hpre hq hs hx
        rw [hsplit, scanHeader_open (by rw [hscan]; exact hs), hscan]
        exact scanHeader_emptyEntry he hq hs hx
      · rw [List.map_append, hpairs, List.map_append]
        simp only [List.map_cons, List.map_nil, HttppMeta.pair, Entry.pair, Option.getD_none, he]
      · have hlen : e.text.length = e.key.length + 1 := by
          rw [Entry.text_empty he, List.length_cons]
        obtain ⟨fuel', hfuel', heq⟩ := readExtentions_texts hpre (e.text ++ x) (e.key.length + 1)
          ((texts (pre ++ [e])).length + 1) (by rw [hsplit, List.length_append]; omega)
        have hlast : readExtentions fuel' (e.text ++ x) (e.key.length + 1) =
            some [⟨some e.key, none, 0⟩] := by
          cases fuel' with
          | zero => exact absurd hfuel' (Nat.not_lt_zero _)
          | succ fuel' =>
            rw [Entry.text_empty he]
            exact readExtentions_key e.equals_notMem_key fuel' x
        rw [hlast, Option.map_some] at heq
        rw [hsplit, List.length_append, List.append_assoc, hlen]
        rw [hsplit, List.length_append, hlen] at heq
        exact heq
  · exact absurd h hno

theorem texts_first {es : List Entry} (h : es ≠ []) : ∃ t, texts es = semicolon :: t := by
  cases es with
  | nil => exact absurd rfl h
  | cons e es =>
    by_cases hv : e.value = []
    · exact ⟨e.key ++ texts es, by rw [texts, List.flatMap_cons, Entry.text_empty hv]; rfl⟩
    · refine ⟨e.key ++ (equals :: quote :: (escapeValue e.value ++ [quote])) ++ texts es, ?_⟩
      rw [texts, List.flatMap_cons, Entry.text_solid hv]
      rfl

/-- The header of a chunk with surviving metadata is well formed. -/
theorem headerLine_meta {es : List Entry} (h : Survives es) {n : Nat} (hn : n < 2 ^ 64) :
    ∃ metas ext, HeaderLine (printLx n ++ texts es) n metas ext ∧
      metas.map HttppMeta.pair = es.map Entry.pair := by
  obtain ⟨hne, hhex, hval⟩ := printLx_spec hn
  by_cases hes : es = []
  · subst hes
    refine ⟨[], none, ?_, rfl⟩
    have hline := headerLine_digits hne hhex (by rw [hval]; exact hn)
    rw [hval] at hline
    rw [show printLx n ++ texts [] = printLx n from List.append_nil _]
    exact hline
  obtain ⟨hscan, metas, hpairs, hread⟩ := texts_survive h
  obtain ⟨t, ht⟩ := texts_first hes
  refine ⟨metas, some (printLx n).length, ⟨fun i => ?_, fun x => ?_, fun hnone => ?_, ?_⟩, hpairs⟩
  · have hp := scanHeader_plain (i := i) (s := Scan.start) rfl rfl fun c hc => (hhex c hc).plain
    have hx : ((i + (printLx n).length : Nat) : Int) ≠ -1 := by omega
    have hs := hscan (i + (printLx n).length) ⟨0, (i + (printLx n).length : Nat), -1, -1⟩ rfl rfl hx
    rw [List.append_assoc, scanHeader_open (by rw [hp]; rfl), hp, ht, List.cons_append,
      scanHeader_first, ← List.cons_append, ← ht, scanHeader_open (by rw [hs]), hs,
      ← List.append_nil crlf, scanHeader_crlf rfl rfl]
    simp only [offsetExt, List.length_append, Int.natCast_add, Int.add_assoc]
  · rw [Option.getD_some, List.take_left]
    rw [← hval] at hn
    rw [sscanfLlx_digits hne hhex hn, hval]
  · cases hnone
  · rintro k hk
    cases hk
    refine ⟨by rw [List.length_append]; exact Nat.le_add_right _ _, fun x => ?_⟩
    rw [List.length_append, Nat.add_sub_cancel_left, List.drop_left]
    exact hread x

end

end IcecastCommon.Encoding
