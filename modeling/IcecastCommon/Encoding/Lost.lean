import IcecastCommon.Encoding.Metadata

/- Metadata that does not survive. The reader only ever appends entries, and the header
   that gives the first bad entry gives it wrong: the run lemma `run_lost` says that no run
   on such a chunk ends with the list that was written. -/
namespace IcecastCommon.Encoding
open Library

/-! The reader only appends entries. -/

theorem chunkBody_metaRead (memBody : Bool) (self : HttppEncoding) (n : Nat) :
    (chunkBody memBody self n).2.metaRead = self.metaRead := by
  unfold chunkBody
  simp only
  split_ifs
  all_goals rfl

/-- What follows the extensions keeps the metadata. -/
theorem headerTail_metaRead {memBody : Bool} {self self' : HttppEncoding} {reply : Reply} {c : Int} {mem : Bytes}
    {offset next : Nat}
    (h : (if c < 0 then none
      else
        match sscanfLlx ((mem.set c.toNat nul).drop offset) with
        | none => some (none, { self with bufReadRaw := ⟨some (mem.set c.toNat nul), offset⟩ })
        | some bodylen => some (chunkBody memBody
            { self with
              bufReadRaw := ⟨some (mem.set c.toNat nul), next⟩
              bytesTillEof := if bodylen = 0 then 2 else self.bytesTillEof } bodylen)) =
      some (reply, self')) : self'.metaRead = self.metaRead := by
  split_ifs at h
  split at h
  · simp only [Option.some.injEq, Prod.mk.injEq] at h
    rw [← h.2]
  · simp only [Option.some.injEq] at h
    have hm := congrArg (fun r : Reply × HttppEncoding => r.2.metaRead) h
    rw [chunkBody_metaRead] at hm
    exact hm.symm

/-- What a header does to the metadata, by the result of the scanner. -/
theorem chunkHeader_metaRead {memBody : Bool} {self self' : HttppEncoding} {reply : Reply}
    (h : chunkHeader memBody self = some (reply, self')) {s : Scan}
    (hs : scanHeader self.bufReadRaw.offset self.bufReadRaw.rest Scan.start = s) :
    s.offsetLF = -1 ∧ reply = some [] ∧ self' = self ∨
      s.offsetLF ≠ -1 ∧ s.offsetExtentions = -1 ∧ self'.metaRead = self.metaRead ∨
      s.offsetLF ≠ -1 ∧ s.offsetExtentions ≠ -1 ∧
        ∃ metas, self'.metaRead = self.metaRead ++ metas ∧
          readExtentions ((s.offsetCR - s.offsetExtentions).toNat + 1)
            ((self.bufReadRaw.mem.getD []).drop s.offsetExtentions.toNat)
            (s.offsetCR - s.offsetExtentions).toNat = some metas := by
  unfold chunkHeader at h
  simp only [hs] at h
  by_cases hlf : s.offsetLF = -1
  · rw [if_pos hlf] at h
    simp only [Option.some.injEq, Prod.mk.injEq] at h
    exact Or.inl ⟨hlf, h.1.symm, h.2.symm⟩
  rw [if_neg hlf] at h
  refine Or.inr ?_
  by_cases hext : s.offsetExtentions = -1
  · simp only [hext, ne_eq, not_true_eq_false, if_false, Option.bind_eq_bind, Option.bind_some] at h
    exact Or.inl ⟨hlf, hext, headerTail_metaRead h⟩
  · simp only [ne_eq, hext, not_false_eq_true, if_true, encChunkedReadExtentions] at h
    obtain ⟨self1, h1, h2⟩ := Option.bind_eq_some_iff.mp h
    obtain ⟨metas, hmetas, h3⟩ := Option.bind_eq_some_iff.mp h1
    cases h3
    exact Or.inr ⟨hlf, hext, metas, headerTail_metaRead h2, hmetas⟩

theorem chunkHeader_appends {memBody : Bool} {self self' : HttppEncoding} {reply : Reply}
    (h : chunkHeader memBody self = some (reply, self')) :
    ∃ x, self'.metaRead = self.metaRead ++ x := by
  rcases chunkHeader_metaRead h rfl with ⟨_, _, rfl⟩ | ⟨_, _, hm⟩ | ⟨_, _, metas, hm, _⟩
  · exact ⟨[], (List.append_nil _).symm⟩
  · exact ⟨[], by rw [hm, List.append_nil]⟩
  · exact ⟨metas, hm⟩

theorem chunkRaw_appends {memBody : Bool} {self self' : HttppEncoding} {reply : Reply}
    (h : chunkRaw memBody self = some (reply, self')) :
    ∃ x, self'.metaRead = self.metaRead ++ x := by
  unfold chunkRaw at h
  simp only at h
  split_ifs at h
  all_goals first
    | (simp only [Option.some.injEq, Prod.mk.injEq] at h
       rw [← h.2]
       exact ⟨[], (List.append_nil _).symm⟩)
    | (obtain ⟨x, hx⟩ := chunkHeader_appends h
       exact ⟨x, hx⟩)

variable {σ : Type}

theorem encChunkedRead_appends {memRaw memBody : Bool} {self self' : HttppEncoding} {len : Nat}
    {cb : Option (ReadCallback σ)} {u u' : σ} {reply : Reply}
    (h : encChunkedRead memRaw memBody self len cb u = some (reply, self', u')) :
    ∃ x, self'.metaRead = self.metaRead ++ x := by
  rcases encChunkedRead_inv h with ⟨k, rfl⟩ | rfl | ⟨bs, _, hraw⟩
  · exact ⟨[], (List.append_nil _).symm⟩
  · exact ⟨[], (List.append_nil _).symm⟩
  · obtain ⟨x, hx⟩ := chunkRaw_appends hraw
    exact ⟨x, hx⟩

theorem encIdentityRead_self {self self' : HttppEncoding} {len : Nat}
    {cb : Option (ReadCallback σ)} {u u' : σ} {reply : Reply}
    (h : encIdentityRead self len cb u = some (reply, self', u')) : self' = self := by
  unfold encIdentityRead at h
  cases cb with
  | none =>
    simp only [Option.some.injEq, Prod.mk.injEq] at h
    exact h.2.1.symm
  | some cb =>
    simp only [Option.some.injEq, Prod.mk.injEq] at h
    exact h.2.1.symm

theorem httppEncodingRead_appends {memRaw memBody : Bool} {self self' : HttppEncoding} {len : Nat}
    {cb : Option (ReadCallback σ)} {u u' : σ} {reply : Reply}
    (h : httppEncodingRead memRaw memBody self len cb u = some (reply, self', u')) :
    ∃ x, self'.metaRead = self.metaRead ++ x := by
  rcases httppEncodingRead_inv h with ⟨dec, rfl, _⟩ |
    ⟨dec, len', ret, self1, dec', rfl, ⟨_, hrun⟩ | ⟨_, hrun⟩⟩
  · exact ⟨[], (List.append_nil _).symm⟩
  · rw [encIdentityRead_self hrun]
    exact ⟨[], (List.append_nil _).symm⟩
  · obtain ⟨x, hx⟩ := encChunkedRead_appends hrun
    exact ⟨x, hx⟩

/-! The first bad entry. -/

/-- No list that begins with `metas` is the list `es`. -/
def Lost (es : List Entry) (metas : List HttppMeta) : Prop :=
  ∀ x, (metas ++ x).map HttppMeta.pair ≠ es.map Entry.pair

theorem Lost.append {es : List Entry} {metas : List HttppMeta} (h : Lost es metas)
    (x : List HttppMeta) : Lost es (metas ++ x) := by
  intro y
  rw [List.append_assoc]
  exact h (x ++ y)

theorem lost_of_ne {pre post : List Entry} {e : Entry} {m : HttppMeta} {rest : List HttppMeta}
    (h : m.pair ≠ e.pair) : Lost (pre ++ e :: post) (pre.map Entry.toMeta ++ m :: rest) := by
  intro x he
  simp only [List.map_append, List.map_cons, List.append_assoc, List.cons_append] at he
  have hlen : ((pre.map Entry.toMeta).map HttppMeta.pair).length = (pre.map Entry.pair).length := by
    simp only [List.length_map]
  exact h (List.cons.inj (List.append_inj he hlen).2).1

/-- The text of a bad entry up to the byte that decides: `t` is `="` or `;`. -/
theorem Entry.Bad.tail {e : Entry} {post : List Entry} (h : e.Bad post) :
    ∃ t z, texts (e :: post) = semicolon :: (e.key ++ t) ++ z ∧
      (∀ (i : Nat) (s : Scan), s.inQuote = 0 → s.offsetLF = -1 → s.offsetExtentions ≠ -1 →
        ∃ q, scanHeader i (semicolon :: (e.key ++ t)) s = { s with inQuote := q }) ∧
      ∀ fuel len y metas, e.key.length + t.length + 1 ≤ len →
        readExtentions fuel (semicolon :: (e.key ++ t) ++ y) len = some metas →
        ∃ m rest, metas = m :: rest ∧ m.pair ≠ e.pair := by
  rcases h with hb | ⟨hv, hpost⟩
  · have hv : e.value ≠ [] := by
      intro h
      rw [h] at hb
      exact absurd hb List.not_mem_nil
    refine ⟨[equals, quote], escapeValue e.value ++ [quote] ++ texts post, ?_, ?_, ?_⟩
    · rw [texts, List.flatMap_cons, Entry.text_solid hv]
      simp only [texts, List.cons_append, List.append_assoc, List.nil_append]
    · intro i s hq hs hx
      have hkey := scanHeader_key (i := i + 1) hq hs e.keyToken
      refine ⟨1, ?_⟩
      rw [scanHeader_semicolon hq hs hx, scanHeader_open (by rw [hkey]; exact hs), hkey,
        scanHeader_equals hq hs]
      rfl
    · intro fuel len y metas hlen hread
      rw [List.cons_append, List.append_assoc] at hread
      obtain ⟨v, m, rest, hms, hmv, hno⟩ := readExtentions_lost hlen hread
      refine ⟨m, rest, hms, fun he => hno ?_⟩
      have hval := congrArg Prod.snd he
      simp only [HttppMeta.pair, Entry.pair, hmv, Option.getD_some] at hval
      rw [hval]
      exact hb
  · obtain ⟨t, ht⟩ := texts_first hpost
    refine ⟨[semicolon], t, ?_, ?_, ?_⟩
    · rw [texts, List.flatMap_cons, Entry.text_empty hv]
      rw [texts] at ht
      rw [ht]
      simp only [List.cons_append, List.append_assoc, List.nil_append]
    · intro i s hq hs hx
      have hkey := scanHeader_key (i := i + 1) hq hs e.keyToken
      refine ⟨0, ?_⟩
      rw [scanHeader_semicolon hq hs hx, scanHeader_open (by rw [hkey]; exact hs), hkey,
        scanHeader_semicolon hq hs hx, ← hq]
      rfl
    · intro fuel len y metas hlen hread
      rw [List.cons_append, List.append_assoc] at hread
      obtain ⟨k, m, rest, hms, hmk, hmem⟩ := readExtentions_hidden e.keyToken hlen hread
      refine ⟨m, rest, hms, fun he => ?_⟩
      have hkey := congrArg Prod.fst he
      simp only [HttppMeta.pair, Entry.pair, hmk, Option.some.injEq] at hkey
      rw [hkey] at hmem
      exact (e.keyToken _ hmem).2.1 rfl

/-- Behind the offset `a` the scanner keeps the start of the extensions, and the CR of the
end it finds lies behind `a`. -/
theorem scanHeader_found {i a : Nat} {xs : Bytes} {s : Scan} (hi : 0 < i) (ha : a ≤ i)
    (hs : s.offsetLF = -1) (hcr : s.offsetCR = -1 ∨ (a : Int) ≤ s.offsetCR)
    (hx : s.offsetExtentions ≠ -1) (h : (scanHeader i xs s).offsetLF ≠ -1) :
    (a : Int) ≤ (scanHeader i xs s).offsetCR ∧
      (scanHeader i xs s).offsetExtentions = s.offsetExtentions := by
  induction xs generalizing i s with
  | nil => exact absurd hs h
  | cons c cs ih =>
    have hnext : (s.next i c).offsetExtentions = s.offsetExtentions ∧
        ((s.next i c).offsetLF = -1 →
          (s.next i c).offsetCR = -1 ∨ (a : Int) ≤ (s.next i c).offsetCR) ∧
        ((s.next i c).offsetLF ≠ -1 → (a : Int) ≤ (s.next i c).offsetCR) := by
      unfold Scan.next
      split_ifs with h1 h2 h3 h4 h5 h6 h7
      · exact ⟨rfl, fun _ => hcr, fun hh => absurd hs hh⟩
      · exact ⟨rfl, fun _ => hcr, fun hh => absurd hs hh⟩
      · exact ⟨rfl, fun _ => hcr, fun hh => absurd hs hh⟩
      · exact ⟨rfl, fun _ => hcr, fun hh => absurd hs hh⟩
      · exact absurd h5.2 hx
      · exact ⟨rfl, fun _ => Or.inr (by simp only; omega), fun hh => absurd hs hh⟩
      · refine ⟨rfl, fun _ => hcr, fun _ => ?_⟩
        simp only
        omega
      · exact ⟨rfl, fun _ => hcr, fun hh => absurd hs hh⟩
    obtain ⟨hext, hopen, hclosed⟩ := hnext
    by_cases hc : (s.next i c).offsetLF = -1
    · rw [scanHeader_cons hc] at h ⊢
      rw [← hext]
      exact ih (Nat.succ_pos i) (by omega) hc (hopen hc) (by rw [hext]; exact hx) h
    · have he : scanHeader i (c :: cs) s = s.next i c := by
        simp only [scanHeader]
        rw [if_pos hc]
      rw [he]
      exact ⟨hclosed hc, hext⟩

theorem texts_append (es fs : List Entry) : texts (es ++ fs) = texts es ++ texts fs :=
  List.flatMap_append

/-- The length and the entries of a header, up to the byte that decides on a bad entry. -/
theorem scanHeader_tail {o : Nat} {hex t : Bytes} {pre : List Entry} {e : Entry}
    (hhex : ∀ c ∈ hex, IsHex c) (hpre : ∀ e ∈ pre, e.Solid)
    (hscan : ∀ (i : Nat) (s : Scan), s.inQuote = 0 → s.offsetLF = -1 → s.offsetExtentions ≠ -1 →
      ∃ q, scanHeader i (semicolon :: (e.key ++ t)) s = { s with inQuote := q }) :
    ∃ q, scanHeader o (hex ++ (texts pre ++ semicolon :: (e.key ++ t))) Scan.start =
      ⟨q, (o + hex.length : Nat), -1, -1⟩ := by
  have hfirst : ∃ c, texts pre ++ semicolon :: (e.key ++ t) = semicolon :: c := by
    cases pre with
    | nil => exact ⟨e.key ++ t, rfl⟩
    | cons p ps =>
      obtain ⟨c, hc⟩ := texts_first (List.cons_ne_nil p ps)
      rw [hc]
      exact ⟨_, List.cons_append⟩
  have hx : ((o + hex.length : Nat) : Int) ≠ -1 := by omega
  have hp := scanHeader_plain (i := o) (s := Scan.start) rfl rfl fun c hc => (hhex c hc).plain
  have hs := scanHeader_texts (i := o + hex.length) (s := ⟨0, (o + hex.length : Nat), -1, -1⟩) hpre rfl rfl hx
  obtain ⟨c, hc⟩ := hfirst
  obtain ⟨q, hq⟩ := hscan (o + hex.length + (texts pre).length) ⟨0, (o + hex.length : Nat), -1, -1⟩ rfl rfl hx
  refine ⟨q, ?_⟩
  rw [scanHeader_open (by rw [hp]; rfl), hp, hc, scanHeader_first, ← hc, scanHeader_open (by rw [hs]), hs, hq]

/-- When a stream begins with `a`, and the scanner is still open behind `a`, then what was read of the
stream contains `a` as soon as the scanner finds an end. -/
theorem scanHeader_past {o q : Nat} {x : Int} {a z u R : Bytes} (hx : x ≠ -1) (hpos : 0 < o + a.length)
    (hscan : scanHeader o a Scan.start = ⟨q, x, -1, -1⟩) (hstream : u ++ R = a ++ z)
    (hlf : (scanHeader o u Scan.start).offsetLF ≠ -1) :
    (scanHeader o u Scan.start).offsetExtentions = x ∧
      ((o + a.length : Nat) : Int) ≤ (scanHeader o u Scan.start).offsetCR ∧ ∃ y, u = a ++ y := by
  by_cases hlen : u.length ≤ a.length
  · -- the end would lie in `a`
    obtain ⟨w, hw⟩ := List.prefix_of_prefix_length_le ⟨R, hstream⟩ (List.prefix_append _ _) hlen
    have happ := (scanHeader_closed rfl hlf).2 w
    rw [hw, hscan] at happ
    rw [← happ] at hlf
    exact absurd rfl hlf
  · obtain ⟨y, hy⟩ := List.prefix_of_prefix_length_le (List.prefix_append _ _) ⟨R, hstream⟩ (Nat.le_of_not_le hlen)
    have hwhole : scanHeader o u Scan.start = scanHeader (o + a.length) y ⟨q, x, -1, -1⟩ := by
      rw [← hy, scanHeader_open (by rw [hscan]), hscan]
    rw [hwhole] at hlf ⊢
    obtain ⟨hcr, hext⟩ := scanHeader_found hpos (Nat.le_refl _) rfl (Or.inl rfl) hx hlf
    exact ⟨hext, hcr, y, hy.symm⟩

/-- A header of the chunk that is found complete gives the first bad entry wrong. -/
theorem chunkHeader_lost {es : List Entry} (hno : ¬Survives es) {d : Data} {memBody : Bool}
    {self self' : HttppEncoding} {reply : Reply} {m R : Bytes} {o : Nat}
    (h : chunkHeader memBody self = some (reply, self')) (hraw : self.bufReadRaw = ⟨some m, o⟩)
    (hstream : m.drop o ++ R = metaChunk es d) (hmeta : self.metaRead = []) :
    reply = some [] ∧ self' = self ∨ Lost es self'.metaRead := by
  obtain ⟨pre, rest, rfl, hpre, ⟨hyes, _⟩ | ⟨_, e, post, rfl, hbad⟩⟩ := entries_cases es
  · exact absurd hyes hno
  obtain ⟨t, z, ht, hscan, hread⟩ := hbad.tail
  have hfit : d.chunk.length < 2 ^ 64 := by
    have := d.chunk_length
    omega
  obtain ⟨hne, hhex, _⟩ := printLx_spec hfit
  generalize hprint : printLx d.chunk.length = hex at hne hhex
  -- the part of the header up to the byte that decides
  generalize hQ : texts pre ++ semicolon :: (e.key ++ t) = Q
  have hchunk : metaChunk (pre ++ e :: post) d = (hex ++ Q) ++ (z ++ crlf ++ d.chunk ++ crlf) := by
    rw [metaChunk, dataChunk, hprint, texts_append, ht, ← hQ]
    simp only [List.append_assoc, List.cons_append]
  have hx : ((o + hex.length : Nat) : Int) ≠ -1 := by omega
  obtain ⟨q, hdecides⟩ := scanHeader_tail (o := o) hhex hpre hscan
  rw [hQ] at hdecides
  rw [hchunk] at hstream
  have hpos : 0 < o + (hex ++ Q).length := by
    have := List.length_pos_iff.mpr hne
    rw [List.length_append]
    omega
  have hself : scanHeader self.bufReadRaw.offset self.bufReadRaw.rest Scan.start =
      scanHeader o (m.drop o) Scan.start := by rw [hraw, Buf.some_rest]
  rcases chunkHeader_metaRead h hself with ⟨_, hr, hs⟩ | ⟨hlf, hext, _⟩ | ⟨hlf, _, metas, hms, hparse⟩
  · exact Or.inl ⟨hr, hs⟩
  · obtain ⟨hoff, _⟩ := scanHeader_past hx hpos hdecides hstream hlf
    rw [hext] at hoff
    exact absurd hoff.symm hx
  · -- the extensions are parsed from the first entry on, and the bad one is in what is parsed
    refine Or.inr ?_
    obtain ⟨hoff, hcr, y, hy⟩ := scanHeader_past hx hpos hdecides hstream hlf
    have hdrop : m.drop (o + hex.length) = texts pre ++ (semicolon :: (e.key ++ t) ++ y) := by
      rw [← List.drop_drop, hy, List.append_assoc, List.drop_left, ← hQ, List.append_assoc]
    have hQlen : Q.length = (texts pre).length + (e.key.length + t.length + 1) := by
      rw [← hQ]
      simp only [List.length_append, List.length_cons]
    rw [List.length_append] at hcr
    rw [hoff, Int.toNat_natCast, hraw, Option.getD_some, hdrop] at hparse
    obtain ⟨len, hlen, hle⟩ : ∃ len,
        ((scanHeader o (m.drop o) Scan.start).offsetCR - (o + hex.length : Nat)).toNat = (texts pre).length + len ∧
          e.key.length + t.length + 1 ≤ len :=
      ⟨((scanHeader o (m.drop o) Scan.start).offsetCR - (o + hex.length : Nat)).toNat - (texts pre).length,
        by omega, by omega⟩
    rw [hlen] at hparse
    obtain ⟨fuel', _, heq⟩ := readExtentions_texts hpre (semicolon :: (e.key ++ t) ++ y) len
      ((texts pre).length + len + 1) (Nat.lt_succ_self _)
    rw [heq] at hparse
    obtain ⟨metas', hlast, hmetas⟩ := Option.map_eq_some_iff.mp hparse
    obtain ⟨mm, rest, hcons, hpair⟩ := hread fuel' len y metas' hle hlast
    rw [hms, hmeta, List.nil_append, ← hmetas, hcons]
    exact lost_of_ne hpair

/-! Runs. -/

/-- Nothing but a part of the header was read. -/
structure Unread (W : Bytes) (st : HttppEncoding × Bytes) : Prop where
  chunked : st.1.process = .chunked
  rawOk : st.1.bufReadRaw.Ok
  bte : st.1.bytesTillEof = -1
  rbh : st.1.readBytesTillHeader = 0
  metaRead : st.1.metaRead = []
  stream : st.1.bufReadRaw.rest ++ st.2 = W

theorem encChunkedRead_lost {es : List Entry} (hno : ¬Survives es) {d : Data}
    {self self' : HttppEncoding} {R R' : Bytes} {memRaw memBody : Bool} {len : Nat} {feed : Feed}
    {reply : Reply}
    (h : encChunkedRead memRaw memBody self len feed.callback R = some (reply, self', R'))
    (H : Unread (metaChunk es d) (self, R)) :
    Unread (metaChunk es d) (self', R') ∨ Lost es self'.metaRead := by
  obtain ⟨hproc, hok, hbte, hrbh, hmeta, hstream⟩ := H
  simp only at hproc hok hbte hrbh hmeta hstream
  rcases encChunkedRead_feed hok (by omega) memRaw memBody len feed R with
    ⟨reply', raw, heq, _, hok', hrest', _⟩ | ⟨bs, rest, hne, hR, _, heq⟩
  · obtain ⟨_, hst⟩ := Prod.mk.inj (Option.some.inj (heq.symm.trans h))
    obtain ⟨rfl, rfl⟩ := Prod.mk.inj hst
    refine Or.inl ⟨hproc, hok', hbte, hrbh, hmeta, ?_⟩
    simp only [hrest']
    exact hstream
  · rw [heq] at h
    obtain ⟨⟨reply₁, self₁⟩, hrun, hret⟩ := Option.map_eq_some_iff.mp h
    obtain ⟨_, hst⟩ := Prod.mk.inj hret
    obtain ⟨rfl, rfl⟩ := Prod.mk.inj hst
    obtain ⟨hok', hrest'⟩ := received_spec hok bs
    have hpos := List.length_pos_iff.mpr hne
    have hmore : (received self bs).readBytesTillHeader < (received self bs).bufReadRaw.left := by
      rw [← Buf.rest_length, hrest', List.length_append]
      show self.readBytesTillHeader < _
      omega
    have hoffset : (received self bs).bufReadRaw.offset + (received self bs).readBytesTillHeader =
        (received self bs).bufReadRaw.offset := by
      show _ + self.readBytesTillHeader = _
      rw [hrbh, Nat.add_zero]
    have hstream' : (received self bs).bufReadRaw.rest ++ rest = metaChunk es d := by
      rw [hrest', List.append_assoc, ← hR, hstream]
    rw [chunkRaw_skip hmore hbte, hoffset] at hrun
    rcases chunkHeader_lost hno hrun rfl hstream' hmeta with ⟨_, rfl⟩ | hlost
    · exact Or.inl ⟨hproc, hok', hbte, rfl, hmeta, hstream'⟩
    · exact Or.inr hlost

theorem readStep_lost {es : List Entry} (hno : ¬Survives es) {d : Data} {c : ReadCall}
    {st st' : HttppEncoding × Bytes} {reply : Reply}
    (H : Unread (metaChunk es d) st ∨ Lost es st.1.metaRead)
    (h : readStep c st = some (reply, st')) :
    Unread (metaChunk es d) st' ∨ Lost es st'.1.metaRead := by
  obtain ⟨self, R⟩ := st
  obtain ⟨self', R'⟩ := st'
  rcases H with H | H
  · obtain ⟨hproc, hok, hbte, hrbh, hmeta, hstream⟩ := H
    rcases httppEncodingRead_inv h with ⟨dec, rfl, rfl⟩ |
      ⟨dec, len', ret, self1, dec', rfl, ⟨hid, _⟩ | ⟨_, hrun⟩⟩
    · exact Or.inl ⟨hproc, hok, hbte, hrbh, hmeta, hstream⟩
    · exact absurd (hproc.symm.trans hid) (by decide)
    · rcases encChunkedRead_lost hno hrun ⟨hproc, hok, hbte, hrbh, hmeta, hstream⟩ with H1 | hlost
      · exact Or.inl ⟨H1.chunked, H1.rawOk, H1.bte, H1.rbh, H1.metaRead, H1.stream⟩
      · exact Or.inr hlost
  · obtain ⟨x, hx⟩ := httppEncodingRead_appends h
    refine Or.inr ?_
    simp only at hx H ⊢
    rw [hx]
    exact H.append x

/-- No run on a chunk with metadata that does not survive ends with what was attached. -/
theorem run_lost {es : List Entry} (hno : ¬Survives es) {d : Data} {calls : List ReadCall}
    {replies : List Reply} {st : HttppEncoding × Bytes}
    (h : readNew calls (metaChunk es d) = some (replies, st)) :
    st.1.metaRead.map HttppMeta.pair ≠ es.map Entry.pair := by
  have hstart : Unread (metaChunk es d) (httppEncodingNew .chunked, metaChunk es d) :=
    ⟨rfl, Buf.null_ok, rfl, rfl, rfl, rfl⟩
  rcases runCalls_preserves (P := fun st => Unread (metaChunk es d) st ∨ Lost es st.1.metaRead)
    (fun _ _ _ _ H hstep => readStep_lost hno H hstep) (Or.inl hstart) h with H | hlost
  · rw [H.metaRead]
    intro he
    have hnil : es = [] := List.map_eq_nil_iff.mp he.symm
    subst hnil
    exact hno ⟨fun _ hm => absurd hm List.not_mem_nil, fun _ hm => absurd hm List.not_mem_nil⟩
  · intro he
    exact hlost [] (by rw [List.append_nil]; exact he)

end IcecastCommon.Encoding
