import IcecastCommon.Encoding.Read

/- Chunked streams as the reader sees them. `HeaderLine` says when a header is well
   formed in terms of the scanner, the number conversion and the extension parser;
   `chunkHeader_spec` and `chunkBody_cases` then say what the reader does with a
   complete header, whatever the buffer holds behind it. -/
namespace IcecastCommon.Encoding

/-! The header scanner on parts of a line. -/

theorem Scan.next_offsetLF (s : Scan) (i : Nat) (c : UInt8) :
    (s.next i c).offsetLF = s.offsetLF ∨ (s.next i c).offsetLF = i := by
  unfold Scan.next
  split_ifs
  all_goals first | exact Or.inl rfl | exact Or.inr rfl

theorem scanHeader_open {i : Nat} {xs : Bytes} {s : Scan}
    (h : (scanHeader i xs s).offsetLF = -1) (ys : Bytes) :
    scanHeader i (xs ++ ys) s = scanHeader (i + xs.length) ys (scanHeader i xs s) := by
  induction xs generalizing i s with
  | nil => rfl
  | cons c cs ih =>
    rw [List.cons_append, List.length_cons, show i + (cs.length + 1) = i + 1 + cs.length by omega]
    simp only [scanHeader] at h ⊢
    by_cases hc : (s.next i c).offsetLF ≠ -1
    · rw [if_pos hc] at h
      exact absurd h hc
    · rw [if_neg hc] at h ⊢
      rw [if_neg hc]
      exact ih h

theorem scanHeader_closed {i : Nat} {xs : Bytes} {s : Scan} (hs : s.offsetLF = -1)
    (h : (scanHeader i xs s).offsetLF ≠ -1) :
    (scanHeader i xs s).offsetLF < i + xs.length ∧
      ∀ ys, scanHeader i (xs ++ ys) s = scanHeader i xs s := by
  induction xs generalizing i s with
  | nil => exact absurd hs h
  | cons c cs ih =>
    simp only [List.cons_append, List.length_cons, scanHeader] at h ⊢
    by_cases hc : (s.next i c).offsetLF ≠ -1
    · simp only [if_pos hc, implies_true, and_true]
      rcases s.next_offsetLF i c with e | e
      · exact absurd (e.trans hs) hc
      · omega
    · simp only [if_neg hc] at h ⊢
      obtain ⟨hlt, happ⟩ := ih (not_not.mp hc) h
      exact ⟨by omega, happ⟩

/-! Header lines. -/

/-- The offset the scanner notes for extensions that start at `e` of a line at `i`. -/
def offsetExt (i : Nat) : Option Nat → Int
  | none => -1
  | some k => i + k

/-- `h` is a header without its CRLF: the scanner finds no earlier end, the extensions
start at `e` if there are any, the number is `n`, and the extensions read as `metas`. -/
structure HeaderLine (h : Bytes) (n : Nat) (metas : List HttppMeta) (e : Option Nat) : Prop where
  scan : ∀ i, scanHeader i (h ++ crlf) Scan.start =
    ⟨0, offsetExt i e, i + h.length, i + h.length + 1⟩
  number : ∀ x, sscanfLlx (h.take (e.getD h.length) ++ nul :: x) = some n
  noExtentions : e = none → metas = []
  extentions : ∀ k, e = some k → k ≤ h.length ∧
    ∀ x, readExtentions (h.length - k + 1) (h.drop k ++ x) (h.length - k) = some metas

theorem HeaderLine.incomplete {h : Bytes} {n : Nat} {metas : List HttppMeta} {e : Option Nat}
    (H : HeaderLine h n metas e) {p : Bytes} (hp : p <+: h ++ crlf)
    (hlen : p.length < h.length + 2) (i : Nat) : (scanHeader i p Scan.start).offsetLF = -1 := by
  by_contra hne
  obtain ⟨hlt, happ⟩ := scanHeader_closed rfl hne
  obtain ⟨q, hq⟩ := hp
  have e1 := happ q
  rw [hq, H.scan i] at e1
  rw [← e1] at hlt
  simp only at hlt
  omega

theorem HeaderLine.complete {h : Bytes} {n : Nat} {metas : List HttppMeta} {e : Option Nat}
    (H : HeaderLine h n metas e) (i : Nat) (x : Bytes) :
    scanHeader i (h ++ crlf ++ x) Scan.start =
      ⟨0, offsetExt i e, i + h.length, i + h.length + 1⟩ := by
  have hne : (scanHeader i (h ++ crlf) Scan.start).offsetLF ≠ -1 := by
    rw [H.scan i]
    simp only
    omega
  rw [(scanHeader_closed rfl hne).2 x, H.scan i]

theorem drop_set_split {m h : Bytes} {o k : Nat} {x : Bytes} (hm : m.drop o = h ++ x)
    (hk : k ≤ h.length) (hx : x ≠ []) (c : UInt8) :
    ∃ y, (m.set (o + k) c).drop o = h.take k ++ c :: y := by
  have e : (m.set (o + k) c).drop o = (m.drop o).set k c := by
    rw [List.drop_set, if_neg (by omega), Nat.add_sub_cancel_left]
  have hlen : k < (m.drop o).length := by
    have := List.length_pos_iff.mpr hx
    rw [hm, List.length_append]
    omega
  refine ⟨(m.drop o).drop (k + 1), ?_⟩
  rw [e, List.set_eq_take_append_cons_drop, if_pos hlen, hm, List.take_append_of_le_length hk]

/-- A complete header: the entries are appended, the offset moves to the body and the
number decides how to go on. -/
theorem chunkHeader_spec {self : HttppEncoding} {m h x : Bytes} {o n : Nat}
    {metas : List HttppMeta} {e : Option Nat} (H : HeaderLine h n metas e)
    (hraw : self.bufReadRaw = ⟨some m, o⟩) (hm : m.drop o = h ++ crlf ++ x) (memBody : Bool) :
    ∃ m', m'.length = m.length ∧ m'.drop (o + h.length + 2) = x ∧
      chunkHeader memBody self = some (chunkBody memBody
        { self with
          metaRead := self.metaRead ++ metas
          bufReadRaw := ⟨some m', o + h.length + 2⟩
          bytesTillEof := if n = 0 then 2 else self.bytesTillEof } n) := by
  have hscan := H.complete o x
  rw [← hm] at hscan
  have hx : m.drop (o + h.length + 2) = x := by
    rw [show o + h.length + 2 = o + (h ++ crlf).length by
      rw [List.length_append]; simp only [crlf, List.length_cons, List.length_nil]; omega]
    rw [← List.drop_drop, hm, List.drop_left]
  have hne : crlf ++ x ≠ [] := by simp [crlf]
  cases e with
  | none =>
    refine ⟨m.set (o + h.length) nul, List.length_set, ?_, ?_⟩
    · rw [List.drop_set_of_lt (by omega), hx]
    · obtain ⟨y, hy⟩ := drop_set_split (k := h.length) (c := nul)
        (hm.trans (List.append_assoc ..)) (Nat.le_refl _) hne
      have hn := H.number y
      simp only [Option.getD_none] at hn
      unfold chunkHeader
      simp only [hraw, Buf.some_rest, hscan, offsetExt, Option.getD_some]
      rw [if_neg (by omega)]
      simp only [ne_eq, not_true_eq_false, if_false]
      have hc : ((o : Int) + h.length).toNat = o + h.length := by omega
      have hl : ((o : Int) + h.length + 1).toNat + 1 = o + h.length + 2 := by omega
      simp only [Option.bind_eq_bind, Option.bind_some, hc, hl, hy, hn]
      rw [if_neg (by omega), H.noExtentions rfl, List.append_nil]
  | some k =>
    obtain ⟨hk, hext⟩ := H.extentions k rfl
    refine ⟨m.set (o + k) nul, List.length_set, ?_, ?_⟩
    · rw [List.drop_set_of_lt (by omega), hx]
    · obtain ⟨y, hy⟩ := drop_set_split (c := nul) (hm.trans (List.append_assoc ..)) hk hne
      have hn := H.number y
      simp only [Option.getD_some] at hn
      have hdrop : m.drop (o + k) = h.drop k ++ (crlf ++ x) := by
        rw [← List.drop_drop, hm, List.append_assoc, List.drop_append_of_le_length hk]
      unfold chunkHeader
      simp only [hraw, Buf.some_rest, hscan, offsetExt, Option.getD_some]
      rw [if_neg (by omega)]
      have hne' : ((o : Int) + k) ≠ -1 := by omega
      have hc : ((o : Int) + k).toNat = o + k := by omega
      have hd : ((o : Int) + h.length - (o + k)).toNat = h.length - k := by omega
      have hl : ((o : Int) + h.length + 1).toNat + 1 = o + h.length + 2 := by omega
      simp only [if_pos hne', hc, hd, hdrop, encChunkedReadExtentions, hext, hl,
        Option.bind_eq_bind, Option.bind_some, hy, hn]
      rw [if_neg (by omega)]

/-! The body. -/

section

variable {self : HttppEncoding} {n : Nat}

/-- The buffer ends with the header. -/
theorem chunkBody_end (hok : self.bufReadRaw.Ok) (h : self.bufReadRaw.left = 0) (memBody : Bool) :
    chunkBody memBody self n =
      (some [], { self with bufReadRaw := Buf.null, readBytesTillHeader := (n + 2) % 2 ^ 64 }) := by
  have hend : self.bufReadRaw.offset = self.bufReadRaw.len := by
    unfold Buf.Ok at hok
    unfold Buf.left at h
    omega
  unfold chunkBody
  simp only [if_pos hend]

/-- A buffer that has more than the header does not stand at its end. -/
theorem offset_ne_len (h : 0 < self.bufReadRaw.left) : self.bufReadRaw.offset ≠ self.bufReadRaw.len := by
  unfold Buf.left at h
  omega

/-- The buffer ends within the body. -/
theorem chunkBody_part (hpos : 0 < self.bufReadRaw.left) (hle : self.bufReadRaw.left ≤ n) (memBody : Bool) :
    chunkBody memBody self n =
      (some [], { self with
        bufReadDecoded := self.bufReadRaw
        bufReadRaw := Buf.null
        readBytesTillHeader := (n + 2 - self.bufReadRaw.left) % 2 ^ 64 }) := by
  unfold chunkBody
  simp only [if_neg (offset_ne_len hpos), if_pos hle]

/-- There is no memory for the body. -/
theorem chunkBody_failed (h : n < self.bufReadRaw.left) :
    chunkBody false self n = (none, { self with bufReadDecoded := Buf.null }) := by
  unfold chunkBody
  simp only [if_neg (offset_ne_len (Nat.zero_lt_of_lt h)), if_neg (Nat.not_le.mpr h), if_true]

/-- The buffer ends between the CR and the LF behind the body. -/
theorem chunkBody_byte (h : self.bufReadRaw.left = n + 1) : ∃ raw : Buf,
    raw.Ok ∧ raw.rest = self.bufReadRaw.rest.drop n ∧
      chunkBody true self n =
        (some [], { self with
          bufReadDecoded := ⟨some (self.bufReadRaw.rest.take n), 0⟩
          bufReadRaw := raw
          readBytesTillHeader := 2 }) := by
  have hone : (Buf.mk self.bufReadRaw.mem (self.bufReadRaw.offset + n)).left = 1 := by
    show self.bufReadRaw.len - (self.bufReadRaw.offset + n) = 1
    unfold Buf.left at h
    omega
  refine ⟨⟨self.bufReadRaw.mem, self.bufReadRaw.offset + n⟩, ?_, List.drop_drop.symm, ?_⟩
  · show self.bufReadRaw.offset + n ≤ self.bufReadRaw.len
    unfold Buf.left at h
    omega
  · unfold chunkBody
    simp only [if_neg (offset_ne_len (show 0 < self.bufReadRaw.left by omega)),
      if_neg (show ¬ self.bufReadRaw.left ≤ n by omega), Bool.true_eq_false, if_false, hone]
    rfl

/-- The body and its CRLF are in the buffer. -/
theorem chunkBody_whole (h : n + 2 ≤ self.bufReadRaw.left) : ∃ raw : Buf,
    raw.Ok ∧ raw.rest = self.bufReadRaw.rest.drop (n + 2) ∧
      chunkBody true self n =
        (some [], { self with
          bufReadDecoded := ⟨some (self.bufReadRaw.rest.take n), 0⟩
          bufReadRaw := raw
          readBytesTillHeader := 0
          bytesTillEof := if self.bytesTillEof ≠ -1 then 0 else self.bytesTillEof }) := by
  have hleft (k : Nat) : (Buf.mk self.bufReadRaw.mem (self.bufReadRaw.offset + n + k)).left =
      self.bufReadRaw.left - n - k := by
    show self.bufReadRaw.len - (self.bufReadRaw.offset + n + k) = self.bufReadRaw.len - self.bufReadRaw.offset - n - k
    omega
  have htwo : 2 ≤ (Buf.mk self.bufReadRaw.mem (self.bufReadRaw.offset + n)).left := by
    have := hleft 0
    rw [Nat.add_zero] at this
    omega
  refine ⟨if self.bufReadRaw.left - n - 2 = 0 then Buf.null
    else ⟨self.bufReadRaw.mem, self.bufReadRaw.offset + n + 2⟩, ?_, ?_, ?_⟩
  · split_ifs
    · exact Buf.null_ok
    · show self.bufReadRaw.offset + n + 2 ≤ self.bufReadRaw.len
      unfold Buf.left at h
      omega
  · split_ifs with hz
    · rw [List.drop_of_length_le (by rw [Buf.rest_length]; omega), Buf.null_rest]
    · rw [Buf.rest, Buf.rest, List.drop_drop, Nat.add_assoc]
  · unfold chunkBody
    simp only [if_neg (offset_ne_len (show 0 < self.bufReadRaw.left by omega)),
      if_neg (show ¬ self.bufReadRaw.left ≤ n by omega), Bool.true_eq_false, if_false, if_pos htwo, hleft 2]

/-- All that can happen behind a header. -/
theorem chunkBody_cases (hok : self.bufReadRaw.Ok) (memBody : Bool) (n : Nat) :
    self.bufReadRaw.left = 0 ∧ chunkBody memBody self n =
        (some [], { self with bufReadRaw := Buf.null, readBytesTillHeader := (n + 2) % 2 ^ 64 }) ∨
      0 < self.bufReadRaw.left ∧ self.bufReadRaw.left ≤ n ∧ chunkBody memBody self n =
        (some [], { self with
          bufReadDecoded := self.bufReadRaw
          bufReadRaw := Buf.null
          readBytesTillHeader := (n + 2 - self.bufReadRaw.left) % 2 ^ 64 }) ∨
      n < self.bufReadRaw.left ∧ memBody = false ∧ chunkBody memBody self n =
        (none, { self with bufReadDecoded := Buf.null }) ∨
      (self.bufReadRaw.left = n + 1 ∧ memBody = true ∧ ∃ raw : Buf,
        raw.Ok ∧ raw.rest = self.bufReadRaw.rest.drop n ∧ chunkBody memBody self n =
          (some [], { self with
            bufReadDecoded := ⟨some (self.bufReadRaw.rest.take n), 0⟩
            bufReadRaw := raw
            readBytesTillHeader := 2 })) ∨
      n + 2 ≤ self.bufReadRaw.left ∧ memBody = true ∧ ∃ raw : Buf,
        raw.Ok ∧ raw.rest = self.bufReadRaw.rest.drop (n + 2) ∧ chunkBody memBody self n =
          (some [], { self with
            bufReadDecoded := ⟨some (self.bufReadRaw.rest.take n), 0⟩
            bufReadRaw := raw
            readBytesTillHeader := 0
            bytesTillEof := if self.bytesTillEof ≠ -1 then 0 else self.bytesTillEof }) := by
  rcases Nat.eq_zero_or_pos self.bufReadRaw.left with hzero | hpos
  · exact Or.inl ⟨hzero, chunkBody_end hok hzero memBody⟩
  refine Or.inr ?_
  by_cases hle : self.bufReadRaw.left ≤ n
  · exact Or.inl ⟨hpos, hle, chunkBody_part hpos hle memBody⟩
  refine Or.inr ?_
  cases memBody with
  | false => exact Or.inl ⟨Nat.lt_of_not_le hle, rfl, chunkBody_failed (Nat.lt_of_not_le hle)⟩
  | true =>
    refine Or.inr ?_
    by_cases hbyte : self.bufReadRaw.left = n + 1
    · exact Or.inl ⟨hbyte, rfl, chunkBody_byte hbyte⟩
    · have hwhole : n + 2 ≤ self.bufReadRaw.left := by omega
      exact Or.inr ⟨hwhole, rfl, chunkBody_whole hwhole⟩

end

/-! Lengths. -/

/-- The number a list of hexadecimal digits stands for. -/
def hexValue (ds : Bytes) : Nat :=
  ds.foldl (fun acc c => 16 * acc + (hexDigit c).getD 0) 0

def IsHex (c : UInt8) : Prop := hexDigit c ≠ none

instance : DecidablePred IsHex := fun c => inferInstanceAs (Decidable (hexDigit c ≠ none))

/-- The bytes that mean nothing to the scanner outside quotes. -/
def Plain (c : UInt8) : Prop := c ≠ quote ∧ c ≠ semicolon ∧ c ≠ cr ∧ c ≠ lf

theorem IsHex.cases {c : UInt8} (h : IsHex c) :
    48 ≤ c ∧ c ≤ 57 ∨ 97 ≤ c ∧ c ≤ 102 ∨ 65 ≤ c ∧ c ≤ 70 := by
  unfold IsHex hexDigit at h
  split_ifs at h with h1 h2 h3
  · exact Or.inl h1
  · exact Or.inr (Or.inl h2)
  · exact Or.inr (Or.inr h3)
  · exact absurd rfl h

theorem IsHex.ne_of {c d : UInt8} (h : IsHex c) (hd : hexDigit d = none) : c ≠ d := by
  intro e
  rw [e] at h
  exact h hd

theorem IsHex.plain {c : UInt8} (h : IsHex c) : Plain c :=
  ⟨h.ne_of (by decide), h.ne_of (by decide), h.ne_of (by decide), h.ne_of (by decide)⟩

theorem IsHex.not_space {c : UInt8} (h : IsHex c) : isSpace c = false := by
  have h1 : c ≠ 32 := h.ne_of (by decide)
  have h2 : ¬c ≤ 13 := by
    intro hle
    rcases h.cases with ⟨hc, _⟩ | ⟨hc, _⟩ | ⟨hc, _⟩
    all_goals exact absurd (UInt8.le_trans hc hle) (by decide)
  simp [isSpace, h1, h2]

theorem Scan.next_plain {s : Scan} (hq : s.inQuote = 0) {c : UInt8} (hc : Plain c) (i : Nat) :
    s.next i c = s := by
  obtain ⟨h1, h2, h3, h4⟩ := hc
  unfold Scan.next
  rw [if_neg (not_not.mpr hq), if_neg h1, if_neg (fun h => h2 h.1), if_neg h3,
    if_neg (fun h => h4 h.1)]

theorem scanHeader_plain {i : Nat} {xs : Bytes} {s : Scan} (hq : s.inQuote = 0)
    (hs : s.offsetLF = -1) (h : ∀ c ∈ xs, Plain c) : scanHeader i xs s = s := by
  induction xs generalizing i with
  | nil => rfl
  | cons c cs ih =>
    simp only [scanHeader]
    rw [Scan.next_plain hq (h c List.mem_cons_self), if_neg (not_not.mpr hs)]
    exact ih fun d hd => h d (List.mem_cons_of_mem _ hd)

/-- The CRLF that ends a header. -/
theorem scanHeader_crlf {i : Nat} {s : Scan} (hq : s.inQuote = 0) (hs : s.offsetLF = -1)
    (xs : Bytes) :
    scanHeader i (crlf ++ xs) s = { s with offsetCR := i, offsetLF := i + 1 } := by
  have h1 : s.next i cr = { s with offsetCR := i } := by
    unfold Scan.next
    rw [if_neg (not_not.mpr hq), if_neg (by decide), if_neg (by intro h; exact absurd h.1 (by decide)),
      if_pos rfl]
  have h2 : Scan.next { s with offsetCR := i } (i + 1) lf =
      { s with offsetCR := i, offsetLF := i + 1 } := by
    unfold Scan.next
    rw [if_neg (not_not.mpr hq), if_neg (by decide), if_neg (by intro h; exact absurd h.1 (by decide)),
      if_neg (by decide), if_pos ⟨rfl, by simp only; omega⟩]
    simp only [Int.natCast_add, Int.natCast_one]
  change scanHeader i (cr :: lf :: xs) s = _
  simp only [scanHeader]
  rw [h1, if_neg (not_not.mpr hs), h2, if_pos (by simp only; omega)]

theorem hexPrefix_append {ds x : Bytes} (h : ∀ c ∈ ds, IsHex c) (acc : Nat) :
    hexPrefix (ds ++ nul :: x) acc = ds.foldl (fun acc c => 16 * acc + (hexDigit c).getD 0) acc := by
  induction ds generalizing acc with
  | nil => rfl
  | cons c cs ih =>
    obtain ⟨d, hd⟩ := Option.ne_none_iff_exists'.mp (h c List.mem_cons_self)
    simp only [List.cons_append, hexPrefix, hd, List.foldl_cons, Option.getD_some]
    exact ih (fun d hd => h d (List.mem_cons_of_mem _ hd)) _

theorem hexNumber_digits {ds : Bytes} (hne : ds ≠ []) (h : ∀ c ∈ ds, IsHex c) (x : Bytes) :
    hexNumber (ds ++ nul :: x) = some (hexValue ds) := by
  have e := hexPrefix_append h 0 (x := x)
  cases ds with
  | nil => exact absurd rfl hne
  | cons c cs =>
    obtain ⟨d, hd⟩ := Option.ne_none_iff_exists'.mp (h c List.mem_cons_self)
    rw [List.cons_append] at e ⊢
    unfold hexNumber
    simp only [hd]
    cases cs with
    | nil =>
      simp only [List.nil_append] at e ⊢
      rw [if_neg (by intro hh; exact absurd hh.2 (by decide)), e]
      rfl
    | cons c' cs =>
      have hc' := h c' (List.mem_cons_of_mem _ List.mem_cons_self)
      rw [List.cons_append] at e ⊢
      simp only
      rw [if_neg ?_, e]
      · rfl
      · rintro ⟨_, hx | hx⟩
        · exact hc'.ne_of (by decide) hx
        · exact hc'.ne_of (by decide) hx

theorem sscanfLlx_digits {ds : Bytes} (hne : ds ≠ []) (h : ∀ c ∈ ds, IsHex c)
    (hfit : hexValue ds < 2 ^ 64) (x : Bytes) : sscanfLlx (ds ++ nul :: x) = some (hexValue ds) := by
  have e := hexNumber_digits hne h x
  cases ds with
  | nil => exact absurd rfl hne
  | cons c cs =>
    have hc := h c List.mem_cons_self
    rw [List.cons_append] at e ⊢
    unfold sscanfLlx
    rw [List.dropWhile_cons_of_neg (by rw [hc.not_space]; decide)]
    simp only
    rw [if_neg (hc.ne_of (by decide)), if_neg (hc.ne_of (by decide)), e, Option.map_some,
      Nat.min_eq_left (by omega)]

/-- A line that is a number only. -/
theorem headerLine_digits {ds : Bytes} (hne : ds ≠ []) (h : ∀ c ∈ ds, IsHex c)
    (hfit : hexValue ds < 2 ^ 64) : HeaderLine ds (hexValue ds) [] none where
  scan i := by
    have hp := scanHeader_plain (i := i) (s := Scan.start) rfl rfl fun c hc => (h c hc).plain
    rw [scanHeader_open (by rw [hp]; rfl), hp, ← List.append_nil crlf, scanHeader_crlf rfl rfl]
    simp only [Scan.start, offsetExt, Int.natCast_add]
  number x := by
    rw [Option.getD_none, List.take_length]
    exact sscanfLlx_digits hne h hfit x
  noExtentions _ := rfl
  extentions k hk := by cases hk

/-! Streams. -/

/-- A chunk of a stream; `ext` is where its extensions start in the header. -/
structure Chunk where
  header : Bytes
  body : Bytes
  metas : List HttppMeta
  ext : Option Nat
  line : HeaderLine header body.length metas ext
  nonempty : body ≠ []
  fits : body.length < 2 ^ 63

/-- What stands behind the chunks: the last chunk with its CRLF, or nothing yet. -/
inductive Ending where
  | last
  | open
deriving DecidableEq

/-- `0 CRLF CRLF`. -/
def lastChunk : Bytes := 48 :: (crlf ++ crlf)

def Ending.bytes : Ending → Bytes
  | .last => lastChunk
  | .open => []

def encode (cs : List Chunk) (e : Ending) : Bytes :=
  cs.flatMap (fun c => c.header ++ crlf ++ c.body ++ crlf) ++ e.bytes

def bodies (cs : List Chunk) : Bytes := cs.flatMap Chunk.body

def metasOf (cs : List Chunk) : List HttppMeta := cs.flatMap Chunk.metas

theorem lastLine : HeaderLine [48] 0 [] none :=
  headerLine_digits (List.cons_ne_nil _ _) (List.forall_mem_singleton.mpr (by decide)) (by decide)

end IcecastCommon.Encoding
