import IcecastCommon.Encoding.Write
import Mathlib.Data.List.TakeWhile
import IcecastCommon.Encoding.Stream

/- The extension text of the writer against the two readers of it, the header scanner and
   the extension parser. Both follow an entry whose value has no backslash. A backslash
   is lost in any case, and an empty value hides the entry behind it. -/
namespace IcecastCommon.Encoding

theorem escapeValue_quote (v : Bytes) :
    escapeValue (quote :: v) = backslash :: quote :: escapeValue v := rfl

theorem escapeValue_other {c : UInt8} (h : c ≠ quote) (v : Bytes) :
    escapeValue (c :: v) = c :: escapeValue v := by
  unfold escapeValue
  rw [List.flatMap_cons, if_neg h]
  rfl

/-! Entries. -/

/-- The bytes a key may have. -/
def IsToken (c : UInt8) : Prop :=
  c ≠ equals ∧ c ≠ semicolon ∧ c ≠ quote ∧ c ≠ cr ∧ c ≠ lf ∧ c ≠ nul

instance : DecidablePred IsToken := fun c =>
  inferInstanceAs (Decidable (c ≠ equals ∧ c ≠ semicolon ∧ c ≠ quote ∧ c ≠ cr ∧ c ≠ lf ∧ c ≠ nul))

/-- Metadata to attach: a token and any bytes but NUL. -/
structure Entry where
  key : Bytes
  value : Bytes
  keyNonempty : key ≠ []
  keyToken : ∀ c ∈ key, IsToken c
  valueNul : nul ∉ value

/-- The object that `httpp_encoding_meta_new` makes of an entry. -/
def Entry.toMeta (e : Entry) : HttppMeta := httppEncodingMetaNew (some e.key) (some e.value)

/-- An entry that both readers follow, whatever comes behind it. -/
def Entry.Solid (e : Entry) : Prop := backslash ∉ e.value ∧ e.value ≠ []

theorem Entry.nul_notMem_key (e : Entry) : nul ∉ e.key := fun h => (e.keyToken nul h).2.2.2.2.2 rfl

theorem Entry.toMeta_eq (e : Entry) : e.toMeta = ⟨some e.key, some e.value, e.value.length⟩ := by
  unfold Entry.toMeta httppEncodingMetaNew
  simp only [Option.map_some, Option.getD_some, cString_of_plain e.nul_notMem_key, cString_of_plain e.valueNul]

/-- The text of an entry. -/
def Entry.text (e : Entry) : Bytes := writeExtension e.toMeta

theorem Entry.text_solid {e : Entry} (h : e.value ≠ []) :
    e.text = semicolon :: e.key ++ equals :: quote :: (escapeValue e.value ++ [quote]) := by
  have hlen : e.value.length ≠ 0 := fun hz => h (List.eq_nil_of_length_eq_zero hz)
  unfold Entry.text writeExtension
  rw [e.toMeta_eq]
  simp only
  rw [if_neg (fun hh => by cases hh.2), if_pos hlen, cString_of_plain e.nul_notMem_key,
    Option.getD_some, List.take_length]
  rfl

theorem Entry.text_empty {e : Entry} (h : e.value = []) : e.text = semicolon :: e.key := by
  unfold Entry.text writeExtension
  rw [e.toMeta_eq, h]
  simp only
  rw [if_neg (fun hh => by cases hh.2), if_neg (fun hh => hh rfl), cString_of_plain e.nul_notMem_key,
    List.append_nil]

/-- The text of a list of entries. -/
def texts (es : List Entry) : Bytes := es.flatMap Entry.text

/-! The scanner. -/

/-- A byte in quotes. -/
theorem Scan.next_quoted {s : Scan} (hq : s.inQuote ≠ 0) (i : Nat) (c : UInt8) :
    s.next i c = { s with inQuote :=
      if c = backslash then 2 else if c = quote then s.inQuote - 1 else s.inQuote } := by
  unfold Scan.next
  rw [if_pos hq]
  split_ifs <;> rfl

theorem scanHeader_cons {i : Nat} {c : UInt8} {cs : Bytes} {s : Scan}
    (h : (s.next i c).offsetLF = -1) :
    scanHeader i (c :: cs) s = scanHeader (i + 1) cs (s.next i c) := by
  simp only [scanHeader]
  rw [if_neg (not_not.mpr h)]

section

variable {i : Nat} {s : Scan}

theorem scanHeader_key {xs : Bytes} (hq : s.inQuote = 0) (hs : s.offsetLF = -1)
    (h : ∀ c ∈ xs, IsToken c) : scanHeader i xs s = s :=
  scanHeader_plain hq hs fun c hc =>
    ⟨(h c hc).2.2.1, (h c hc).2.1, (h c hc).2.2.2.1, (h c hc).2.2.2.2.1⟩

theorem scanHeader_semicolon (hq : s.inQuote = 0) (hs : s.offsetLF = -1)
    (he : s.offsetExtentions ≠ -1) (cs : Bytes) :
    scanHeader i (semicolon :: cs) s = scanHeader (i + 1) cs s := by
  have h : s.next i semicolon = s := by
    unfold Scan.next
    rw [if_neg (not_not.mpr hq), if_neg (by decide), if_neg (fun hh => he hh.2), if_neg (by decide),
      if_neg (fun hh => absurd hh.1 (by decide))]
  rw [scanHeader_cons (by rw [h]; exact hs), h]

/-- The first `;` only notes where the extensions start. -/
theorem scanHeader_first (cs : Bytes) :
    scanHeader i (semicolon :: cs) Scan.start = scanHeader i (semicolon :: cs) ⟨0, i, -1, -1⟩ := by
  have hx : (i : Int) ≠ -1 := by omega
  rw [scanHeader_semicolon (s := ⟨0, i, -1, -1⟩) rfl rfl hx, scanHeader_cons rfl]
  rfl

theorem scanHeader_equals (hq : s.inQuote = 0) (hs : s.offsetLF = -1) (cs : Bytes) :
    scanHeader i (equals :: quote :: cs) s = scanHeader (i + 2) cs { s with inQuote := 1 } := by
  have h1 : s.next i equals = s :=
    Scan.next_plain hq ⟨by decide, by decide, by decide, by decide⟩ i
  have h2 : s.next (i + 1) quote = { s with inQuote := 1 } := by
    unfold Scan.next
    rw [if_neg (not_not.mpr hq), if_pos rfl]
  rw [scanHeader_cons (by rw [h1]; exact hs), h1, scanHeader_cons (by rw [h2]; exact hs), h2]

/-- A value without backslashes leaves the scanner in quotes. -/
theorem scanHeader_value {v : Bytes} (hv : backslash ∉ v) (hs : s.offsetLF = -1) (cs : Bytes) :
    scanHeader i (escapeValue v ++ cs) { s with inQuote := 1 } =
      scanHeader (i + (escapeValue v).length) cs { s with inQuote := 1 } := by
  -- on the value; an escaped quote takes the counter to 2 and back to 1
  have one : Scan.inQuote { s with inQuote := 1 } ≠ 0 := Nat.one_ne_zero
  have two : Scan.inQuote { s with inQuote := 2 } ≠ 0 := Nat.succ_ne_zero 1
  induction v generalizing i with
  | nil => rfl
  | cons c v ih =>
    have hc : c ≠ backslash := fun e => hv (e ▸ List.mem_cons_self)
    have hv' : backslash ∉ v := fun h => hv (List.mem_cons_of_mem _ h)
    by_cases hcq : c = quote
    · have h1 : Scan.next { s with inQuote := 1 } i backslash = { s with inQuote := 2 } :=
        Scan.next_quoted one i _
      have h2 : Scan.next { s with inQuote := 2 } (i + 1) quote = { s with inQuote := 1 } :=
        Scan.next_quoted two (i + 1) _
      rw [hcq, escapeValue_quote, List.cons_append, scanHeader_cons (by rw [h1]; exact hs), h1,
        List.cons_append, scanHeader_cons (by rw [h2]; exact hs), h2, ih hv', List.length_cons,
        List.length_cons]
      congr 1
      omega
    · have h1 : Scan.next { s with inQuote := 1 } i c = { s with inQuote := 1 } := by
        rw [Scan.next_quoted one, if_neg hc, if_neg hcq]
      rw [escapeValue_other hcq, List.cons_append, scanHeader_cons (by rw [h1]; exact hs), h1,
        ih hv', List.length_cons]
      congr 1
      omega

theorem scanHeader_solid {e : Entry} (he : e.Solid) (hq : s.inQuote = 0) (hs : s.offsetLF = -1)
    (hx : s.offsetExtentions ≠ -1) : scanHeader i e.text s = s := by
  have hkey := scanHeader_key (i := i + 1) hq hs e.keyToken
  have hclose : Scan.next { s with inQuote := 1 }
      (i + 1 + e.key.length + 2 + (escapeValue e.value).length) quote = s := by
    rw [Scan.next_quoted Nat.one_ne_zero]
    obtain ⟨inQuote, _, _, _⟩ := s
    cases hq
    rfl
  rw [Entry.text_solid he.2, List.cons_append, scanHeader_semicolon hq hs hx,
    scanHeader_open (by rw [hkey]; exact hs), hkey, scanHeader_equals hq hs,
    scanHeader_value he.1 hs, scanHeader_cons (by rw [hclose]; exact hs), hclose]
  rfl

theorem scanHeader_texts {es : List Entry} (h : ∀ e ∈ es, e.Solid) (hq : s.inQuote = 0)
    (hs : s.offsetLF = -1) (hx : s.offsetExtentions ≠ -1) : scanHeader i (texts es) s = s := by
  induction es generalizing i with
  | nil => rfl
  | cons e es ih =>
    have he := scanHeader_solid (i := i) (h e List.mem_cons_self) hq hs hx
    rw [texts, List.flatMap_cons, scanHeader_open (by rw [he]; exact hs), he]
    exact ih fun d hd => h d (List.mem_cons_of_mem _ hd)

end

/-! The parser. -/

theorem measureValue_value {v : Bytes} (hv : backslash ∉ v) (cs : Bytes) :
    measureValue 1 (escapeValue v ++ quote :: cs) = (escapeValue v).length + 1 := by
  induction v with
  | nil => rfl
  | cons c v ih =>
    have hc : c ≠ backslash := fun e => hv (e ▸ List.mem_cons_self)
    have ih := ih fun h => hv (List.mem_cons_of_mem _ h)
    by_cases hcq : c = quote
    · rw [hcq, escapeValue_quote]
      show measureValue 1 (escapeValue v ++ quote :: cs) + 1 + 1 = _
      rw [ih, List.length_cons, List.length_cons]
    · rw [escapeValue_other hcq, List.cons_append, measureValue]
      simp only [if_neg hc, if_neg hcq]
      rw [if_pos (by decide), if_pos (by decide), ih, List.length_cons]

theorem decodeValue_value {v : Bytes} (hv : backslash ∉ v) (p : Bytes) :
    decodeValue p 1 (escapeValue v ++ [quote]) = some v := by
  induction v with
  | nil => rfl
  | cons c v ih =>
    have hc : c ≠ backslash := fun e => hv (e ▸ List.mem_cons_self)
    have ih := ih fun h => hv (List.mem_cons_of_mem _ h)
    by_cases hcq : c = quote
    · rw [hcq, escapeValue_quote]
      show (decodeValue p 1 (escapeValue v ++ [quote])).bind (fun w => some (quote :: w)) = _
      rw [ih]
      rfl
    · rw [escapeValue_other hcq, List.cons_append, decodeValue]
      simp only [if_neg hc, if_neg hcq]
      rw [if_pos (by decide), ih]
      rfl

/-- In quotes every backslash is dropped. -/
theorem decodeValue_quoted {p cs v : Bytes} {q : Nat} (hq : q ≠ 0)
    (h : decodeValue p q cs = some v) : backslash ∉ v := by
  induction cs generalizing q v with
  | nil =>
    cases h
    exact List.not_mem_nil
  | cons c cs ih =>
    rw [decodeValue, if_pos hq] at h
    by_cases hc : c = backslash
    · rw [if_pos hc] at h
      exact ih (by decide) h
    rw [if_neg hc] at h
    by_cases hcq : c = quote
    · rw [if_pos hcq] at h
      by_cases hq1 : q - 1 ≠ 0
      · rw [if_pos hq1] at h
        obtain ⟨w, hw, hv⟩ := Option.bind_eq_some_iff.mp h
        cases hv
        intro hmem
        rcases List.mem_cons.mp hmem with e | hmem
        · exact absurd e (by decide)
        · exact ih hq1 hw hmem
      · rw [if_neg hq1] at h
        cases h
        exact List.not_mem_nil
    · rw [if_neg hcq] at h
      obtain ⟨w, hw, hv⟩ := Option.bind_eq_some_iff.mp h
      cases hv
      intro hmem
      rcases List.mem_cons.mp hmem with e | hmem
      · exact hc e.symm
      · exact ih hq hw hmem

/-- A key ends at the first `=`. -/
theorem takeWhile_equals {key : Bytes} (h : equals ∉ key) (t : Bytes) :
    (key ++ equals :: t).takeWhile (fun c => decide (c ≠ equals)) = key := by
  have hfree (c : UInt8) (hc : c ∈ key) : decide (c ≠ equals) = true := decide_eq_true fun e => h (e ▸ hc)
  rw [List.takeWhile_append_of_pos hfree, List.takeWhile_cons_of_neg (by decide), List.append_nil]

theorem Entry.equals_notMem_key (e : Entry) : equals ∉ e.key := fun h => (e.keyToken _ h).1 rfl

/-- One step of the parser, at an extension that has something behind its `=`: the value is
measured in the extensions alone, and decoded with all bytes behind it. -/
theorem readExtentions_step {key : Bytes} (hkey : equals ∉ key) (z : Bytes) {n : Nat} (hn : 0 < n) (fuel : Nat) :
    readExtentions (fuel + 1) (semicolon :: (key ++ equals :: z)) (key.length + n + 2) =
      (decodeValue (z.drop (measureValue 0 (z.take n))) 0 (z.take (measureValue 0 (z.take n)))).bind fun value =>
        (readExtentions fuel (z.drop (measureValue 0 (z.take n))) (n - measureValue 0 (z.take n))).map fun next =>
          ⟨some key, some value, value.length⟩ :: next := by
  have hlen : key.length + n + 2 = key.length + (n + 1) + 1 := rfl
  have hkeyLen : ((key ++ equals :: z).take (key.length + (n + 1))).takeWhile
      (fun c => decide (c ≠ equals)) = key := by
    rw [List.take_length_add_append, List.take_succ_cons]
    exact takeWhile_equals hkey _
  rw [hlen, readExtentions, if_neg (by omega)]
  simp only [ne_eq, not_true_eq_false, if_false, Nat.add_sub_cancel, hkeyLen, List.take_left, List.drop_left,
    Nat.add_sub_cancel_left]
  rw [if_neg (by omega)]
  simp only [List.drop_succ_cons, List.drop_zero]
  refine congrArg (Option.bind _) (funext fun value => ?_)
  cases readExtentions fuel (z.drop (measureValue 0 (z.take n))) (n - measureValue 0 (z.take n)) <;> rfl

/-- One entry with a value, and the rest. -/
theorem readExtentions_solid {e : Entry} (he : e.Solid) (fuel : Nat) (y : Bytes) (len : Nat) :
    readExtentions (fuel + 1) (e.text ++ y) (e.text.length + len) =
      (readExtentions fuel y len).map (e.toMeta :: ·) := by
  have htext : e.text ++ y =
      semicolon :: (e.key ++ equals :: quote :: (escapeValue e.value ++ quote :: y)) := by
    rw [Entry.text_solid he.2]
    simp only [List.cons_append, List.append_assoc, List.nil_append]
  have hlen : e.text.length + len = e.key.length + ((escapeValue e.value).length + (len + 1) + 1) + 2 := by
    rw [Entry.text_solid he.2]
    simp only [List.cons_append, List.length_cons, List.length_append, List.length_nil]
    omega
  have hvalue : (quote :: (escapeValue e.value ++ quote :: y)).take
      ((escapeValue e.value).length + (len + 1) + 1) =
      quote :: (escapeValue e.value ++ quote :: y.take len) := by
    rw [List.take_succ_cons, List.take_length_add_append, List.take_succ_cons]
  have hmeasure : measureValue 0 (quote :: (escapeValue e.value ++ quote :: y.take len)) =
      (escapeValue e.value).length + 2 := by
    show measureValue 1 (escapeValue e.value ++ quote :: y.take len) + 1 = _
    rw [measureValue_value he.1]
  have htake : (quote :: (escapeValue e.value ++ quote :: y)).take
      ((escapeValue e.value).length + 2) = quote :: (escapeValue e.value ++ [quote]) := by
    rw [List.take_succ_cons, List.take_length_add_append]
    rfl
  have hdrop : (quote :: (escapeValue e.value ++ quote :: y)).drop
      ((escapeValue e.value).length + 2) = y := by
    rw [List.drop_succ_cons, List.drop_length_add_append]
    rfl
  have hdecode : decodeValue y 0 (quote :: (escapeValue e.value ++ [quote])) = some e.value :=
    decodeValue_value he.1 y
  have hrest : (escapeValue e.value).length + (len + 1) + 1 - ((escapeValue e.value).length + 2) = len := by
    omega
  rw [htext, hlen, readExtentions_step e.equals_notMem_key _ (Nat.succ_pos _), hvalue, hmeasure, htake, hdrop,
    hdecode, hrest, e.toMeta_eq]
  rfl

theorem readExtentions_texts {es : List Entry} (h : ∀ e ∈ es, e.Solid) (y : Bytes) (len : Nat)
    (fuel : Nat) (hfuel : (texts es).length + len < fuel) :
    ∃ fuel', len < fuel' ∧ readExtentions fuel (texts es ++ y) ((texts es).length + len) =
      (readExtentions fuel' y len).map (es.map Entry.toMeta ++ ·) := by
  induction es generalizing fuel with
  | nil =>
    refine ⟨fuel, by simpa [texts] using hfuel, ?_⟩
    show readExtentions fuel y (0 + len) = _
    rw [Nat.zero_add]
    cases readExtentions fuel y len <;> rfl
  | cons e es ih =>
    have hsplit : texts (e :: es) = e.text ++ texts es := rfl
    rw [hsplit, List.length_append] at hfuel
    cases fuel with
    | zero => exact absurd hfuel (Nat.not_lt_zero _)
    | succ fuel =>
      have hpos : 0 < e.text.length := by
        rw [Entry.text_solid (h e List.mem_cons_self).2]
        exact Nat.succ_pos _
      obtain ⟨fuel', hfuel', heq⟩ :=
        ih (fun d hd => h d (List.mem_cons_of_mem _ hd)) fuel (by omega)
      refine ⟨fuel', hfuel', ?_⟩
      rw [hsplit, List.append_assoc, List.length_append, Nat.add_assoc,
        readExtentions_solid (h e List.mem_cons_self), heq, Option.map_map]
      rfl

/-- A key at the very end. -/
theorem readExtentions_key {key : Bytes} (hkey : equals ∉ key) (fuel : Nat) (y : Bytes) :
    readExtentions (fuel + 1) (semicolon :: key ++ y) (key.length + 1) =
      some [⟨some key, none, 0⟩] := by
  have hkeyLen : ((key ++ y).take key.length).takeWhile (fun c => decide (c ≠ equals)) = key := by
    rw [List.take_left, List.takeWhile_eq_self_iff]
    intro c hc
    exact decide_eq_true fun e => hkey (e ▸ hc)
  rw [List.cons_append, readExtentions, if_neg (by omega)]
  simp only [ne_eq, not_true_eq_false, if_false, Nat.add_sub_cancel, hkeyLen]
  rw [if_pos (Or.inl (Nat.sub_self _)), List.take_left]

/-- A key without a value swallows the `;` behind it. -/
theorem readExtentions_hidden {key : Bytes} (h : ∀ c ∈ key, IsToken c) {fuel len : Nat} {z : Bytes}
    {ms : List HttppMeta} (hlen : key.length + 2 ≤ len)
    (hread : readExtentions fuel (semicolon :: (key ++ semicolon :: z)) len = some ms) :
    ∃ k m rest, ms = m :: rest ∧ m.key = some k ∧ semicolon ∈ k := by
  cases fuel with
  | zero => cases hread
  | succ fuel =>
    obtain ⟨n, rfl⟩ : ∃ n, len = key.length + (n + 1) + 1 := ⟨len - key.length - 2, by omega⟩
    have hkey : ((key ++ semicolon :: z).take (key.length + (n + 1))).takeWhile
        (fun c => decide (c ≠ equals)) =
        key ++ semicolon :: (z.take n).takeWhile (fun c => decide (c ≠ equals)) := by
      rw [List.take_length_add_append, List.take_succ_cons,
        List.takeWhile_append_of_pos fun c hc => decide_eq_true (h c hc).1,
        List.takeWhile_cons_of_pos (by decide)]
    have hmem : semicolon ∈ (key ++ semicolon :: z).take
        (key ++ semicolon :: (z.take n).takeWhile (fun c => decide (c ≠ equals))).length := by
      rw [List.length_append, List.length_cons, List.take_length_add_append, List.take_succ_cons]
      exact List.mem_append_right _ List.mem_cons_self
    rw [readExtentions, if_neg (by omega)] at hread
    simp only [ne_eq, not_true_eq_false, if_false, Nat.add_sub_cancel, hkey] at hread
    split_ifs at hread
    · cases hread
      exact ⟨_, _, _, rfl, rfl, hmem⟩
    · obtain ⟨v, _, hrest⟩ := Option.bind_eq_some_iff.mp hread
      obtain ⟨rest, _, hms⟩ := Option.bind_eq_some_iff.mp hrest
      cases hms
      exact ⟨_, _, _, rfl, rfl, hmem⟩

/-- A quoted value never has a backslash. -/
theorem readExtentions_lost {e : Entry} {fuel len : Nat} {z : Bytes} {ms : List HttppMeta}
    (hlen : e.key.length + 3 ≤ len)
    (hread : readExtentions fuel (semicolon :: (e.key ++ equals :: quote :: z)) len = some ms) :
    ∃ v m rest, ms = m :: rest ∧ m.value = some v ∧ backslash ∉ v := by
  cases fuel with
  | zero => cases hread
  | succ fuel =>
    obtain ⟨n, rfl⟩ : ∃ n, len = e.key.length + (n + 1) + 2 := ⟨len - e.key.length - 3, by omega⟩
    rw [readExtentions_step e.equals_notMem_key _ (Nat.succ_pos n), List.take_succ_cons] at hread
    have hmeasure : measureValue 0 (quote :: z.take n) = measureValue 1 (z.take n) + 1 := rfl
    rw [hmeasure, List.take_succ_cons] at hread
    obtain ⟨v, hv, hrest⟩ := Option.bind_eq_some_iff.mp hread
    obtain ⟨rest, _, rfl⟩ := Option.map_eq_some_iff.mp hrest
    exact ⟨v, _, _, rfl, rfl, decodeValue_quoted Nat.one_ne_zero hv⟩

/-! Lists of entries. -/

/-- What the two sides of a round trip are compared by: an absent value is an empty one. -/
def HttppMeta.pair (m : HttppMeta) : Option Bytes × Bytes := (m.key, m.value.getD [])

def Entry.pair (e : Entry) : Option Bytes × Bytes := (some e.key, e.value)

/-- The lists that survive: no value has a backslash, and only the last may be empty. -/
def Survives (es : List Entry) : Prop :=
  (∀ e ∈ es, backslash ∉ e.value) ∧ ∀ e ∈ es.dropLast, e.value ≠ []

/-- An entry that is not read back: its value has a backslash, or it is empty and `post`
comes behind it. -/
def Entry.Bad (e : Entry) (post : List Entry) : Prop :=
  backslash ∈ e.value ∨ e.value = [] ∧ post ≠ []

theorem entries_cases (es : List Entry) :
    ∃ pre rest, es = pre ++ rest ∧ (∀ e ∈ pre, e.Solid) ∧
      (Survives es ∧ (rest = [] ∨ ∃ e, rest = [e] ∧ e.value = []) ∨
        ¬Survives es ∧ ∃ e post, rest = e :: post ∧ e.Bad post) := by
  induction es with
  | nil =>
    refine ⟨[], [], rfl, fun _ h => absurd h List.not_mem_nil, Or.inl ⟨⟨?_, ?_⟩, Or.inl rfl⟩⟩
    · exact fun _ h => absurd h List.not_mem_nil
    · exact fun _ h => absurd h List.not_mem_nil
  | cons e es ih =>
    by_cases hb : backslash ∈ e.value
    · refine ⟨[], e :: es, rfl, fun _ h => absurd h List.not_mem_nil, Or.inr ⟨?_, e, es, rfl, Or.inl hb⟩⟩
      exact fun h => h.1 e List.mem_cons_self hb
    by_cases hv : e.value = []
    · cases es with
      | nil =>
        refine ⟨[], [e], rfl, fun _ h => absurd h List.not_mem_nil,
          Or.inl ⟨⟨?_, fun _ h => absurd h List.not_mem_nil⟩, Or.inr ⟨e, rfl, hv⟩⟩⟩
        intro d hd
        rw [List.mem_singleton.mp hd]
        exact hb
      | cons d es =>
        refine ⟨[], e :: d :: es, rfl, fun _ h => absurd h List.not_mem_nil,
          Or.inr ⟨fun h => h.2 e List.mem_cons_self hv, e, d :: es, rfl, Or.inr ⟨hv, ?_⟩⟩⟩
        exact List.cons_ne_nil _ _
    · obtain ⟨pre, rest, rfl, hpre, hcases⟩ := ih
      have hsolid : ∀ d ∈ e :: pre, d.Solid := by
        intro d hd
        rcases List.mem_cons.mp hd with rfl | hd
        · exact ⟨hb, hv⟩
        · exact hpre d hd
      have hiff : Survives (e :: (pre ++ rest)) ↔ Survives (pre ++ rest) := by
        constructor
        · rintro ⟨h1, h2⟩
          refine ⟨fun d hd => h1 d (List.mem_cons_of_mem _ hd), fun d hd => h2 d ?_⟩
          cases hpr : pre ++ rest with
          | nil =>
            rw [hpr] at hd
            exact absurd hd List.not_mem_nil
          | cons a t =>
            rw [hpr] at hd
            exact List.mem_cons_of_mem _ hd
        · rintro ⟨h1, h2⟩
          refine ⟨fun d hd => ?_, fun d hd => ?_⟩
          · rcases List.mem_cons.mp hd with rfl | hd
            · exact hb
            · exact h1 d hd
          · cases hpr : pre ++ rest with
            | nil =>
              rw [hpr] at hd
              exact absurd hd List.not_mem_nil
            | cons a t =>
              rw [hpr] at hd h2
              rcases List.mem_cons.mp hd with rfl | hd
              · exact hv
              · exact h2 d hd
      refine ⟨e :: pre, rest, rfl, hsolid, ?_⟩
      rw [hiff]
      exact hcases

end IcecastCommon.Encoding
