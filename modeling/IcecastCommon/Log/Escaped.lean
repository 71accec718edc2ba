import IcecastCommon.Log.Emitted

/- What `%H` writes of a string. Its bytes are safe for a log, whatever the string, the flags,
   the length and the room. The length of the whole text goes through an `int`: the text is
   whole where that length is below 2^32 and what is left of it at the first escape below
   2^31. -/
namespace IcecastCommon.Log
open Encoding (Bytes nul quote backslash hexChar cString)
open Httpp (space)

/-! Safe bytes. -/

/-- Fit for a line of the log. -/
structure SafeByte (allowSpace : Bool) (c : UInt8) : Prop where
  low : 32 ≤ c
  high : c ≤ 127
  noBacktick : c ≠ backtick
  noQuote : c ≠ quote
  noSpace : c = space → allowSpace = true

/-- Safe bytes, in the quotes of the alternate form or what is left of these. -/
def SafeText (alt allowSpace : Bool) (text : Bytes) : Prop :=
  ∃ opening body closing, text = opening ++ body ++ closing ∧ (∀ c ∈ body, SafeByte allowSpace c) ∧
    (opening = [] ∨ alt = true ∧ opening = [quote]) ∧ (closing = [] ∨ alt = true ∧ closing = [quote])

theorem safeByte_of_lt {allowSpace : Bool} {c : UInt8} (h : 35 ≤ c ∧ c ≤ 127 ∧ c ≠ backtick) :
    SafeByte allowSpace c := by
  obtain ⟨hlow, hhigh, hbacktick⟩ := h
  have hne : ∀ d, d < 35 → c ≠ d := by
    intro d hd e
    rw [e] at hlow
    exact absurd hlow (by simpa using hd)
  refine ⟨UInt8.le_trans (by decide) hlow, hhigh, hbacktick, hne quote (by decide), ?_⟩
  exact fun e => absurd e (hne space (by decide))

theorem isPrint_safe {allowSpace : Bool} {c : UInt8} (h : isPrint c allowSpace = true) :
    SafeByte allowSpace c := by
  have hcases : (allowSpace = true ∧ c = space) ∨
      (¬ c.toBitVec.toInt ≤ quote.toBitVec.toInt ∧ c ≠ backtick ∧ c ≠ backslash) := by
    rw [isPrint, decide_eq_true_eq] at h
    tauto
  rcases hcases with ⟨hallow, rfl⟩ | ⟨hquote, hbacktick, _⟩
  · exact ⟨by decide, by decide, by decide, by decide, fun _ => hallow⟩
  · have h34 : quote.toBitVec.toInt = 34 := by decide
    have hnat : c.toBitVec.toNat = c.toNat := rfl
    have hlt := c.toNat_lt
    rw [h34, BitVec.toInt_eq_toNat_cond, hnat] at hquote
    have hrange : 35 ≤ c.toNat ∧ c.toNat ≤ 127 := by
      split at hquote <;> omega
    apply safeByte_of_lt
    rw [UInt8.le_iff_toNat_le, UInt8.le_iff_toNat_le]
    exact ⟨hrange.1, hrange.2, hbacktick⟩

theorem hexChar_range : ∀ d < 16, 35 ≤ hexChar d ∧ hexChar d ≤ 127 ∧ hexChar d ≠ backtick := by decide

theorem nibbles_lt (c : UInt8) : c.toNat / 16 < 16 ∧ c.toNat % 16 < 16 := by
  have h := c.toNat_lt
  omega

theorem escapeChunk_safe (allowSpace : Bool) (c : UInt8) (size : Nat) (len : BitVec 32) :
    ∀ d ∈ escapeChunk allowSpace c size len, SafeByte allowSpace d := by
  intro d hd
  rw [escapeChunk] at hd
  by_cases hprint : isPrint c allowSpace = true
  · rw [if_pos hprint, List.mem_singleton] at hd
    rw [hd]
    exact isPrint_safe hprint
  · rw [if_neg hprint] at hd
    by_cases hroom : size < 4 ∨ len.toInt < 4
    · rw [if_pos hroom, List.mem_singleton] at hd
      rw [hd]
      exact safeByte_of_lt (by decide)
    · rw [if_neg hroom] at hd
      simp only [List.mem_cons, List.not_mem_nil, or_false] at hd
      obtain ⟨hhigh, hlow⟩ := nibbles_lt c
      rcases hd with rfl | rfl | rfl | rfl
      · exact safeByte_of_lt (by decide)
      · exact safeByte_of_lt (by decide)
      · exact safeByte_of_lt (hexChar_range _ hhigh)
      · exact safeByte_of_lt (hexChar_range _ hlow)

theorem escapeText_safe (allowSpace : Bool) (arg : Bytes) (size : Nat) (len : BitVec 32) :
    ∀ d ∈ escapeText allowSpace arg size len, SafeByte allowSpace d := by
  induction arg generalizing size len with
  | nil => exact fun d hd => absurd hd List.not_mem_nil
  | cons c arg ih =>
    intro d hd
    rw [escapeText] at hd
    by_cases h : c ≠ nul ∧ len ≠ 0 ∧ size ≠ 0
    · rw [if_pos h] at hd
      rcases List.mem_append.mp hd with hd | hd
      · exact escapeChunk_safe allowSpace c size len d hd
      · exact ih _ _ d hd
    · rw [if_neg h] at hd
      cases hd

theorem quoteText_safe (alt : Bool) (size : Nat) (len : BitVec 32) :
    quoteText alt size len = [] ∨ alt = true ∧ quoteText alt size len = [quote] := by
  cases alt with
  | false => exact Or.inl rfl
  | true =>
    rw [quoteText, if_pos rfl, single]
    by_cases h : size ≠ 0 ∧ len ≠ 0
    · rw [if_pos h]
      exact Or.inr ⟨rfl, rfl⟩
    · rw [if_neg h]
      exact Or.inl rfl

theorem quotedText_safe (alt allowSpace : Bool) (arg : Bytes) (size : Nat) (len : BitVec 32) :
    SafeText alt allowSpace (quotedText alt allowSpace arg size len) :=
  ⟨_, _, _, rfl, escapeText_safe allowSpace arg _ _, quoteText_safe .., quoteText_safe ..⟩

/-! Whole texts. -/

/-- The length that a character takes. -/
def width (allowSpace : Bool) (c : UInt8) : Nat := if isPrint c allowSpace then 1 else 4

/-- A character as it is written. -/
def escaped (allowSpace : Bool) (c : UInt8) : Bytes :=
  if isPrint c allowSpace then [c]
  else [backslash, letterX, hexChar (c.toNat / 16), hexChar (c.toNat % 16)]

def hexValue (c : UInt8) : Nat := if c.toNat < 58 then c.toNat - 48 else c.toNat - 87

/-- The escapes `\xHH` are undone. -/
def undo : Bytes → Bytes
  | [] => []
  | c :: text =>
    if c = backslash then
      match text with
      | _ :: a :: b :: text => UInt8.ofNat (16 * hexValue a + hexValue b) :: undo text
      | _ => []
    else c :: undo text

theorem undo_other {c : UInt8} (h : c ≠ backslash) (text : Bytes) : undo (c :: text) = c :: undo text := by
  match text with
  | [] => exact if_neg h
  | [_] => exact if_neg h
  | [_, _] => exact if_neg h
  | _ :: _ :: _ :: _ => exact if_neg h

theorem hexValue_hexChar : ∀ d < 16, hexValue (hexChar d) = d := by decide

theorem isPrint_backslash {allowSpace : Bool} {c : UInt8} (h : isPrint c allowSpace = true) : c ≠ backslash := by
  rintro rfl
  rw [isPrint, decide_eq_true_eq] at h
  exact h ⟨Or.inr (Or.inr rfl), fun hand => absurd hand.2 (by decide)⟩

theorem undo_escaped (allowSpace : Bool) (c : UInt8) (text : Bytes) :
    undo (escaped allowSpace c ++ text) = c :: undo text := by
  rw [escaped]
  by_cases hprint : isPrint c allowSpace = true
  · rw [if_pos hprint, List.singleton_append, undo_other (isPrint_backslash hprint)]
  · obtain ⟨hhigh, hlow⟩ := nibbles_lt c
    have hbyte : UInt8.ofNat (16 * hexValue (hexChar (c.toNat / 16)) + hexValue (hexChar (c.toNat % 16))) = c := by
      rw [hexValue_hexChar _ hhigh, hexValue_hexChar _ hlow, Nat.div_add_mod, UInt8.ofNat_toNat]
    rw [if_neg hprint]
    show UInt8.ofNat _ :: undo text = _
    rw [hbyte]

theorem undo_text (allowSpace : Bool) (arg : Bytes) : undo (arg.flatMap (escaped allowSpace)) = arg := by
  induction arg with
  | nil => rfl
  | cons c arg ih => rw [List.flatMap_cons, undo_escaped, ih]

theorem escapedLength_cons (allowSpace : Bool) (c : UInt8) (arg : Bytes) :
    escapedLength allowSpace (c :: arg) = width allowSpace c + escapedLength allowSpace arg := by
  rw [escapedLength, List.map_cons, List.sum_cons]
  rfl

theorem width_pos (allowSpace : Bool) (c : UInt8) : 1 ≤ width allowSpace c ∧ width allowSpace c ≤ 4 := by
  rw [width]
  split <;> omega

theorem escaped_length (allowSpace : Bool) (c : UInt8) : (escaped allowSpace c).length = width allowSpace c := by
  rw [escaped, width]
  split <;> rfl

theorem text_length (allowSpace : Bool) (arg : Bytes) :
    (arg.flatMap (escaped allowSpace)).length = escapedLength allowSpace arg := by
  induction arg with
  | nil => rfl
  | cons c arg ih => rw [List.flatMap_cons, List.length_append, escaped_length, ih, escapedLength_cons]

theorem escapeChunk_width (allowSpace : Bool) (c : UInt8) (size : Nat) (len : BitVec 32) :
    (escapeChunk allowSpace c size len).length ≤ width allowSpace c := by
  rw [escapeChunk, width]
  by_cases hprint : isPrint c allowSpace = true
  · rw [if_pos hprint, if_pos hprint, List.length_singleton]
  · rw [if_neg hprint, if_neg hprint]
    split <;> simp

/-- No more is written than the text of the string. -/
theorem escapeText_width (allowSpace : Bool) {arg : Bytes} (hplain : nul ∉ arg) (behind : Bytes) (size : Nat)
    (len : BitVec 32) :
    (escapeText allowSpace (arg ++ nul :: behind) size len).length ≤ escapedLength allowSpace arg := by
  induction arg generalizing size len with
  | nil =>
    rw [List.nil_append, escapeText, if_neg fun h => h.1 rfl]
    exact Nat.zero_le _
  | cons c arg ih =>
    rw [List.cons_append, escapeText, escapedLength_cons]
    by_cases h : c ≠ nul ∧ len ≠ 0 ∧ size ≠ 0
    · rw [if_pos h]
      have hchunk := escapeChunk_width allowSpace c size len
      have hrest := ih (fun hm => hplain (List.mem_cons_of_mem c hm))
        (size - (escapeChunk allowSpace c size len).length)
        (len - BitVec.ofNat 32 (escapeChunk allowSpace c size len).length)
      dsimp only
      rw [List.length_append]
      omega
    · rw [if_neg h]
      exact Nat.zero_le _

/-! The length as an `int`. -/

theorem ofNat_eq_zero (n : Nat) : BitVec.ofNat 32 n = 0 ↔ n % 2 ^ 32 = 0 := by
  rw [BitVec.toNat_eq, BitVec.toNat_ofNat]
  rfl

theorem ofNat_small (n : Nat) : (BitVec.ofNat 32 n).toInt < 4 ↔ ¬ (4 ≤ n % 2 ^ 32 ∧ n % 2 ^ 32 < 2 ^ 31) := by
  rw [BitVec.toInt_eq_toNat_cond, BitVec.toNat_ofNat]
  split <;> omega

theorem ofNat_sub {m n : Nat} (h : m ≤ n) : BitVec.ofNat 32 n - BitVec.ofNat 32 m = BitVec.ofNat 32 (n - m) := by
  apply BitVec.eq_of_toNat_eq
  rw [BitVec.toNat_sub, BitVec.toNat_ofNat, BitVec.toNat_ofNat, BitVec.toNat_ofNat]
  omega

section
variable {allowSpace : Bool} {c : UInt8} {n size : Nat}

/-- A byte is written whole when it is safe, or with room for its escape. -/
theorem escapeChunk_whole (hsize : width allowSpace c ≤ size)
    (hfits : isPrint c allowSpace = true ∨ 4 ≤ n % 2 ^ 32 ∧ n % 2 ^ 32 < 2 ^ 31) :
    escapeChunk allowSpace c size (BitVec.ofNat 32 n) = escaped allowSpace c := by
  rw [escapeChunk, escaped]
  by_cases hprint : isPrint c allowSpace = true
  · rw [if_pos hprint, if_pos hprint]
  · have hwidth : width allowSpace c = 4 := if_neg hprint
    have hint : ¬ (BitVec.ofNat 32 n).toInt < 4 := by
      rw [ofNat_small]
      exact not_not.mpr (hfits.resolve_left hprint)
    rw [if_neg hprint, if_neg hprint, if_neg]
    rintro (hsmall | hsmall)
    · omega
    · exact hint hsmall

/-- Else there is a dot in its place. -/
theorem escapeChunk_dot (size : Nat)
    (hno : ¬ (isPrint c allowSpace = true ∨ 4 ≤ n % 2 ^ 32 ∧ n % 2 ^ 32 < 2 ^ 31)) :
    escapeChunk allowSpace c size (BitVec.ofNat 32 n) = [period] := by
  have hprint : ¬ isPrint c allowSpace = true := fun h => hno (Or.inl h)
  have hsmall : (BitVec.ofNat 32 n).toInt < 4 := (ofNat_small n).mpr fun h => hno (Or.inr h)
  rw [escapeChunk, if_neg hprint, if_pos (Or.inr hsmall)]

end

/-- With `k` more bytes behind the string, the length is never a stumbling block on the way
down to them. -/
def Counted (allowSpace : Bool) (k : Nat) : Bytes → Prop
  | [] => True
  | c :: arg =>
    (escapedLength allowSpace (c :: arg) + k) % 2 ^ 32 ≠ 0 ∧
      (isPrint c allowSpace = true ∨ 4 ≤ (escapedLength allowSpace (c :: arg) + k) % 2 ^ 32 ∧
        (escapedLength allowSpace (c :: arg) + k) % 2 ^ 32 < 2 ^ 31) ∧
      Counted allowSpace k arg

/-- The loop writes the text of the string, or it writes less. -/
theorem escapeText_counted (allowSpace : Bool) (k : Nat) {arg : Bytes} (hplain : nul ∉ arg) (behind : Bytes)
    (size : Nat) (hsize : escapedLength allowSpace arg + k ≤ size) :
    (Counted allowSpace k arg → escapeText allowSpace (arg ++ nul :: behind) size
      (BitVec.ofNat 32 (escapedLength allowSpace arg + k)) = arg.flatMap (escaped allowSpace)) ∧
    (¬ Counted allowSpace k arg → (escapeText allowSpace (arg ++ nul :: behind) size
      (BitVec.ofNat 32 (escapedLength allowSpace arg + k))).length < escapedLength allowSpace arg) := by
  induction arg generalizing size with
  | nil =>
    refine ⟨fun _ => ?_, fun h => absurd trivial h⟩
    rw [List.nil_append, escapeText, if_neg fun h => h.1 rfl]
    rfl
  | cons c arg ih =>
    have hc : c ≠ nul := fun e => hplain (e ▸ List.mem_cons_self)
    have hrest : nul ∉ arg := fun hm => hplain (List.mem_cons_of_mem c hm)
    obtain ⟨hone, hfour⟩ := width_pos allowSpace c
    rw [Counted, List.cons_append, escapeText]
    rw [escapedLength_cons] at hsize ⊢
    generalize hn : width allowSpace c + escapedLength allowSpace arg + k = n at hsize ⊢
    have hnsize : size ≠ 0 := by omega
    by_cases hzero : n % 2 ^ 32 = 0
    · -- the length counts as none
      have hlen : BitVec.ofNat 32 n = 0 := (ofNat_eq_zero n).mpr hzero
      rw [if_neg fun h => h.2.1 hlen]
      refine ⟨fun h => absurd hzero h.1, fun _ => ?_⟩
      rw [List.length_nil]
      omega
    · have hlen : BitVec.ofNat 32 n ≠ 0 := fun e => hzero ((ofNat_eq_zero n).mp e)
      rw [if_pos ⟨hc, hlen, hnsize⟩]
      by_cases hfits : isPrint c allowSpace = true ∨ 4 ≤ n % 2 ^ 32 ∧ n % 2 ^ 32 < 2 ^ 31
      · have hroom : width allowSpace c ≤ size := by omega
        have hchunk := escapeChunk_whole hroom hfits
        have hback : n - width allowSpace c = escapedLength allowSpace arg + k := by omega
        obtain ⟨hwhole, hless⟩ := ih hrest (size - width allowSpace c) (by omega)
        dsimp only
        rw [hchunk, escaped_length, ofNat_sub (by omega), hback, List.length_append, escaped_length, List.flatMap_cons]
        constructor
        · rintro ⟨_, _, hcounted⟩
          rw [hwhole hcounted]
        · intro hnot
          have hrest := hless fun hcounted => hnot ⟨hzero, hfits, hcounted⟩
          omega
      · -- a dot in place of an escape
        have hwidth : width allowSpace c = 4 := if_neg fun h => hfits (Or.inl h)
        have hchunk := escapeChunk_dot size hfits
        refine ⟨fun h => absurd h.2.1 hfits, fun _ => ?_⟩
        have hrest := escapeText_width allowSpace hrest behind
          (size - (escapeChunk allowSpace c size (BitVec.ofNat 32 n)).length)
          (BitVec.ofNat 32 n - BitVec.ofNat 32 (escapeChunk allowSpace c size (BitVec.ofNat 32 n)).length)
        have hdot : (escapeChunk allowSpace c size (BitVec.ofNat 32 n)).length = 1 := by
          rw [hchunk]
          rfl
        dsimp only
        rw [List.length_append]
        omega

/-- From every byte that is written as an escape on, less than 2^31 bytes are left to write,
with `k` behind the string. -/
def EscapesFit (allowSpace : Bool) (k : Nat) (arg : Bytes) : Prop :=
  ∀ front c rest, arg = front ++ c :: rest → isPrint c allowSpace = false →
    escapedLength allowSpace (c :: rest) + k < 2 ^ 31

theorem escapesFit_cons (allowSpace : Bool) (k : Nat) (c : UInt8) (arg : Bytes) :
    EscapesFit allowSpace k (c :: arg) ↔
      (isPrint c allowSpace = false → escapedLength allowSpace (c :: arg) + k < 2 ^ 31) ∧
        EscapesFit allowSpace k arg := by
  constructor
  · intro h
    refine ⟨h [] c arg rfl, ?_⟩
    intro front d rest hsplit
    exact h (c :: front) d rest (by rw [hsplit]; rfl)
  · rintro ⟨hfirst, hrest⟩ front d rest hsplit hprint
    cases front with
    | nil =>
      obtain ⟨rfl, rfl⟩ := List.cons.inj hsplit
      exact hfirst hprint
    | cons _ front => exact hrest front d rest (List.cons.inj hsplit).2 hprint

theorem counted_iff (allowSpace : Bool) {k : Nat} (hk : k ≤ 1) (arg : Bytes) :
    Counted allowSpace k arg ↔ escapedLength allowSpace arg + k < 2 ^ 32 ∧ EscapesFit allowSpace k arg := by
  induction arg with
  | nil =>
    have hnone : EscapesFit allowSpace k [] := by
      intro front c rest hsplit
      simp at hsplit
    have hsmall : escapedLength allowSpace [] + k < 2 ^ 32 := by
      rw [show escapedLength allowSpace [] = 0 from rfl]
      omega
    exact ⟨fun _ => ⟨hsmall, hnone⟩, fun _ => trivial⟩
  | cons c arg ih =>
    rw [Counted, ih, escapesFit_cons, escapedLength_cons]
    generalize escapedLength allowSpace arg = n
    by_cases hprint : isPrint c allowSpace = true
    · have hwidth : width allowSpace c = 1 := if_pos hprint
      have hone : 1 ≤ 2 ^ 32 := by norm_num
      simp only [hprint, true_or, true_and, Bool.true_eq_false, false_implies, hwidth]
      constructor
      · rintro ⟨hzero, hn, hfit⟩
        exact ⟨by omega, hfit⟩
      · rintro ⟨hn, hfit⟩
        exact ⟨by omega, by omega, hfit⟩
    · have hwidth : width allowSpace c = 4 := if_neg hprint
      have hfalse : isPrint c allowSpace = false := by simpa using hprint
      simp only [hfalse, Bool.false_eq_true, false_or, true_implies, hwidth]
      constructor
      · rintro ⟨hzero, hint, hn, hfit⟩
        exact ⟨by omega, by omega, hfit⟩
      · rintro ⟨hn, hint, hfit⟩
        exact ⟨by omega, ⟨by omega, by omega⟩, by omega, hfit⟩

/-- How many quotes there are, and how many of them behind the string. -/
def quotes (alt : Bool) : Nat := if alt then 2 else 0

/-- The text of a string with its quotes. -/
def wholeText (alt allowSpace : Bool) (arg : Bytes) : Bytes :=
  if alt then [quote] ++ arg.flatMap (escaped allowSpace) ++ [quote] else arg.flatMap (escaped allowSpace)

theorem wholeText_length (alt allowSpace : Bool) (arg : Bytes) :
    (wholeText alt allowSpace arg).length = escapedLength allowSpace arg + quotes alt := by
  rw [wholeText, quotes]
  cases alt with
  | false => exact text_length allowSpace arg
  | true =>
    rw [if_pos rfl, if_pos rfl, List.length_append, List.length_append, text_length, List.length_singleton]
    omega

/-- The length of the text fits the counter. -/
def Fits (alt allowSpace : Bool) (arg : Bytes) : Prop :=
  escapedLength allowSpace arg + quotes alt < 2 ^ 32 ∧ EscapesFit allowSpace (if alt then 1 else 0) arg

/-- Behind the opening quote and the string there is at most one more byte. -/
theorem quotedText_alt (allowSpace : Bool) (arg : Bytes) (size : Nat) (len : BitVec 32) {opening : Bytes}
    (hopening : quoteText true size len = opening) :
    ∃ closing, quotedText true allowSpace arg size len =
      opening ++ escapeText allowSpace arg (size - opening.length) (len - BitVec.ofNat 32 opening.length) ++
        closing ∧ closing.length ≤ 1 := by
  refine ⟨_, by rw [quotedText, hopening], ?_⟩
  rw [quoteText, if_pos rfl, single]
  split <;> simp

theorem quoteText_pos {size : Nat} {len : BitVec 32} (hsize : size ≠ 0) (hlen : len ≠ 0) :
    quoteText true size len = [quote] := by
  rw [quoteText, if_pos rfl, single, if_pos ⟨hsize, hlen⟩]

/-- With quotes, the whole text is written when neither the first quote nor a byte of the string
finds the length used up. -/
theorem quotedText_counted (allowSpace : Bool) {arg : Bytes} (hplain : nul ∉ arg) (behind : Bytes) {size : Nat}
    (hsize : escapedLength allowSpace arg + 2 ≤ size)
    (hzero : (escapedLength allowSpace arg + 2) % 2 ^ 32 ≠ 0) (hc : Counted allowSpace 1 arg) :
    quotedText true allowSpace (arg ++ nul :: behind) size (BitVec.ofNat 32 (escapedLength allowSpace arg + 2)) =
      [quote] ++ arg.flatMap (escaped allowSpace) ++ [quote] := by
  have hlen : BitVec.ofNat 32 (escapedLength allowSpace arg + 2) ≠ 0 := fun e => hzero ((ofNat_eq_zero _).mp e)
  have hsome : size ≠ 0 := by omega
  have hopening := quoteText_pos hsome hlen
  have hback : BitVec.ofNat 32 (escapedLength allowSpace arg + 2) - BitVec.ofNat 32 1 =
      BitVec.ofNat 32 (escapedLength allowSpace arg + 1) := ofNat_sub (by omega)
  have hwhole := (escapeText_counted allowSpace 1 hplain behind (size - 1) (by omega)).1 hc
  have hfront : ([quote] ++ arg.flatMap (escaped allowSpace)).length = escapedLength allowSpace arg + 1 := by
    rw [List.length_append, text_length, List.length_singleton, Nat.add_comm]
  have hlast : BitVec.ofNat 32 (escapedLength allowSpace arg + 2) -
      BitVec.ofNat 32 (escapedLength allowSpace arg + 1) = 1 := by
    have hsub : escapedLength allowSpace arg + 2 - (escapedLength allowSpace arg + 1) = 1 := by omega
    rw [ofNat_sub (by omega), hsub]
    rfl
  have hroom : size - (escapedLength allowSpace arg + 1) ≠ 0 := by omega
  have hclosing := quoteText_pos hroom (by decide : (1 : BitVec 32) ≠ 0)
  rw [quotedText, hopening, List.length_singleton, hback, hwhole, hfront, hlast, hclosing]

/-- Else less is written. -/
theorem quotedText_less (allowSpace : Bool) {arg : Bytes} (hplain : nul ∉ arg) (behind : Bytes) {size : Nat}
    (hsize : escapedLength allowSpace arg + 2 ≤ size)
    (hnot : ¬ ((escapedLength allowSpace arg + 2) % 2 ^ 32 ≠ 0 ∧ Counted allowSpace 1 arg)) :
    (quotedText true allowSpace (arg ++ nul :: behind) size
      (BitVec.ofNat 32 (escapedLength allowSpace arg + 2))).length < escapedLength allowSpace arg + 2 := by
  by_cases hzero : (escapedLength allowSpace arg + 2) % 2 ^ 32 = 0
  · -- not even the first quote is written
    have hlen : BitVec.ofNat 32 (escapedLength allowSpace arg + 2) = 0 := (ofNat_eq_zero _).mpr hzero
    have hopening : quoteText true size (BitVec.ofNat 32 (escapedLength allowSpace arg + 2)) = [] := by
      rw [quoteText, if_pos rfl, single, if_neg fun h => h.2 hlen]
    obtain ⟨closing, htext, hclosing⟩ := quotedText_alt allowSpace (arg ++ nul :: behind) size _ hopening
    have hmiddle := escapeText_width allowSpace hplain behind (size - ([] : Bytes).length)
      (BitVec.ofNat 32 (escapedLength allowSpace arg + 2) - BitVec.ofNat 32 ([] : Bytes).length)
    rw [htext, List.length_append, List.length_append, List.length_nil]
    rw [List.length_nil] at hmiddle
    omega
  · have hlen : BitVec.ofNat 32 (escapedLength allowSpace arg + 2) ≠ 0 := fun e => hzero ((ofNat_eq_zero _).mp e)
    have hsome : size ≠ 0 := by omega
    have hopening := quoteText_pos hsome hlen
    have hback : BitVec.ofNat 32 (escapedLength allowSpace arg + 2) - BitVec.ofNat 32 1 =
        BitVec.ofNat 32 (escapedLength allowSpace arg + 1) := ofNat_sub (by omega)
    obtain ⟨closing, htext, hclosing⟩ := quotedText_alt allowSpace (arg ++ nul :: behind) size _ hopening
    have hmiddle := (escapeText_counted allowSpace 1 hplain behind (size - 1) (by omega)).2
      fun hc => hnot ⟨hzero, hc⟩
    rw [htext, List.length_append, List.length_append, List.length_singleton, hback]
    omega

/-- With the length of the string and room for it, `%H` writes the whole text or less. -/
theorem quotedText_whole (alt allowSpace : Bool) {arg : Bytes} (hplain : nul ∉ arg) (behind : Bytes) {size : Nat}
    (hsize : escapedLength allowSpace arg + quotes alt ≤ size) :
    (Fits alt allowSpace arg → quotedText alt allowSpace (arg ++ nul :: behind) size
      (BitVec.ofNat 32 (escapedLength allowSpace arg + quotes alt)) = wholeText alt allowSpace arg) ∧
    (¬ Fits alt allowSpace arg → (quotedText alt allowSpace (arg ++ nul :: behind) size
      (BitVec.ofNat 32 (escapedLength allowSpace arg + quotes alt))).length <
        escapedLength allowSpace arg + quotes alt) := by
  cases alt with
  | false =>
    have hcounted := counted_iff allowSpace (Nat.zero_le 1) arg
    obtain ⟨hwhole, hless⟩ := escapeText_counted allowSpace 0 hplain behind size hsize
    have htext : ∀ len, quotedText false allowSpace (arg ++ nul :: behind) size len =
        escapeText allowSpace (arg ++ nul :: behind) size len := by
      intro len
      simp [quotedText, quoteText]
    rw [htext, Fits, quotes, wholeText]
    exact ⟨fun h => hwhole (hcounted.mpr h), fun h => hless fun hc => h (hcounted.mp hc)⟩
  | true =>
    have hcounted := counted_iff allowSpace (Nat.le_refl 1) arg
    have hfits : Fits true allowSpace arg ↔
        (escapedLength allowSpace arg + 2) % 2 ^ 32 ≠ 0 ∧ Counted allowSpace 1 arg := by
      rw [Fits, hcounted, quotes, if_pos rfl, if_pos rfl]
      constructor
      · rintro ⟨hn, hescapes⟩
        exact ⟨by omega, by omega, hescapes⟩
      · rintro ⟨hzero, hn, hescapes⟩
        exact ⟨by omega, hescapes⟩
    rw [hfits, quotes, wholeText, if_pos rfl, if_pos rfl]
    exact ⟨fun h => quotedText_counted allowSpace hplain behind hsize h.1 h.2,
      quotedText_less allowSpace hplain behind hsize⟩

/-! Conversions. -/

/-- `%H` of a string, with what lies behind its NUL: safe bytes, and where no length is given
and there is room for it the whole text, from which the string can be read back. -/
def Escapes (cap : Nat) (format : Bytes) (i : Nat) (s : Printer) (arg behind : Bytes) : Prop :=
  ∃ text s' n, formatBlock cap format i letterH { s with args := .string (some (arg ++ nul :: behind)) :: s.args } =
      some (i, s') ∧ s'.out = s.out ++ text ∧ SafeText s.blockAlt s.blockSpace text ∧
    vsnprintfStrlen (some (arg ++ nul :: behind)) s.blockAlt s.blockSpace = some n ∧
    (s.blockLen = 0 → n ≤ s.size → text.length = n ∧
      ∃ body, text = (if s.blockAlt then [quote] ++ body ++ [quote] else body) ∧ undo body = arg)

section
variable {cap : Nat} {s : Printer} {arg : Bytes}

/-- What the conversion comes to. -/
theorem Room.formatEscaped (R : Room cap s) (format : Bytes) (i : Nat) (hplain : nul ∉ arg) (behind : Bytes)
    {n : Nat} (hn : n = escapedLength s.blockSpace arg + quotes s.blockAlt) :
    formatBlock cap format i letterH { s with args := .string (some (arg ++ nul :: behind)) :: s.args } =
      some (i, s.done (lengthFor s n)
        (quotedText s.blockAlt s.blockSpace (arg ++ nul :: behind) s.size (lengthFor s n))) ∧
    vsnprintfStrlen (some (arg ++ nul :: behind)) s.blockAlt s.blockSpace = some n := by
  have hnul : nul ∈ arg ++ nul :: behind := List.mem_append_right _ List.mem_cons_self
  have hstring : cString (arg ++ nul :: behind) = arg := by
    rw [Encoding.cString_append_nul, Encoding.cString_of_plain hplain]
  have hquoted := R.formatQuoted hnul rfl
  rw [hstring, ← quotes, ← hn] at hquoted
  constructor
  · show (Log.formatString cap letterH (some (arg ++ nul :: behind)) s).map ((i, ·)) = _
    rw [hquoted]
    rfl
  · rw [vsnprintfStrlen, strlenLoop_spec, if_pos hnul, hstring, hn]
    rfl

theorem Escapes.fits {format : Bytes} {i : Nat} {behind : Bytes} (h : Escapes cap format i s arg behind)
    (R : Room cap s) (hplain : nul ∉ arg) (hblock : s.blockLen = 0)
    (hroom : escapedLength s.blockSpace arg + quotes s.blockAlt ≤ s.size) : Fits s.blockAlt s.blockSpace arg := by
  obtain ⟨hformat, hstrlen⟩ := R.formatEscaped format i hplain behind rfl
  obtain ⟨text, s', n, e, htext, _, hn, hexact⟩ := h
  obtain ⟨_, rfl⟩ := Prod.mk.inj (Option.some.inj (hformat.symm.trans e))
  have hwritten := List.append_cancel_left htext
  have hcount := Option.some.inj (hstrlen.symm.trans hn)
  have hlength := (hexact hblock (by rwa [← hcount])).1
  rw [← hwritten, ← hcount, lengthFor, if_pos hblock] at hlength
  by_contra hfits
  have hless := (quotedText_whole s.blockAlt s.blockSpace hplain behind hroom).2 hfits
  omega

theorem Room.escapes (R : Room cap s) (format : Bytes) (i : Nat) (hplain : nul ∉ arg) (behind : Bytes)
    (hfits : s.blockLen = 0 → escapedLength s.blockSpace arg + quotes s.blockAlt ≤ s.size →
      Fits s.blockAlt s.blockSpace arg) : Escapes cap format i s arg behind := by
  obtain ⟨hformat, hstrlen⟩ := R.formatEscaped format i hplain behind rfl
  refine ⟨_, _, _, hformat, rfl, quotedText_safe .., hstrlen, ?_⟩
  intro hblock hroom
  rw [lengthFor, if_pos hblock,
    (quotedText_whole s.blockAlt s.blockSpace hplain behind hroom).1 (hfits hblock hroom)]
  exact ⟨wholeText_length _ _ _, arg.flatMap (escaped s.blockSpace), rfl, undo_text s.blockSpace arg⟩

end

/-- Texts below 2 GiB fit. -/
theorem Fits.of_short {alt allowSpace : Bool} {arg : Bytes}
    (h : escapedLength allowSpace arg + quotes alt < 2 ^ 31) : Fits alt allowSpace arg := by
  refine ⟨by omega, ?_⟩
  rintro front c rest rfl _
  have hsplit : escapedLength allowSpace (front ++ c :: rest) =
      escapedLength allowSpace front + escapedLength allowSpace (c :: rest) := by
    rw [escapedLength, List.map_append, List.sum_append]
    rfl
  rw [hsplit, quotes] at h
  cases alt with
  | false =>
    rw [if_neg Bool.false_ne_true] at h ⊢
    omega
  | true =>
    rw [if_pos rfl] at h ⊢
    omega

/-- The text is safe in any case, and whole exactly where its length fits the counter; that is so where the text or
the buffer is below 2 GiB. -/
theorem escaped_safe {cap : Nat} {s : Printer} (R : Room cap s) (format : Bytes) (i : Nat) {arg : Bytes}
    (hplain : nul ∉ arg) (behind : Bytes) :
    (Escapes cap format i s arg behind ↔
      (s.blockLen = 0 → escapedLength s.blockSpace arg + quotes s.blockAlt ≤ s.size →
        Fits s.blockAlt s.blockSpace arg)) ∧
    (escapedLength s.blockSpace arg + quotes s.blockAlt < 2 ^ 31 ∨ s.size < 2 ^ 31 →
      Escapes cap format i s arg behind) := by
  refine ⟨⟨fun h => h.fits R hplain, R.escapes format i hplain behind⟩, fun hshort => ?_⟩
  apply R.escapes format i hplain behind
  intro _ hroom
  apply Fits.of_short
  rcases hshort with htext | hsize
  · exact htext
  · exact Nat.lt_of_le_of_lt hroom hsize

/-- A block in a buffer of `size` bytes, at its start. -/
def blockStart (size : Nat) (alt : Bool) : Printer :=
  { out := [], size := size, inBlock := true, blockSize := 0, blockLen := 0, blockSpace := false, blockAlt := alt,
    args := [] }

/-- `%#H` of `"` and a newline. -/
theorem escaped_safe_quote : Escapes 20 [37, 35, 72, 0] 2 (blockStart 20 true) [34, 10] [] :=
  (escaped_safe (show Room 20 (blockStart 20 true) from rfl) [37, 35, 72, 0] 2 (by decide) []).2
    (Or.inr (by decide))

theorem escapedLength_replicate (n : Nat) : escapedLength false (List.replicate n 1) = n * 4 := by
  rw [escapedLength, List.map_replicate, List.sum_replicate]
  rfl

/-- Where the length of `n` control characters with their escapes does not fit, they are not
written whole. -/
theorem controls_not_whole {n : Nat} (h : ¬ n * 4 < 2 ^ 32) :
    ¬ Escapes (n * 4) [37, 72, 0] 1 (blockStart (n * 4) false) (List.replicate n 1) [] := by
  have hplain : nul ∉ List.replicate n (1 : UInt8) := fun hm => absurd (List.eq_of_mem_replicate hm) (by decide)
  have hlength : escapedLength (blockStart (n * 4) false).blockSpace (List.replicate n 1) +
      quotes (blockStart (n * 4) false).blockAlt = n * 4 := escapedLength_replicate n
  have R : Room (n * 4) (blockStart (n * 4) false) := Nat.zero_add _
  intro hescapes
  have hfits := (hescapes.fits R hplain rfl (Nat.le_of_eq hlength)).1
  rw [hlength] at hfits
  exact h hfits

/-- The length of 2^30 control characters is 2^32, which is 0 as an `int`, and nothing is
written. -/
theorem escaped_safe_fails :
    ¬ Escapes (2 ^ 30 * 4) [37, 72, 0] 1 (blockStart (2 ^ 30 * 4) false) (List.replicate (2 ^ 30) 1) [] :=
  controls_not_whole (by omega)

end IcecastCommon.Log
