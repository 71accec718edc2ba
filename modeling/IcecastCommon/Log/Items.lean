import IcecastCommon.Log.GivenLength

/- Formats of literal text, `%%`, `%s` and `%d`, `%i`, `%u` with or without `l`, `ll` or `z`,
   piece by piece with the arguments that belong to them. Where there is no `%%`, every round
   of the loop takes an item with its argument, and the buffer has what C writes into it, but
   for a string whose length with escapes does not fit an `int`. -/
namespace IcecastCommon.Log
open Encoding (Bytes nul cString)
open Httpp (percent)

/-! Formats with their arguments. -/

inductive Modifier where
  | none
  | l
  | ll
  | z

namespace Modifier

def text : Modifier → Bytes
  | none => []
  | l => [letterL]
  | ll => [letterL, letterL]
  | z => [letterZ]

def width : Modifier → Nat
  | none => 32
  | _ => 64

/-- An argument of the type that belongs to the modifier. -/
def arg : (modifier : Modifier) → BitVec modifier.width → Arg
  | none, value => .int value
  | l, value => .long value
  | ll, value => .longLong value
  | z, value => .size value

/-- `block_size` behind the modifier. -/
def blockSize : Modifier → BitVec 32
  | none => 0
  | l => 1
  | ll => 2
  | z => 122

end Modifier

/-- `d`, `i` and `u` -/
inductive NumberLetter where
  | d
  | i
  | u

def NumberLetter.char : NumberLetter → UInt8
  | d => letterD
  | i => letterI
  | u => letterU

/-- A piece of a format with the argument that it takes. Behind the NUL of a string there may
be more. -/
inductive Item where
  | literal (c : UInt8) (plain : c ≠ percent ∧ c ≠ nul)
  | percent
  | string (text behind : Bytes) (plain : nul ∉ text)
  | number (modifier : Modifier) (letter : NumberLetter) (value : BitVec modifier.width)

namespace Item

def format : Item → Bytes
  | literal c _ => [c]
  | percent => [Httpp.percent, Httpp.percent]
  | string .. => [Httpp.percent, letterS]
  | number modifier letter _ => Httpp.percent :: (modifier.text ++ [letter.char])

def args : Item → List Arg
  | literal .. => []
  | percent => []
  | string text behind _ => [.string (some (text ++ nul :: behind))]
  | number modifier _ value => [modifier.arg value]

/-- What C prints for it. -/
def text : Item → Bytes
  | literal c _ => [c]
  | percent => [Httpp.percent]
  | string text _ _ => text
  | number _ letter value => numeral letter.char value

/-- What `__vsnprintf` prints for it, where it is no `%%`: the length of a string goes through
an `int`. -/
def stored : Item → Bytes
  | string text _ _ => text.take (escapedLength false text % 2 ^ 32)
  | item => item.text

/-- No `%%`, and no string whose length is lost in the `int`. -/
def Kept : Item → Prop
  | percent => False
  | string text _ _ => text.length ≤ escapedLength false text % 2 ^ 32
  | _ => True

end Item

def formatOf (items : List Item) : Bytes := items.flatMap Item.format

def argsOf (items : List Item) : List Arg := items.flatMap Item.args

def textOf (items : List Item) : Bytes := items.flatMap Item.text

def storedOf (items : List Item) : Bytes := items.flatMap Item.stored

/-- `__vsnprintf` does as C says: it takes the arguments of the items in turn, up to where the
buffer is full, and the buffer has the first `size - 1` bytes of the text. -/
def Agrees (size : Nat) (items : List Item) : Prop :=
  vsnprintf size (formatOf items ++ [nul]) (argsOf items) = some ((textOf items).take (size - 1) ++ [nul]) ∧
  ∃ s reached rest, formatLoop size (formatOf items ++ [nul]) ((formatOf items ++ [nul]).length + 1) 0
      { runStart size with args := argsOf items } = some s ∧
    items = reached ++ rest ∧ s.args = argsOf rest ∧ (rest ≠ [] → size ≤ (textOf reached).length)

/-! Numbers. -/

theorem decimalText_digits {n : Int} {c : UInt8} (h : c ∈ decimalText n) :
    c = dash ∨ ∃ d < 10, c = UInt8.ofNat (48 + d) := by
  rw [decimalText, List.mem_append] at h
  rcases h with h | h
  · left
    by_cases hn : n < 0
    · rw [if_pos hn] at h
      exact List.mem_singleton.mp h
    · rw [if_neg hn] at h
      cases h
  · right
    obtain ⟨char, hchar, rfl⟩ := List.mem_map.mp h
    have hdigit : char.isDigit = true := Nat.isDigit_of_mem_toDigits (by decide) (by decide) hchar
    have hrange : 48 ≤ char.toNat ∧ char.toNat ≤ 57 := by
      simpa [Char.isDigit, UInt32.le_iff_toNat_le] using hdigit
    refine ⟨char.toNat - 48, by omega, ?_⟩
    rw [Nat.add_sub_cancel' hrange.1]

theorem decimalText_length {n : Int} (h : n.natAbs < 10 ^ 20) : (decimalText n).length ≤ 21 := by
  have hdigits : (Nat.toDigits 10 n.natAbs).length ≤ 20 :=
    (Nat.length_toDigits_le_iff (by decide) (by decide)).mpr h
  rw [decimalText, List.length_append, List.length_map]
  split <;> simp <;> omega

theorem numeral_decimal {w : Nat} (c : UInt8) (value : BitVec w) :
    ∃ n : Int, numeral c value = decimalText n ∧ n.natAbs < 2 ^ w := by
  rw [numeral]
  by_cases h : c = letterU
  · rw [if_pos h]
    exact ⟨value.toNat, rfl, value.isLt⟩
  · rw [if_neg h]
    refine ⟨value.toInt, rfl, ?_⟩
    have hlt := value.isLt
    rw [BitVec.toInt_eq_toNat_cond]
    split <;> omega

theorem digits_print : ∀ d < 10, isPrint (UInt8.ofNat (48 + d)) false = true := by decide

theorem decimalText_print {n : Int} {c : UInt8} (h : c ∈ decimalText n) : isPrint c false = true := by
  rcases decimalText_digits h with rfl | ⟨d, hd, rfl⟩
  · decide
  · exact digits_print d hd

theorem nul_not_decimal (n : Int) : nul ∉ decimalText n := fun h => absurd (decimalText_print h) (by decide)

/-- A text of safe bytes has its own length. -/
theorem escapedLength_print {text : Bytes} (h : ∀ c ∈ text, isPrint c false = true) :
    escapedLength false text = text.length := by
  induction text with
  | nil => rfl
  | cons c text ih =>
    have hc : isPrint c false = true := h c List.mem_cons_self
    have hrest := ih fun d hd => h d (List.mem_cons_of_mem c hd)
    calc escapedLength false (c :: text)
        = (if isPrint c false then 1 else 4) + escapedLength false text := by
          rw [escapedLength, List.map_cons, List.sum_cons, ← escapedLength]
      _ = 1 + text.length := by rw [if_pos hc, hrest]
      _ = (c :: text).length := Nat.add_comm 1 _

theorem numeral_whole {w : Nat} (hw : w ≤ 64) (c : UInt8) (value : BitVec w) :
    escapedLength false (numeral c value) = (numeral c value).length ∧ nul ∉ numeral c value ∧
      (numeral c value).length ≤ 21 := by
  obtain ⟨n, e, hn⟩ := numeral_decimal c value
  have hpow : 2 ^ w ≤ 2 ^ 64 := Nat.pow_le_pow_right (by decide) hw
  have hsmall : n.natAbs < 10 ^ 20 := by omega
  rw [e]
  exact ⟨escapedLength_print fun _ => decimalText_print, nul_not_decimal n, decimalText_length hsmall⟩

theorem Modifier.width_le (modifier : Modifier) : modifier.width ≤ 64 := by
  cases modifier <;> decide

/-! One item. -/

/-- What is written of a text whose length goes through an `int`. -/
def keptText (text : Bytes) : Bytes := text.take (escapedLength false text % 2 ^ 32)

theorem keptText_whole {text : Bytes} (h : text.length ≤ escapedLength false text % 2 ^ 32) : keptText text = text :=
  List.take_of_length_le h

/-- At the conversion character of an item. -/
structure Opened (s : Printer) : Prop where
  inBlock : s.inBlock = true
  blockLen : s.blockLen = 0
  blockSpace : s.blockSpace = false

/-- A conversion of a text in memory. -/
theorem Room.formatKept {cap : Nat} {s : Printer} (R : Room cap s) (O : Opened s) {c : UInt8} (hc : c ≠ letterH)
    {text : Bytes} (hplain : nul ∉ text) (behind : Bytes) :
    ∃ s', Log.formatString cap c (some (text ++ nul :: behind)) s = some s' ∧ Room cap s' ∧ s'.inBlock = false ∧
      s'.args = s.args ∧ s'.out = s.out ++ (keptText text).take s.size := by
  have hmem : nul ∈ text ++ nul :: behind := List.mem_append_right _ List.mem_cons_self
  have hstring : cString (text ++ nul :: behind) = text := by
    rw [Encoding.cString_append_nul, Encoding.cString_of_plain hplain]
  obtain ⟨len, hlen⟩ : ∃ len, len = BitVec.ofNat 32 (escapedLength false text) := ⟨_, rfl⟩
  obtain ⟨s₁, hs₁⟩ : ∃ s₁ : Printer, s₁ = { s with blockAlt := false, blockLen := len } := ⟨_, rfl⟩
  have hfill : fillLen (some (text ++ nul :: behind)) { s with blockAlt := false } = some s₁ := by
    have hzero : ({ s with blockAlt := false } : Printer).blockLen = 0 := O.blockLen
    rw [hs₁]
    apply fillLen_spec hmem
    rw [lengthFor, if_pos hzero, hstring, hlen]
    show _ = BitVec.ofNat 32 (escapedLength s.blockSpace text + 0)
    rw [O.blockSpace, Nat.add_zero]
  have R₁ : Room cap s₁ := by
    rw [hs₁]
    exact R
  have hwritten : (text ++ nul :: behind).take (plainEnd (text ++ nul :: behind) s₁) = (keptText text).take s.size := by
    have hend : plainEnd (text ++ nul :: behind) s₁ =
        min (min s.size (escapedLength false text % 2 ^ 32)) text.length := by
      rw [plainEnd, hstring, hs₁, hlen, BitVec.toNat_ofNat, Nat.min_comm, Nat.min_comm s.size]
    rw [hend, List.take_append_of_le_length (Nat.min_le_right _ _), ← List.take_eq_take_min, ← List.take_take, keptText]
  rw [formatString_plain hc, hfill, Option.bind_some, plainLoop_spec R₁, if_pos (plainEnd_lt hmem _), hwritten]
  refine ⟨_, rfl, ?_, rfl, by rw [hs₁]; rfl, by rw [hs₁]; rfl⟩
  have hroom := R₁.write (plainEnd_le (text ++ nul :: behind) s₁)
  rw [hwritten] at hroom
  exact hroom

section
variable {cap : Nat} {format : Bytes} {i : Nat} {s : Printer} {rest : Bytes}

theorem formatChar_percent (cap : Nat) (format : Bytes) (i : Nat) (hblock : s.inBlock = false) :
    ∃ s', formatChar cap format i percent s = some (i, s') ∧ Opened s' ∧ s'.blockSize = 0 ∧ s'.out = s.out ∧
      s'.size = s.size ∧ s'.args = s.args := by
  rw [formatChar, if_pos hblock, if_pos rfl]
  exact ⟨_, rfl, ⟨rfl, rfl, rfl⟩, rfl, rfl, rfl, rfl⟩

theorem formatChar_block (O : Opened s) (c : UInt8) : formatChar cap format i c s = formatBlock cap format i c s := by
  rw [formatChar, O.inBlock, if_neg (by decide)]

theorem formatChar_l (cap : Nat) (format : Bytes) (i : Nat) (O : Opened s) :
    ∃ s', formatChar cap format i letterL s = some (i, s') ∧ Opened s' ∧ s'.blockSize = s.blockSize + 1 ∧
      s'.out = s.out ∧ s'.size = s.size ∧ s'.args = s.args := by
  have hdirective : directive letterL = .long := by decide
  rw [formatChar_block O, formatBlock, hdirective]
  exact ⟨_, rfl, ⟨O.inBlock, O.blockLen, O.blockSpace⟩, rfl, rfl, rfl, rfl⟩

theorem formatChar_z (cap : Nat) (format : Bytes) (i : Nat) (O : Opened s) :
    ∃ s', formatChar cap format i letterZ s = some (i, s') ∧ Opened s' ∧ s'.blockSize = 122 ∧
      s'.out = s.out ∧ s'.size = s.size ∧ s'.args = s.args := by
  have hdirective : directive letterZ = .size := by decide
  rw [formatChar_block O, formatBlock, hdirective]
  exact ⟨_, rfl, ⟨O.inBlock, O.blockLen, O.blockSpace⟩, rfl, rfl, rfl, rfl⟩

/-- The block is open and the modifier read. -/
theorem modifier_rounds (cap : Nat) (modifier : Modifier) (h : format.drop i = percent :: (modifier.text ++ rest))
    (hsize : s.size ≠ 0) (hblock : s.inBlock = false) :
    ∃ s', Opened s' ∧ s'.blockSize = modifier.blockSize ∧ s'.out = s.out ∧ s'.size = s.size ∧ s'.args = s.args ∧
      format.drop (i + 1 + modifier.text.length) = rest ∧ ∀ n,
      formatRounds cap format (modifier.text.length + n + 1) i s =
        formatRounds cap format n (i + 1 + modifier.text.length) s' := by
  obtain ⟨s₁, e₁, O₁, hblock₁, hout₁, hsize₁, hargs₁⟩ := formatChar_percent cap format i hblock
  have hdrop₁ := (getElem?_of_drop h).2
  have hround₁ : ∀ n, formatRounds cap format (n + 1) i s = formatRounds cap format n (i + 1) s₁ := by
    intro n
    rw [formatRounds_cons cap h (by decide) hsize, e₁, Option.bind_some]
  cases modifier with
  | none => exact ⟨s₁, O₁, hblock₁, hout₁, hsize₁, hargs₁, hdrop₁, fun n => by simpa [Modifier.text] using hround₁ n⟩
  | l =>
    obtain ⟨s₂, e₂, O₂, hblock₂, hout₂, hsize₂, hargs₂⟩ := formatChar_l cap format (i + 1) O₁
    refine ⟨s₂, O₂, by rw [hblock₂, hblock₁]; rfl, hout₂.trans hout₁, hsize₂.trans hsize₁, hargs₂.trans hargs₁,
      (getElem?_of_drop hdrop₁).2, fun n => ?_⟩
    rw [hround₁, Nat.add_comm]
    show formatRounds cap format (n + 1) (i + 1) s₁ = _
    rw [formatRounds_cons cap hdrop₁ (by decide) (by rw [hsize₁]; exact hsize), e₂, Option.bind_some]
    rfl
  | ll =>
    obtain ⟨s₂, e₂, O₂, hblock₂, hout₂, hsize₂, hargs₂⟩ := formatChar_l cap format (i + 1) O₁
    obtain ⟨s₃, e₃, O₃, hblock₃, hout₃, hsize₃, hargs₃⟩ := formatChar_l cap format (i + 1 + 1) O₂
    have hdrop₂ := (getElem?_of_drop hdrop₁).2
    refine ⟨s₃, O₃, by rw [hblock₃, hblock₂, hblock₁]; rfl, by rw [hout₃, hout₂, hout₁],
      by rw [hsize₃, hsize₂, hsize₁], by rw [hargs₃, hargs₂, hargs₁], (getElem?_of_drop hdrop₂).2, fun n => ?_⟩
    rw [hround₁, Nat.add_comm]
    show formatRounds cap format (n + 1 + 1) (i + 1) s₁ = _
    rw [formatRounds_cons cap hdrop₁ (by decide) (by rw [hsize₁]; exact hsize), e₂, Option.bind_some,
      formatRounds_cons cap hdrop₂ (by decide) (by rw [hsize₂, hsize₁]; exact hsize), e₃, Option.bind_some]
    rfl
  | z =>
    obtain ⟨s₂, e₂, O₂, hblock₂, hout₂, hsize₂, hargs₂⟩ := formatChar_z cap format (i + 1) O₁
    refine ⟨s₂, O₂, hblock₂, hout₂.trans hout₁, hsize₂.trans hsize₁, hargs₂.trans hargs₁,
      (getElem?_of_drop hdrop₁).2, fun n => ?_⟩
    rw [hround₁, Nat.add_comm]
    show formatRounds cap format (n + 1) (i + 1) s₁ = _
    rw [formatRounds_cons cap hdrop₁ (by decide) (by rw [hsize₁]; exact hsize), e₂, Option.bind_some]
    rfl

theorem numberText_modifier (modifier : Modifier) (c : UInt8) (value : BitVec modifier.width) {more : List Arg}
    (hblock : s.blockSize = modifier.blockSize) (hargs : s.args = modifier.arg value :: more) :
    numberText c s = some (numeral c value, { s with args := more }) := by
  rw [numberText, hblock, hargs]
  cases modifier <;> rfl

theorem directive_letter (letter : NumberLetter) : directive letter.char = .number := by
  cases letter <;> decide

/-- The rounds of a conversion that comes down to that of a text in memory. -/
theorem conversion_rounds (modifier : Modifier) {c : UInt8} (hc : c ≠ letterH ∧ c ≠ nul) (R : Room cap s)
    (hsize : s.size ≠ 0) (hblock : s.inBlock = false) {text : Bytes} (hplain : nul ∉ text) (behind : Bytes)
    {more : List Arg} (h : format.drop i = percent :: (modifier.text ++ c :: rest))
    (hround : ∀ j s₁, s₁.blockSize = modifier.blockSize → s₁.args = s.args → formatBlock cap format j c s₁ =
      (Log.formatString cap c (some (text ++ nul :: behind)) { s₁ with args := more }).map ((j, ·))) :
    ∃ s', formatRounds cap format (modifier.text.length + 2) i s = some (i + (modifier.text.length + 2), s') ∧
      Room cap s' ∧ s'.inBlock = false ∧ s'.args = more ∧ s'.out = s.out ++ (keptText text).take s.size := by
  obtain ⟨s₁, O₁, hblock₁, hout₁, hsize₁, hargs₁, hdrop₁, hrounds₁⟩ := modifier_rounds cap modifier h hsize hblock
  have R₁ : Room cap { s₁ with args := more } := by
    rw [Room] at R ⊢
    rw [← hout₁, ← hsize₁] at R
    exact R
  have O₂ : Opened { s₁ with args := more } := ⟨O₁.inBlock, O₁.blockLen, O₁.blockSpace⟩
  obtain ⟨s', e', R', hblock', hargs', hout'⟩ := R₁.formatKept O₂ hc.1 hplain behind
  refine ⟨s', ?_, R', hblock', hargs', ?_⟩
  · calc formatRounds cap format (modifier.text.length + 2) i s
        = formatRounds cap format 1 (i + 1 + modifier.text.length) s₁ := hrounds₁ 1
      _ = some (i + 1 + modifier.text.length + 1, s') := by
        rw [formatRounds_cons cap hdrop₁ hc.2 (by rw [hsize₁]; exact hsize), formatChar_block O₁,
          hround _ s₁ hblock₁ hargs₁, e']
        rfl
      _ = some (i + (modifier.text.length + 2), s') := by
        congr 2
        omega
  · rw [hout']
    show s₁.out ++ (keptText text).take s₁.size = _
    rw [hout₁, hsize₁]

/-- The rounds of an item other than `%%`. -/
theorem Item.rounds (item : Item) (hitem : item ≠ .percent) (R : Room cap s) (hsize : s.size ≠ 0)
    (hblock : s.inBlock = false) {more : List Arg} (hargs : s.args = item.args ++ more)
    (h : format.drop i = item.format ++ rest) :
    ∃ s', formatRounds cap format item.format.length i s = some (i + item.format.length, s') ∧ Room cap s' ∧
      s'.inBlock = false ∧ s'.args = more ∧ s'.out = s.out ++ item.stored.take s.size := by
  cases item with
  | percent => exact absurd rfl hitem
  | literal c plain =>
    have hone : 1 ≤ s.size := Nat.pos_of_ne_zero hsize
    have hchar : formatChar cap format i c s = some (i, { s with out := s.out ++ [c], size := s.size - 1 }) := by
      have htake : Log.shrink 1 { s with out := s.out ++ [c] } =
          some { s with out := s.out ++ [c], size := s.size - 1 } := if_pos hone
      rw [formatChar, if_pos hblock, if_neg plain.1, Option.bind_eq_bind, R.put c hsize, Option.bind_some, htake]
      rfl
    refine ⟨{ s with out := s.out ++ [c], size := s.size - 1 }, ?_, ?_, hblock, hargs, ?_⟩
    · show formatRounds cap format (0 + 1) i s = _
      rw [formatRounds_cons cap h plain.2 hsize, hchar]
      rfl
    · rw [Room] at R ⊢
      simp only [List.length_append, List.length_singleton]
      omega
    · show s.out ++ [c] = s.out ++ [c].take s.size
      rw [List.take_of_length_le hone]
  | string text behind plain =>
    have hdirective : directive letterS = .string := by decide
    apply conversion_rounds .none (show letterS ≠ letterH ∧ letterS ≠ nul by decide) R hsize hblock plain behind h
    intro j s₁ _ hargs₁
    rw [formatBlock, hdirective, hargs₁, hargs]
    rfl
  | number modifier letter value =>
    have hformat : format.drop i = Httpp.percent :: (modifier.text ++ letter.char :: rest) := by
      rw [h]
      simp [Item.format]
    have hletter : letter.char ≠ letterH ∧ letter.char ≠ nul := by cases letter <;> decide
    have hlen : (Item.number modifier letter value).format.length = modifier.text.length + 2 := by
      simp [Item.format]
    obtain ⟨hlength, hplain, hshort⟩ := numeral_whole modifier.width_le letter.char value
    have hprinted : printed (numeral letter.char value) = some (numeral letter.char value ++ nul :: []) := by
      rw [printed, snprintf, List.take_of_length_le (by omega)]
    have hround : ∀ j s₁, s₁.blockSize = modifier.blockSize → s₁.args = s.args →
        formatBlock cap format j letter.char s₁ = (Log.formatString cap letter.char
          (some (numeral letter.char value ++ nul :: [])) { s₁ with args := more }).map ((j, ·)) := by
      intro j s₁ hblock₁ hargs₁
      have hargs₂ : s₁.args = modifier.arg value :: more := hargs₁.trans hargs
      rw [formatBlock, directive_letter]
      dsimp only
      rw [numberText_modifier modifier letter.char value hblock₁ hargs₂, Option.bind_eq_bind, Option.bind_some]
      dsimp only
      rw [hprinted]
    obtain ⟨s', e', R', hblock', hargs', hout'⟩ := conversion_rounds modifier hletter R hsize hblock hplain []
      hformat hround
    refine ⟨s', by rw [hlen]; exact e', R', hblock', hargs', ?_⟩
    rw [hout', keptText_whole (by omega)]
    rfl

end

/-! Runs without `%%`. -/

/-- The loop over items without `%%`, with more fuel than there are characters. -/
theorem items_run {cap : Nat} {format : Bytes} (items : List Item) (hitems : Item.percent ∉ items) {i : Nat}
    {s : Printer} (R : Room cap s) (hblock : s.inBlock = false) (hargs : s.args = argsOf items)
    (h : format.drop i = formatOf items ++ [nul]) (fuel : Nat) :
    ∃ s' reached rest, formatLoop cap format ((formatOf items).length + (fuel + 1)) i s = some s' ∧ Room cap s' ∧
      s'.out = s.out ++ (storedOf items).take s.size ∧ items = reached ++ rest ∧ s'.args = argsOf rest ∧
      (rest ≠ [] → s.size ≤ (storedOf reached).length) := by
  induction items generalizing i s with
  | nil =>
    have hc : format[i]? = some nul := (getElem?_of_drop h).1
    refine ⟨s, [], [], ?_, R, by simp [storedOf], rfl, hargs, fun hne => absurd rfl hne⟩
    show formatLoop cap format (0 + (fuel + 1)) i s = _
    rw [Nat.zero_add, formatLoop, hc, Option.bind_eq_bind, Option.bind_some, if_pos (Or.inl rfl)]
  | cons item items ih =>
    have hitem : item ≠ .percent := fun e => hitems (e ▸ List.mem_cons_self)
    have hrest : Item.percent ∉ items := fun hm => hitems (List.mem_cons_of_mem item hm)
    have hformat : formatOf (item :: items) = item.format ++ formatOf items := List.flatMap_cons
    have hstored : storedOf (item :: items) = item.stored ++ storedOf items := List.flatMap_cons
    by_cases hsize : s.size = 0
    · -- the buffer is full
      refine ⟨s, [], item :: items, ?_, R, by rw [hsize]; simp, rfl, hargs, fun _ => by rw [hsize]; exact Nat.zero_le _⟩
      obtain ⟨c, behind, hcons⟩ : ∃ c behind, format.drop i = c :: behind := by
        apply List.exists_cons_of_ne_nil
        rw [h]
        simp
      rw [← Nat.add_assoc, formatLoop, (getElem?_of_drop hcons).1, Option.bind_eq_bind, Option.bind_some,
        if_pos (Or.inr hsize)]
    · rw [hformat, List.append_assoc] at h
      have hargs' : s.args = item.args ++ argsOf items := hargs.trans List.flatMap_cons
      obtain ⟨s₁, e₁, R₁, hblock₁, hargs₁, hout₁⟩ := item.rounds hitem R hsize hblock hargs' h
      have hdrop : format.drop (i + item.format.length) = formatOf items ++ [nul] := by
        rw [← List.drop_drop, h, List.drop_left]
      obtain ⟨s', reached, rest, e', R', hout', hsplit, hargs', hfull⟩ := ih hrest R₁ hblock₁ hargs₁ hdrop
      have hsize₁ : s₁.size = s.size - item.stored.length := by
        rw [Room] at R R₁
        rw [hout₁, List.length_append, List.length_take] at R₁
        omega
      have hfuel : (formatOf (item :: items)).length + (fuel + 1) =
          item.format.length + ((formatOf items).length + (fuel + 1)) := by
        rw [hformat, List.length_append, Nat.add_assoc]
      refine ⟨s', item :: reached, rest, ?_, R', ?_, by rw [hsplit]; rfl, hargs', ?_⟩
      · rw [hfuel, formatLoop_rounds _ e₁, e']
      · rw [hout', hout₁, hsize₁, hstored, List.take_append, List.append_assoc]
      · intro hne
        have hlong := hfull hne
        have hreached : storedOf (item :: reached) = item.stored ++ storedOf reached := List.flatMap_cons
        rw [hreached, List.length_append]
        omega

/-- What is in the buffer then. -/
theorem finish_text {cap : Nat} (hcap : 1 ≤ cap) {s : Printer} (R : Room cap s) {text : Bytes}
    (hout : s.out = text.take cap) : finish cap s = some (text.take (cap - 1) ++ [nul]) := by
  have hlen : s.out.length = min cap text.length := by rw [hout, List.length_take]
  rw [Room] at R
  rw [finish]
  by_cases hsize : s.size = 0
  · have hfull : s.out ≠ [] := by
      intro e
      rw [e, List.length_nil] at R
      omega
    have hcount : s.out.length = cap := by omega
    rw [if_pos hsize, if_pos ⟨hfull, by omega⟩, List.dropLast_eq_take, hcount, hout, List.take_take,
      Nat.min_eq_left (Nat.sub_le cap 1)]
  · have hshort : text.length ≤ cap - 1 := by omega
    have hall : text.length ≤ cap := by omega
    rw [if_neg hsize, if_pos (by omega), hout, List.take_of_length_le hall, List.take_of_length_le hshort]

/-- What `__vsnprintf` does with a format without `%%`. -/
theorem items_stored {size : Nat} (hsize : 1 ≤ size) (items : List Item) (hitems : Item.percent ∉ items) :
    vsnprintf size (formatOf items ++ [nul]) (argsOf items) = some ((storedOf items).take (size - 1) ++ [nul]) ∧
    ∃ s reached rest, formatLoop size (formatOf items ++ [nul]) ((formatOf items ++ [nul]).length + 1) 0
      { runStart size with args := argsOf items } = some s ∧
      items = reached ++ rest ∧ s.args = argsOf rest ∧ (rest ≠ [] → size ≤ (storedOf reached).length) := by
  have R : Room size { runStart size with args := argsOf items } := Nat.zero_add size
  have hfuel : (formatOf items ++ [nul]).length + 1 = (formatOf items).length + (1 + 1) := by
    rw [List.length_append, List.length_singleton]
  obtain ⟨s, reached, rest, e, R', hout, hrest⟩ := items_run items hitems R rfl rfl (List.drop_zero ..) 1
  have hloop := e
  rw [← hfuel] at hloop
  refine ⟨?_, s, reached, rest, hloop, hrest⟩
  rw [vsnprintf]
  show (formatLoop size (formatOf items ++ [nul]) ((formatOf items ++ [nul]).length + 1) 0
    { runStart size with args := argsOf items }).bind (finish size) = _
  rw [hloop, Option.bind_some]
  exact finish_text hsize R' hout

end IcecastCommon.Log
