import IcecastCommon.Log.Format

/- What the conversions of `__vsnprintf` write. As long as `str` and `size` together make up
   the buffer, a loop over a string that ends in time writes a text that can be said without
   the loop, and takes its length off both counters. -/
namespace IcecastCommon.Log
open Encoding (Bytes nul quote backslash hexChar cString)

/-- `str` is as far in the buffer as `size` says. -/
def Room (cap : Nat) (s : Printer) : Prop := s.out.length + s.size = cap

/-- A text is written and counted. -/
def Printer.write (s : Printer) (text : Bytes) : Printer :=
  { s with out := s.out ++ text, size := s.size - text.length,
           blockLen := s.blockLen - BitVec.ofNat 32 text.length }

namespace Printer
variable (s : Printer) (a b : Bytes)

@[simp] theorem write_size : (s.write a).size = s.size - a.length := rfl

@[simp] theorem write_blockLen : (s.write a).blockLen = s.blockLen - BitVec.ofNat 32 a.length := rfl

@[simp] theorem write_blockSpace : (s.write a).blockSpace = s.blockSpace := rfl

@[simp] theorem write_blockAlt : (s.write a).blockAlt = s.blockAlt := rfl

@[simp] theorem write_out : (s.write a).out = s.out ++ a := rfl

@[simp] theorem write_args : (s.write a).args = s.args := rfl

theorem write_nil : s.write [] = s := by
  simp [write]

theorem write_append : (s.write a).write b = s.write (a ++ b) := by
  have hsize : s.size - a.length - b.length = s.size - (a ++ b).length := by
    rw [List.length_append, Nat.sub_sub]
  have hlen : s.blockLen - BitVec.ofNat 32 a.length - BitVec.ofNat 32 b.length =
      s.blockLen - BitVec.ofNat 32 (a ++ b).length := by
    rw [List.length_append]
    bv_omega
  simp only [write, List.append_assoc, hsize, hlen]

end Printer

variable {cap : Nat} {s : Printer}

theorem Room.write (R : Room cap s) {text : Bytes} (h : text.length ≤ s.size) : Room cap (s.write text) := by
  rw [Room] at R ⊢
  simp only [Printer.write_out, Printer.write_size, List.length_append]
  omega

theorem Room.put (R : Room cap s) (c : UInt8) (h : s.size ≠ 0) :
    put cap c s = some { s with out := s.out ++ [c] } := by
  rw [Room] at R
  rw [Log.put, if_pos (by omega)]

theorem spend_spec {n : Nat} (h : n ≤ s.size) :
    spend n s = some { s with size := s.size - n, blockLen := s.blockLen - BitVec.ofNat 32 n } := by
  rw [spend, shrink, if_pos h]
  rfl

/-- A character is stored and counted. -/
theorem Room.emit (R : Room cap s) (c : UInt8) (h : s.size ≠ 0) :
    (Log.put cap c s).bind (spend 1) = some (s.write [c]) := by
  have hone : 1 ≤ s.size := Nat.pos_of_ne_zero h
  rw [R.put c h, Option.bind_some, spend_spec (s := { s with out := s.out ++ [c] }) hone]
  rfl

/-! Characters in quotes. -/

/-- A character on its own where there is room for one. -/
def single (c : UInt8) (size : Nat) (len : BitVec 32) : Bytes := if size ≠ 0 ∧ len ≠ 0 then [c] else []

theorem single_length (c : UInt8) (size : Nat) (len : BitVec 32) : (single c size len).length ≤ size := by
  rw [single]
  by_cases h : size ≠ 0 ∧ len ≠ 0
  · rw [if_pos h, List.length_singleton]
    exact Nat.pos_of_ne_zero h.1
  · rw [if_neg h]
    exact Nat.zero_le _

theorem Room.putIf (R : Room cap s) (c : UInt8) : putIf cap c s = some (s.write (single c s.size s.blockLen)) := by
  rw [Log.putIf, single]
  by_cases h : s.size ≠ 0 ∧ s.blockLen ≠ 0
  · rw [if_pos h, if_pos h, R.emit c h.1]
  · rw [if_neg h, if_neg h, s.write_nil]

/-- A quote of `%#H`. -/
def quoteText (alt : Bool) (size : Nat) (len : BitVec 32) : Bytes := if alt then single quote size len else []

theorem quoteText_length (alt : Bool) (size : Nat) (len : BitVec 32) : (quoteText alt size len).length ≤ size := by
  cases alt with
  | false => exact Nat.zero_le _
  | true => exact single_length quote size len

theorem Room.putQuote (R : Room cap s) :
    putQuote cap s = some (s.write (quoteText s.blockAlt s.size s.blockLen)) := by
  rw [Log.putQuote, quoteText]
  cases s.blockAlt with
  | true => exact R.putIf quote
  | false => exact congrArg some s.write_nil.symm

/-! Strings. -/

/-- How far the loop of `%s` goes: to the end of the string, the block or the buffer. -/
def plainEnd (arg : Bytes) (s : Printer) : Nat := min (cString arg).length (min s.blockLen.toNat s.size)

theorem plainEnd_lt {arg : Bytes} (h : nul ∈ arg) (s : Printer) : plainEnd arg s < arg.length := by
  obtain ⟨a, b, rfl⟩ := List.append_of_mem h
  have hle : (cString (a ++ nul :: b)).length ≤ a.length := by
    rw [Encoding.cString_append_nul]
    exact Encoding.cString_length_le a
  rw [plainEnd, List.length_append, List.length_cons]
  omega

theorem plainEnd_le (arg : Bytes) (s : Printer) : (arg.take (plainEnd arg s)).length ≤ s.size := by
  rw [List.length_take, plainEnd]
  omega

/-- The loop of `%s` reads the byte that it ends at. -/
theorem plainLoop_spec (R : Room cap s) (arg : Bytes) : plainLoop cap arg s =
    if plainEnd arg s < arg.length then some (s.write (arg.take (plainEnd arg s))) else none := by
  induction arg generalizing s with
  | nil => rfl
  | cons c arg ih =>
    rw [plainLoop]
    by_cases h : c ≠ nul ∧ s.blockLen ≠ 0 ∧ s.size ≠ 0
    · obtain ⟨hc, hlen, hsize⟩ := h
      have hroom : [c].length ≤ s.size := Nat.pos_of_ne_zero hsize
      have hcount : (s.blockLen - 1).toNat = s.blockLen.toNat - 1 := by
        have hpos : s.blockLen.toNat ≠ 0 := fun e => hlen (BitVec.eq_of_toNat_eq e)
        bv_omega
      have hlenpos : s.blockLen.toNat ≠ 0 := fun e => hlen (BitVec.eq_of_toNat_eq e)
      have hstring : (cString (c :: arg)).length = (cString arg).length + 1 := by
        rw [cString, List.takeWhile_cons_of_pos (by simpa using hc), List.length_cons, ← cString]
      have hend : plainEnd (c :: arg) s = plainEnd arg (s.write [c]) + 1 := by
        have hwritten : (s.write [c]).blockLen.toNat = s.blockLen.toNat - 1 := hcount
        rw [plainEnd, plainEnd, hstring, hwritten, s.write_size, List.length_singleton]
        omega
      rw [if_pos ⟨hc, hlen, hsize⟩]
      simp only [Option.bind_eq_bind]
      rw [← Option.bind_assoc, R.emit c hsize, Option.bind_some, ih (R.write hroom), hend]
      by_cases hlt : plainEnd arg (s.write [c]) < arg.length
      · rw [if_pos hlt, if_pos (by simpa using hlt), s.write_append, List.take_succ_cons, List.singleton_append]
      · rw [if_neg hlt, if_neg (by simpa using hlt)]
    · have hend : plainEnd (c :: arg) s = 0 := by
        by_cases hc : c = nul
        · rw [plainEnd, hc]
          exact Nat.zero_min _
        · by_cases hlen : s.blockLen = 0
          · rw [plainEnd, hlen]
            simp
          · have hsize : s.size = 0 := by
              by_contra hsize
              exact h ⟨hc, hlen, hsize⟩
            rw [plainEnd, hsize]
            simp
      rw [if_neg h, hend, if_pos (by simp), List.take_zero, s.write_nil]

/-- What stands for a character in `%H`. -/
def escapeChunk (allowSpace : Bool) (c : UInt8) (size : Nat) (len : BitVec 32) : Bytes :=
  if isPrint c allowSpace then [c]
  else if size < 4 ∨ len.toInt < 4 then [period]
  else [backslash, letterX, hexChar (c.toNat / 16), hexChar (c.toNat % 16)]

/-- What the loop of `%H` writes. -/
def escapeText (allowSpace : Bool) : Bytes → Nat → BitVec 32 → Bytes
  | [], _, _ => []
  | c :: arg, size, len =>
    if c ≠ nul ∧ len ≠ 0 ∧ size ≠ 0 then
      let chunk := escapeChunk allowSpace c size len
      chunk ++ escapeText allowSpace arg (size - chunk.length) (len - BitVec.ofNat 32 chunk.length)
    else []

theorem escapeChunk_length (allowSpace : Bool) (c : UInt8) {size : Nat} (len : BitVec 32) (h : size ≠ 0) :
    (escapeChunk allowSpace c size len).length ≤ size := by
  rw [escapeChunk]
  have hone : 1 ≤ size := Nat.pos_of_ne_zero h
  split
  · exact hone
  · split
    · exact hone
    · next hroom =>
      rw [not_or] at hroom
      exact Nat.le_of_not_lt hroom.1

theorem Room.escapeChar (R : Room cap s) (c : UInt8) (h : s.size ≠ 0) :
    (escapeChar cap c s).bind (spend 1) = some (s.write (escapeChunk s.blockSpace c s.size s.blockLen)) := by
  rw [Log.escapeChar, escapeChunk]
  by_cases hprint : isPrint c s.blockSpace = true
  · rw [if_pos hprint, if_pos hprint, R.emit c h]
  · rw [if_neg hprint, if_neg hprint]
    by_cases hroom : s.size < 4 ∨ s.blockLen.toInt < 4
    · rw [if_pos hroom, if_pos hroom, R.emit period h]
    · rw [if_neg hroom, if_neg hroom]
      rw [not_or] at hroom
      have hfour : 4 ≤ s.size := Nat.le_of_not_lt hroom.1
      have hthree : 3 ≤ s.size := by omega
      have hone : 1 ≤ s.size - 3 := by omega
      have hcap : s.out.length + s.size = cap := R
      -- four stores, and what is taken off in the body and behind it
      have hstore : ∀ (text : Bytes) (d : UInt8), text.length < 4 →
          Log.put cap d { s with out := s.out ++ text } = some { s with out := s.out ++ (text ++ [d]) } := by
        intro text d htext
        rw [Log.put, if_pos]
        · simp only [List.append_assoc]
        · simp only [List.length_append]
          omega
      have hfirst : Log.put cap backslash s = some { s with out := s.out ++ [backslash] } :=
        R.put backslash (by omega)
      simp only [Option.bind_eq_bind]
      rw [hfirst, Option.bind_some, hstore [backslash] _ (by decide), Option.bind_some, hstore _ _ (by simp),
        Option.bind_some, hstore _ _ (by simp), Option.bind_some, spend_spec (n := 3), Option.bind_some,
        spend_spec (n := 1)]
      · have hcount : s.blockLen - BitVec.ofNat 32 3 - BitVec.ofNat 32 1 = s.blockLen - BitVec.ofNat 32 4 := by
          bv_omega
        simp only [hcount, Nat.sub_sub]
        rfl
      · exact hone
      · exact hthree

theorem escapeText_length (allowSpace : Bool) (arg : Bytes) (size : Nat) (len : BitVec 32) :
    (escapeText allowSpace arg size len).length ≤ size := by
  induction arg generalizing size len with
  | nil => exact Nat.zero_le _
  | cons c arg ih =>
    rw [escapeText]
    by_cases h : c ≠ nul ∧ len ≠ 0 ∧ size ≠ 0
    · rw [if_pos h]
      have hchunk := escapeChunk_length allowSpace c len h.2.2
      have hrest := ih (size - (escapeChunk allowSpace c size len).length)
        (len - BitVec.ofNat 32 (escapeChunk allowSpace c size len).length)
      dsimp only
      rw [List.length_append]
      omega
    · rw [if_neg h]
      exact Nat.zero_le _

/-- The loop of `%H` over a string that ends. -/
theorem Room.escapeLoop (R : Room cap s) {arg : Bytes} (hnul : nul ∈ arg) :
    escapeLoop cap arg s = some (s.write (escapeText s.blockSpace arg s.size s.blockLen)) := by
  induction arg generalizing s with
  | nil => cases hnul
  | cons c arg ih =>
    rw [Log.escapeLoop, escapeText]
    by_cases h : c ≠ nul ∧ s.blockLen ≠ 0 ∧ s.size ≠ 0
    · have hrest : nul ∈ arg := (List.mem_cons.mp hnul).resolve_left fun e => h.1 e.symm
      have hchunk := escapeChunk_length s.blockSpace c s.blockLen h.2.2
      rw [if_pos h, if_pos h]
      simp only [Option.bind_eq_bind]
      rw [← Option.bind_assoc, R.escapeChar c h.2.2, Option.bind_some, ih (R.write hchunk) hrest, s.write_append]
      rfl
    · rw [if_neg h, if_neg h, s.write_nil]

/-! Whole conversions. -/

/-- How long a string is with its escapes. -/
def escapedLength (allowSpace : Bool) (arg : Bytes) : Nat :=
  (arg.map fun c => if isPrint c allowSpace then 1 else 4).sum

theorem strlenLoop_spec (allowSpace : Bool) (arg : Bytes) : strlenLoop allowSpace arg =
    if nul ∈ arg then some (escapedLength allowSpace (cString arg)) else none := by
  induction arg with
  | nil => rfl
  | cons c arg ih =>
    rw [strlenLoop, ih]
    by_cases hc : c = nul
    · rw [if_pos hc, hc, if_pos List.mem_cons_self]
      rfl
    · have hiff : nul ∈ c :: arg ↔ nul ∈ arg := by
        rw [List.mem_cons, or_iff_right fun e => hc e.symm]
      have hstring : cString (c :: arg) = c :: cString arg := List.takeWhile_cons_of_pos (by simpa using hc)
      rw [if_neg hc, hstring]
      by_cases hnul : nul ∈ arg
      · rw [if_pos hnul, if_pos (hiff.mpr hnul)]
        simp [escapedLength]
      · rw [if_neg hnul, if_neg fun h => hnul (hiff.mp h)]
        rfl

/-- The block length: the one that was given, or else that of the string. -/
def lengthFor (s : Printer) (n : Nat) : BitVec 32 := if s.blockLen = 0 then BitVec.ofNat 32 n else s.blockLen

/-- The quotes and what is between them. -/
def quotedText (alt allowSpace : Bool) (arg : Bytes) (size : Nat) (len : BitVec 32) : Bytes :=
  let opening := quoteText alt size len
  let front := opening ++ escapeText allowSpace arg (size - opening.length) (len - BitVec.ofNat 32 opening.length)
  front ++ quoteText alt (size - front.length) (len - BitVec.ofNat 32 front.length)

theorem quotedText_length (alt allowSpace : Bool) (arg : Bytes) (size : Nat) (len : BitVec 32) :
    (quotedText alt allowSpace arg size len).length ≤ size := by
  have hopening := quoteText_length alt size len
  have hmiddle := escapeText_length allowSpace arg (size - (quoteText alt size len).length)
    (len - BitVec.ofNat 32 (quoteText alt size len).length)
  have hclosing := quoteText_length alt (size - (quoteText alt size len ++ escapeText allowSpace arg
    (size - (quoteText alt size len).length) (len - BitVec.ofNat 32 (quoteText alt size len).length)).length)
    (len - BitVec.ofNat 32 (quoteText alt size len ++ escapeText allowSpace arg
      (size - (quoteText alt size len).length) (len - BitVec.ofNat 32 (quoteText alt size len).length)).length)
  rw [quotedText, List.length_append]
  rw [List.length_append] at hclosing ⊢
  omega

/-- Both counters when a conversion has its text. -/
def Printer.done (s : Printer) (len : BitVec 32) (text : Bytes) : Printer :=
  { ({ s with blockLen := len } : Printer).write text with inBlock := false }

theorem Room.done (R : Room cap s) (len : BitVec 32) {text : Bytes} (h : text.length ≤ s.size) :
    Room cap (s.done len text) := by
  have R' : Room cap { s with blockLen := len } := R
  exact R'.write h

theorem fillLen_spec {arg : Bytes} (hnul : nul ∈ arg) {len : BitVec 32}
    (hlen : len = lengthFor s (escapedLength s.blockSpace (cString arg) + if s.blockAlt then 2 else 0)) :
    fillLen (some arg) s = some { s with blockLen := len } := by
  rw [fillLen, vsnprintfStrlen, strlenLoop_spec, if_pos hnul, hlen, lengthFor]
  by_cases hzero : s.blockLen = 0
  · rw [if_pos hzero, if_pos hzero]
    rfl
  · rw [if_neg hzero, if_neg hzero]

/-- The loop of `%H` with its quotes. -/
theorem Room.emitQuoted (R : Room cap s) {arg : Bytes} (hnul : nul ∈ arg) :
    emitString cap letterH (some arg) s =
      some (s.write (quotedText s.blockAlt s.blockSpace arg s.size s.blockLen)) := by
  have R₁ := R.write (quoteText_length s.blockAlt s.size s.blockLen)
  have R₂ := R₁.write (escapeText_length s.blockSpace arg _
    (s.blockLen - BitVec.ofNat 32 (quoteText s.blockAlt s.size s.blockLen).length))
  have hletter : emitString cap letterH (some arg) s = (Log.putQuote cap s).bind fun s =>
      (Log.escapeLoop cap arg s).bind fun s => Log.putQuote cap s := rfl
  rw [hletter, R.putQuote, Option.bind_some, R₁.escapeLoop hnul, Option.bind_some]
  refine R₂.putQuote.trans ?_
  rw [Printer.write_append, Printer.write_append, Printer.write_append, ← List.append_assoc]
  rfl

/-- `%H` of a string. -/
theorem Room.formatQuoted (R : Room cap s) {arg : Bytes} (hnul : nul ∈ arg) {len : BitVec 32}
    (hlen : len = lengthFor s (escapedLength s.blockSpace (cString arg) + if s.blockAlt then 2 else 0)) :
    formatString cap letterH (some arg) s =
      some (s.done len (quotedText s.blockAlt s.blockSpace arg s.size len)) := by
  have R' : Room cap { s with blockLen := len } := R
  have hsome : ¬ (some arg = none ∧ s.blockAlt = false) := fun h => Option.some_ne_none _ h.1
  have hletter : formatString cap letterH (some arg) s =
      ((fillLen (some arg) s).bind (emitString cap letterH (some arg))).map fun s =>
        { s with inBlock := false } := by
    rw [formatString, if_neg (not_not.mpr rfl), if_neg hsome]
  rw [hletter, fillLen_spec hnul hlen, Option.bind_some, R'.emitQuoted hnul]
  rfl

/-- `%#H` of NULL. -/
theorem Room.formatDash (R : Room cap s) (halt : s.blockAlt = true) :
    formatString cap letterH none s = some (s.done (lengthFor s 1) (single dash s.size (lengthFor s 1))) := by
  have R' : Room cap { s with blockLen := lengthFor s 1 } := R
  have hfill : fillLen none s = some { s with blockLen := lengthFor s 1 } := by
    have hone : vsnprintfStrlen none s.blockAlt s.blockSpace = some 1 := by rw [vsnprintfStrlen, if_pos halt]
    rw [fillLen, hone, lengthFor]
    by_cases hzero : s.blockLen = 0
    · rw [if_pos hzero, if_pos hzero]
      rfl
    · rw [if_neg hzero, if_neg hzero]
  have hnone : ¬ ((none : Option Bytes) = none ∧ s.blockAlt = false) := by simp [halt]
  have hletter : formatString cap letterH none s =
      ((fillLen none s).bind (Log.putIf cap dash)).map fun s => { s with inBlock := false } := by
    rw [formatString, if_neg (not_not.mpr rfl), if_neg hnone]
    rfl
  rw [hletter, hfill, Option.bind_some, R'.putIf dash]
  rfl

/-- What stands for NULL. -/
def orNull (arg : Option Bytes) : Bytes := arg.getD nullText

/-- Without `'#'`, or as `%s`, NULL is a text like any other. -/
theorem formatString_orNull {c : UInt8} (h : c ≠ letterH ∨ s.blockAlt = false) (arg : Option Bytes) :
    formatString cap c arg s = formatString cap c (some (orNull arg)) s := by
  cases arg with
  | some arg => rfl
  | none =>
    have halt : (if c ≠ letterH then ({ s with blockAlt := false } : Printer) else s).blockAlt = false := by
      by_cases hc : c = letterH
      · rw [if_neg (not_not.mpr hc)]
        exact h.resolve_left (not_not.mpr hc)
      · rw [if_pos hc]
    rw [formatString, formatString]
    simp only [halt, orNull, Option.getD_none]
    rfl

/-- Any other conversion of a string. -/
theorem formatString_plain {c : UInt8} (hc : c ≠ letterH) (arg : Bytes) (s : Printer) :
    formatString cap c (some arg) s =
      ((fillLen (some arg) { s with blockAlt := false }).bind (plainLoop cap arg)).map fun s =>
        { s with inBlock := false } := by
  have hsome : ¬ (some arg = none ∧ ({ s with blockAlt := false } : Printer).blockAlt = false) :=
    fun h => Option.some_ne_none _ h.1
  have hemit : emitString cap c (some arg) = plainLoop cap arg := funext fun s => if_neg hc
  rw [formatString, if_pos hc, if_neg hsome, hemit]

/-- Every conversion of a string that ends stays in the buffer. -/
theorem Room.formatString (R : Room cap s) (c : UInt8) {arg : Option Bytes}
    (hnul : ∀ mem, arg = some mem → nul ∈ mem) :
    ∃ s', formatString cap c arg s = some s' ∧ Room cap s' ∧ s'.inBlock = false ∧ s'.args = s.args := by
  have hmem : nul ∈ orNull arg := by
    cases arg with
    | none => decide
    | some arg => exact hnul arg rfl
  by_cases hc : c = letterH
  · rw [hc]
    by_cases hdash : arg = none ∧ s.blockAlt = true
    · obtain ⟨rfl, halt⟩ := hdash
      exact ⟨_, R.formatDash halt, R.done _ (single_length ..), rfl, rfl⟩
    · have hquoted := R.formatQuoted hmem rfl
      have hsame : Log.formatString cap letterH arg s = Log.formatString cap letterH (some (orNull arg)) s := by
        cases arg with
        | some arg => rfl
        | none =>
          apply formatString_orNull
          right
          simpa using hdash
      exact ⟨_, hsame.trans hquoted, R.done _ (quotedText_length ..), rfl, rfl⟩
  · have hfill := fillLen_spec (s := { s with blockAlt := false }) hmem rfl
    generalize lengthFor _ _ = len at hfill
    have R' : Room cap { s with blockAlt := false, blockLen := len } := R
    rw [formatString_orNull (Or.inl hc), formatString_plain hc, hfill, Option.bind_some, plainLoop_spec R',
      if_pos (plainEnd_lt hmem _)]
    exact ⟨_, rfl, R'.write (plainEnd_le _ _), rfl, rfl⟩

end IcecastCommon.Log
