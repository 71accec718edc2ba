import IcecastCommon.Encoding.Write
import IcecastCommon.Httpp.Message
import IcecastCommon.Log.Code

/- The formatter of `log.c`. `out` are the bytes stored so far, `str` points behind them; a
   store behind the end of the buffer, an unsigned counter that would go below zero, a read
   behind the memory of the format or of a string, and an argument of another type than the
   conversion takes are faults (`none`). An `int` has 32 bits and wraps around. -/
namespace IcecastCommon.Log
open Encoding (Bytes nul quote backslash hexChar)
open Httpp (atoi isDigit percent space)

/-! Arguments. -/

/-- What a variadic argument is. A pointer is the text that the C library prints for it; a
string is its memory, NULL as `none`. -/
inductive Arg where
  | int (value : BitVec 32)
  | long (value : BitVec 64)
  | longLong (value : BitVec 64)
  | size (value : BitVec 64)
  | pointer (text : Bytes)
  | string (memory : Option Bytes)

/-- What `__vsnprintf` works on. -/
structure Printer where
  out : Bytes
  size : Nat
  inBlock : Bool
  blockSize : BitVec 32
  blockLen : BitVec 32
  blockSpace : Bool
  blockAlt : Bool
  args : List Arg

/-- The cases of the `switch`. -/
inductive Directive where
  | long
  | size
  | dot
  | star
  | space
  | alt
  | digit
  | pointer
  | number
  | socket
  | string
  | other
deriving DecidableEq

def letterD : UInt8 := 100
def letterH : UInt8 := 72
def letterI : UInt8 := 105
def letterL : UInt8 := 108
def letterP : UInt8 := 112
def letterR : UInt8 := 82
def letterS : UInt8 := 115
def letterU : UInt8 := 117
def letterX : UInt8 := 120
def letterZ : UInt8 := 122
def dash : UInt8 := 45
def period : UInt8 := 46
def asterisk : UInt8 := 42
def numberSign : UInt8 := 35
def backtick : UInt8 := 96

def directive (c : UInt8) : Directive :=
  if c = letterL then .long
  else if c = letterZ then .size
  else if c = period then .dot
  else if c = asterisk then .star
  else if c = space then .space
  else if c = numberSign then .alt
  else if 49 ≤ c ∧ c ≤ 57 then .digit
  else if c = letterP then .pointer
  else if c = letterD ∨ c = letterI ∨ c = letterU then .number
  else if c = letterR then .socket
  else if c = letterS ∨ c = letterH then .string
  else .other

/-! Characters. -/

/-- `__vsnprintf__is_print`, for a `char` that is signed. -/
def isPrint (c : UInt8) (allowSpace : Bool) : Bool :=
  ¬ ((c.toBitVec.toInt ≤ quote.toBitVec.toInt ∨ c = backtick ∨ c = backslash) ∧ ¬ (allowSpace ∧ c = space))

/-- The loop of `__vsnprintf__strlen`. -/
def strlenLoop (allowSpace : Bool) : Bytes → Option Nat
  | [] => none
  | c :: str =>
    if c = nul then some 0
    else (strlenLoop allowSpace str).map ((if isPrint c allowSpace then 1 else 4) + ·)

/-- `__vsnprintf__strlen` -/
def vsnprintfStrlen (str : Option Bytes) (isAlt allowSpace : Bool) : Option Nat :=
  match str with
  | none => some (if isAlt then 1 else 6)
  | some str => (strlenLoop allowSpace str).map (· + if isAlt then 2 else 0)

/-! Stores. -/

/-- `*(str++) = c;` in a buffer of `cap` bytes. -/
def put (cap : Nat) (c : UInt8) (s : Printer) : Option Printer :=
  if s.out.length < cap then some { s with out := s.out ++ [c] } else none

/-- `size -= n;` -/
def shrink (n : Nat) (s : Printer) : Option Printer :=
  if n ≤ s.size then some { s with size := s.size - n } else none

/-- `size -= n; block_len -= n;` -/
def spend (n : Nat) (s : Printer) : Option Printer :=
  (shrink n s).map fun s => { s with blockLen := s.blockLen - BitVec.ofNat 32 n }

/-- `if (size && block_len) { *(str++) = c; size--; block_len--; }` -/
def putIf (cap : Nat) (c : UInt8) (s : Printer) : Option Printer :=
  if s.size ≠ 0 ∧ s.blockLen ≠ 0 then (put cap c s).bind (spend 1) else some s

/-- The loop of `%s`. -/
def plainLoop (cap : Nat) : Bytes → Printer → Option Printer
  | [], _ => none
  | c :: arg, s =>
    if c ≠ nul ∧ s.blockLen ≠ 0 ∧ s.size ≠ 0 then do
      let s ← put cap c s
      let s ← spend 1 s
      plainLoop cap arg s
    else some s

/-- The body of the loop of `%H`. -/
def escapeChar (cap : Nat) (c : UInt8) (s : Printer) : Option Printer :=
  if isPrint c s.blockSpace then put cap c s
  else if s.size < 4 ∨ s.blockLen.toInt < 4 then put cap period s
  else do
    let s ← put cap backslash s
    let s ← put cap letterX s
    let s ← put cap (hexChar (c.toNat / 16)) s
    let s ← put cap (hexChar (c.toNat % 16)) s
    spend 3 s

/-- The loop of `%H`. -/
def escapeLoop (cap : Nat) : Bytes → Printer → Option Printer
  | [], _ => none
  | c :: arg, s =>
    if c ≠ nul ∧ s.blockLen ≠ 0 ∧ s.size ≠ 0 then do
      let s ← escapeChar cap c s
      let s ← spend 1 s
      escapeLoop cap arg s
    else some s

/-- The quotes of `%#H`. -/
def putQuote (cap : Nat) (s : Printer) : Option Printer := if s.blockAlt then putIf cap quote s else some s

/-- `(null)` -/
def nullText : Bytes := [40, 110, 117, 108, 108, 41, nul]

/-- `if (!block_len) block_len = __vsnprintf__strlen (arg, block_alt, block_space);` -/
def fillLen (arg : Option Bytes) (s : Printer) : Option Printer :=
  if s.blockLen = 0 then
    (vsnprintfStrlen arg s.blockAlt s.blockSpace).map fun n => { s with blockLen := BitVec.ofNat 32 n }
  else some s

/-- The loops of `'s'` and `'H'`, and the quotes. -/
def emitString (cap : Nat) (c : UInt8) (arg : Option Bytes) (s : Printer) : Option Printer :=
  match arg with
  | none => if c = letterH then putIf cap dash s else none
  | some arg =>
    if c = letterH then do
      let s ← putQuote cap s
      let s ← escapeLoop cap arg s
      putQuote cap s
    else plainLoop cap arg s

/-- The cases `'s'` and `'H'`, for the conversion `c` of `arg`. -/
def formatString (cap : Nat) (c : UInt8) (arg : Option Bytes) (s : Printer) : Option Printer :=
  let s := if c ≠ letterH then { s with blockAlt := false } else s
  let arg := if arg = none ∧ s.blockAlt = false then some nullText else arg
  ((fillLen arg s).bind (emitString cap c arg)).map fun s => { s with inBlock := false }

/-! Numbers. -/

def decimalText (n : Int) : Bytes :=
  (if n < 0 then [dash] else []) ++ (Nat.toDigits 10 n.natAbs).map fun c => UInt8.ofNat c.toNat

/-- A value as the conversion `c` takes it. -/
def numeral {w : Nat} (c : UInt8) (value : BitVec w) : Bytes :=
  if c = letterU then decimalText value.toNat else decimalText value.toInt

/-- `<<<invalid>>>` -/
def invalidText : Bytes := [60, 60, 60, 105, 110, 118, 97, 108, 105, 100, 62, 62, 62]

/-- The text of a number, and the arguments behind it. -/
def numberText (c : UInt8) (s : Printer) : Option (Bytes × Printer) :=
  if s.blockSize = 0 then
    match s.args with
    | .int value :: args => some (numeral c value, { s with args := args })
    | _ => none
  else if s.blockSize = 1 then
    match s.args with
    | .long value :: args => some (numeral c value, { s with args := args })
    | _ => none
  else if s.blockSize = 2 then
    match s.args with
    | .longLong value :: args => some (numeral c value, { s with args := args })
    | _ => none
  else if s.blockSize = 122 then
    match s.args with
    | .size value :: args => some (numeral c value, { s with args := args })
    | _ => none
  else some (invalidText, s)

/-- `SOCK_ERROR` -/
def sockErrorText : Bytes := [83, 79, 67, 75, 95, 69, 82, 82, 79, 82]

/-- The text of a `sock_t`. -/
def socketText (sock : BitVec 32) : Bytes := if sock = -1 then sockErrorText else decimalText sock.toInt

/-- `buf` behind a call of `snprintf`. -/
def printed (text : Bytes) : Option Bytes := some (snprintf 80 text)

/-! The loop over the format. -/

/-- `for (; *format >= '0' && *format <= '9'; format++);` -/
def skipDigits (format : Bytes) : Nat → Nat → Option Nat
  | 0, _ => none
  | fuel + 1, i => do
    let c ← format[i]?
    if isDigit c then skipDigits format fuel (i + 1) else some i

/-- The character `c` of a block, at the position `i` of the format. -/
def formatBlock (cap : Nat) (format : Bytes) (i : Nat) (c : UInt8) (s : Printer) : Option (Nat × Printer) :=
  match directive c with
  | .long => some (i, { s with blockSize := s.blockSize + 1 })
  | .size => some (i, { s with blockSize := 122 })
  | .dot => some (i, s)
  | .star =>
    match s.args with
    | .int value :: args => some (i, { s with blockLen := value, args := args })
    | _ => none
  | .space => some (i, { s with blockSpace := true })
  | .alt => some (i, { s with blockAlt := true })
  | .digit => do
    let j ← skipDigits format (format.length + 1) i
    some (j - 1, { s with blockLen := BitVec.ofInt 32 (atoi (format.drop i)) })
  | .pointer =>
    match s.args with
    | .pointer text :: args => (formatString cap c (printed text) { s with args := args }).map ((i, ·))
    | _ => none
  | .number => do
    let (text, s) ← numberText c s
    (formatString cap c (printed text) s).map ((i, ·))
  | .socket =>
    match s.args with
    | .int sock :: args => (formatString cap c (printed (socketText sock)) { s with args := args }).map ((i, ·))
    | _ => none
  | .string =>
    match s.args with
    | .string arg :: args => (formatString cap c arg { s with args := args }).map ((i, ·))
    | _ => none
  | .other => some (i, s)

/-- The body of the loop. -/
def formatChar (cap : Nat) (format : Bytes) (i : Nat) (c : UInt8) (s : Printer) : Option (Nat × Printer) :=
  if s.inBlock = false then
    if c = percent then
      some (i, { s with inBlock := true, blockSize := 0, blockLen := 0, blockSpace := false, blockAlt := false })
    else do
      let s ← put cap c s
      let s ← shrink 1 s
      some (i, s)
  else formatBlock cap format i c s

def formatLoop (cap : Nat) (format : Bytes) : Nat → Nat → Printer → Option Printer
  | 0, _, _ => none
  | fuel + 1, i, s => do
    let c ← format[i]?
    if c = nul ∨ s.size = 0 then some s
    else do
      let (i, s) ← formatChar cap format i c s
      formatLoop cap format fuel (i + 1) s

/-- `if (!size) str--; *str = 0;`, and what is in the buffer then. -/
def finish (cap : Nat) (s : Printer) : Option Bytes :=
  if s.size = 0 then
    if s.out ≠ [] ∧ s.out.length ≤ cap then some (s.out.dropLast ++ [nul]) else none
  else if s.out.length < cap then some (s.out ++ [nul])
  else none

/-- `__vsnprintf` on the memory of a format: what is in the buffer up to its NUL. -/
def vsnprintf (size : Nat) (format : Bytes) (args : List Arg) : Option Bytes := do
  let s ← formatLoop size format (format.length + 1) 0
    { out := [], size := size, inBlock := false, blockSize := 0, blockLen := 0, blockSpace := false,
      blockAlt := false, args := args }
  finish size s

end IcecastCommon.Log
