import IcecastCommon.Encoding.State

/- The reading side of `encoding.c`: the header scanner, the extension parser and
   `__enc_chunked_read`, which is cut here into the pieces its comments name. A function
   returns `none` where the C code reads or writes outside the bytes it has; `memRaw` and
   `memBody` say whether the allocation of the raw buffer and of the body buffer succeed.
   The few small allocations for metadata succeed. -/
namespace IcecastCommon.Encoding

variable {σ : Type}

/-- A read callback with its userdata: it is asked for a number of bytes. -/
abbrev ReadCallback (σ : Type) := Nat → σ → Reply × σ

/-! The extension parser. -/

/-- The length of a value: to the closing quote, or to the next `;` outside quotes. -/
def measureValue : Nat → Bytes → Nat
  | _, [] => 0
  | inQuote, c :: p =>
    if inQuote ≠ 0 then
      let inQuote := if c = backslash then 2 else if c = quote then inQuote - 1 else inQuote
      if inQuote ≠ 0 then measureValue inQuote p + 1 else 1
    else if c = quote then measureValue 1 p + 1
    else if c = semicolon then 0
    else measureValue 0 p + 1

/-- The decoding of a value `c`; `p` are the bytes behind it. The code looks for the end of
an unquoted value at `p[value_len]`, with the number of bytes still to decode. -/
def decodeValue (p : Bytes) : Nat → Bytes → Option Bytes
  | _, [] => some []
  | inQuote, c :: cs =>
    if inQuote ≠ 0 then
      if c = backslash then decodeValue p 2 cs
      else if c = quote then
        if inQuote - 1 ≠ 0 then do some (quote :: (← decodeValue p (inQuote - 1) cs))
        else some []
      else do some (c :: (← decodeValue p inQuote cs))
    else if c = quote then decodeValue p 1 cs
    else
      match p[cs.length + 1]? with
      | none => none
      | some x =>
        if x = semicolon then some []
        else do some (c :: (← decodeValue p 0 cs))

/-- The loop of `__enc_chunked_read_extentions`; `p` are all bytes from the first
extension on, and `len` the length of the extensions. -/
def readExtentions : Nat → Bytes → Nat → Option (List HttppMeta)
  | 0, _, _ => none
  | fuel + 1, p, len =>
    if len = 0 then some []
    else
      match p with
      | [] => none
      | c :: p =>
        if c ≠ semicolon then some []
        else
          let len := len - 1
          let keyLen := ((p.take len).takeWhile (· ≠ equals)).length
          let key := p.take keyLen
          let p := p.drop keyLen
          let len := len - keyLen
          -- the extensions end with the key or with its `=`
          if len = 0 ∨ len - 1 = 0 then some [⟨some key, none, 0⟩]
          else
            let p := p.drop 1
            let len := len - 1
            let valueLen := measureValue 0 (p.take len)
            do
              let value ← decodeValue (p.drop valueLen) 0 (p.take valueLen)
              let next ← readExtentions fuel (p.drop valueLen) (len - valueLen)
              some (⟨some key, some value, value.length⟩ :: next)

/-- `__enc_chunked_read_extentions`: the entries are appended to `meta_read`. -/
def encChunkedReadExtentions (self : HttppEncoding) (p : Bytes) (len : Nat) :
    Option HttppEncoding := do
  let metas ← readExtentions (len + 1) p len
  some { self with metaRead := self.metaRead ++ metas }

/-! The chunk header. -/

/-- The variables of the header scanner. -/
structure Scan where
  inQuote : Nat
  offsetExtentions : Int
  offsetCR : Int
  offsetLF : Int
deriving DecidableEq

def Scan.start : Scan := ⟨0, -1, -1, -1⟩

/-- The scanner at the byte `c` with offset `i`. -/
def Scan.next (s : Scan) (i : Nat) (c : UInt8) : Scan :=
  if s.inQuote ≠ 0 then
    if c = backslash then { s with inQuote := 2 }
    else if c = quote then { s with inQuote := s.inQuote - 1 }
    else s
  else if c = quote then { s with inQuote := 1 }
  else if c = semicolon ∧ s.offsetExtentions = -1 then { s with offsetExtentions := i }
  else if c = cr then { s with offsetCR := i }
  else if c = lf ∧ s.offsetCR = (i : Int) - 1 then { s with offsetLF := i }
  else s

/-- The scanner from offset `i` on; it stops at the first CRLF outside quotes. -/
def scanHeader : Nat → Bytes → Scan → Scan
  | _, [], s => s
  | i, c :: cs, s =>
    let s := s.next i c
    if s.offsetLF ≠ -1 then s else scanHeader (i + 1) cs s

def isSpace (c : UInt8) : Bool := c = 32 || (9 ≤ c && c ≤ 13)

/-- The value of a hexadecimal digit. -/
def hexDigit (c : UInt8) : Option Nat :=
  if 48 ≤ c ∧ c ≤ 57 then some (c.toNat - 48)
  else if 97 ≤ c ∧ c ≤ 102 then some (c.toNat - 87)
  else if 65 ≤ c ∧ c ≤ 70 then some (c.toNat - 55)
  else none

/-- The value of the digits a string starts with. -/
def hexPrefix : Bytes → Nat → Nat
  | [], acc => acc
  | c :: s, acc =>
    match hexDigit c with
    | some d => hexPrefix s (16 * acc + d)
    | none => acc

/-- The digits of an unsigned `%x` conversion: `0x` may stand before them. `0x` without a digit is no number,
as in ISO C; glibc takes it for 0. -/
def hexNumber (s : Bytes) : Option Nat :=
  match s with
  | [] => none
  | c :: s' =>
    match hexDigit c with
    | none => none
    | some _ =>
      match s' with
      | x :: s'' =>
        if c = 48 ∧ (x = 120 ∨ x = 88) then
          match s'' with
          | d :: _ => if hexDigit d = none then none else some (hexPrefix s'' 0)
          | [] => none
        else some (hexPrefix s 0)
      | [] => some (hexPrefix s 0)

/-- `sscanf(s, "%llx", &n)`: leading space and a sign are accepted, and a number beyond the
range is `ULLONG_MAX`. A NUL ends the string, being neither space nor digit. -/
def sscanfLlx (s : Bytes) : Option Nat :=
  match s.dropWhile isSpace with
  | [] => none
  | c :: s =>
    if c = 45 then
      (hexNumber s).map fun n => if n < 2 ^ 64 then (2 ^ 64 - n) % 2 ^ 64 else 2 ^ 64 - 1
    else if c = 43 then (hexNumber s).map fun n => min n (2 ^ 64 - 1)
    else (hexNumber (c :: s)).map fun n => min n (2 ^ 64 - 1)

/-! `__enc_chunked_read`. -/

/-- What follows a complete header: the offset of the raw buffer stands at the body. -/
def chunkBody (memBody : Bool) (self : HttppEncoding) (bodylen : Nat) : Reply × HttppEncoding :=
  let raw := self.bufReadRaw
  if raw.offset = raw.len then
    -- free the buffer and point to the next header
    (some [], { self with bufReadRaw := Buf.null, readBytesTillHeader := (bodylen + 2) % 2 ^ 64 })
  else if raw.left ≤ bodylen then
    -- what we have in the buffer is less or equal than our bodylen
    (some [], { self with
      bufReadDecoded := raw
      bufReadRaw := Buf.null
      readBytesTillHeader := (bodylen + 2 - raw.left) % 2 ^ 64 })
  -- just retry later if we can not allocate a buffer
  else if memBody = false then (none, { self with bufReadDecoded := Buf.null })
  else
    -- we have more than just the body in our buffer
    let raw' : Buf := { raw with offset := raw.offset + bodylen }
    let self : HttppEncoding := { self with bufReadDecoded := ⟨some (raw.rest.take bodylen), 0⟩ }
    if 2 ≤ raw'.left then
      let raw'' : Buf := { raw' with offset := raw'.offset + 2 }
      (some [], { self with
        bufReadRaw := if raw''.left = 0 then Buf.null else raw''
        readBytesTillHeader := 0
        bytesTillEof := if self.bytesTillEof ≠ -1 then 0 else self.bytesTillEof })
    else (some [], { self with bufReadRaw := raw', readBytesTillHeader := 2 })

/-- The part that needs at least a little bit of a header in the raw buffer. -/
def chunkHeader (memBody : Bool) (self : HttppEncoding) : Option (Reply × HttppEncoding) :=
  let raw := self.bufReadRaw
  let mem := raw.mem.getD []
  let s := scanHeader raw.offset raw.rest Scan.start
  if s.offsetLF = -1 then some (some [], self)
  else do
    -- first pass the extensions to the extension parser if any
    let self ←
      if s.offsetExtentions ≠ -1 then
        encChunkedReadExtentions self (mem.drop s.offsetExtentions.toNat)
          (s.offsetCR - s.offsetExtentions).toNat
      else some self
    -- replace whatever comes after the length by NUL
    let c := if s.offsetExtentions ≠ -1 then s.offsetExtentions else s.offsetCR
    if c < 0 then none
    else
      let mem := mem.set c.toNat nul
      match sscanfLlx (mem.drop raw.offset) with
      | none => some (none, { self with bufReadRaw := ⟨some mem, raw.offset⟩ })
      | some bodylen =>
        let self : HttppEncoding :=
          { self with
            bufReadRaw := ⟨some mem, s.offsetLF.toNat + 1⟩
            bytesTillEof := if bodylen = 0 then 2 else self.bytesTillEof }
        some (chunkBody memBody self bodylen)

/-- The part behind a successful read into the raw buffer: skip the tailing CRLF, check
for the end of the stream, go for the header. -/
def chunkRaw (memBody : Bool) (self : HttppEncoding) : Option (Reply × HttppEncoding) :=
  if self.bufReadRaw.left = self.readBytesTillHeader then
    some (some [], { self with bufReadRaw := Buf.null, readBytesTillHeader := 0 })
  else
    let self :=
      if self.readBytesTillHeader < self.bufReadRaw.left then
        { self with
          bufReadRaw := { self.bufReadRaw with
            offset := self.bufReadRaw.offset + self.readBytesTillHeader }
          readBytesTillHeader := 0 }
      else self
    let self :=
      if self.bytesTillEof ≠ -1 ∧ self.readBytesTillHeader = 0 then { self with bytesTillEof := 0 }
      else self
    if self.bytesTillEof = 0 then some (some [], self)
    else chunkHeader memBody self

/-- The raw buffer after `realloc` or `malloc`. -/
def growRaw (raw : Buf) : Buf :=
  match raw.mem with
  | none => ⟨some [], 0⟩
  | some _ => raw

/-- A raw buffer that got nothing is freed if it is empty. -/
def dropRaw (raw : Buf) : Buf :=
  if raw.len = 0 then { raw with mem := none } else raw

/-- `__enc_chunked_read`. -/
def encChunkedRead (memRaw memBody : Bool) (self : HttppEncoding) (len : Nat)
    (cb : Option (ReadCallback σ)) (userdata : σ) : Option (Reply × HttppEncoding × σ) :=
  match cb with
  | none => some (none, self, userdata)
  | some cb =>
    if 2 < self.readBytesTillHeader then
      -- a few bytes to go: the 2 is the end of chunk mark that is not part of the body
      match cb (min len (self.readBytesTillHeader - 2)) userdata with
      | (none, userdata) => some (none, self, userdata)
      | (some bs, userdata) =>
        some (some bs,
          { self with readBytesTillHeader := self.readBytesTillHeader - bs.length }, userdata)
    else
      let buflen := if self.bytesTillEof ≠ -1 then self.bytesTillEof.toNat else 1024
      if memRaw = false then some (none, self, userdata)
      else
        let raw := growRaw self.bufReadRaw
        match cb buflen userdata with
        | (none, userdata) => some (none, { self with bufReadRaw := dropRaw raw }, userdata)
        | (some [], userdata) => some (some [], { self with bufReadRaw := dropRaw raw }, userdata)
        | (some (b :: bs), userdata) => do
          let self := { self with bufReadRaw := ⟨some (raw.mem.getD [] ++ b :: bs), raw.offset⟩ }
          let (reply, self) ← chunkRaw memBody self
          some (reply, self, userdata)

/-- `__enc_identity_read`. -/
def encIdentityRead (self : HttppEncoding) (len : Nat) (cb : Option (ReadCallback σ))
    (userdata : σ) : Option (Reply × HttppEncoding × σ) :=
  match cb with
  | none => some (none, self, userdata)
  | some cb =>
    let (reply, userdata) := cb len userdata
    some (reply, self, userdata)

/-- `httpp_encoding_read` with `self` and `buf` not NULL. -/
def httppEncodingRead (memRaw memBody : Bool) (self : HttppEncoding) (len : Nat)
    (cb : Option (ReadCallback σ)) (userdata : σ) : Option (Reply × HttppEncoding × σ) :=
  if len = 0 then some (some [], self, userdata)
  else
    let (ret, decoded) := copyBuffer self.bufReadDecoded len
    let self := { self with bufReadDecoded := decoded }
    if ret.value = toSsize len then some (ret, self, userdata)
    else do
      let done := ret.bytes
      let len := len - done.length
      let (ret, self, userdata) ←
        match self.process with
        | .identity => encIdentityRead self len cb userdata
        | .chunked => encChunkedRead memRaw memBody self len cb userdata
      match ret with
      | none => some (if done = [] then none else some done, self, userdata)
      | some bs =>
        let done := done ++ bs
        let (ret, decoded) := copyBuffer self.bufReadDecoded (len - bs.length)
        some (some (done ++ ret.bytes), { self with bufReadDecoded := decoded }, userdata)

end IcecastCommon.Encoding
