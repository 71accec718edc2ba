import IcecastCommon.Encoding.State

/- The writing side of `encoding.c`. The callback is offered bytes and answers how many it
   took; `memExt` and `memBuf` say whether the allocations of the extension text and of
   the chunk succeed. -/
namespace IcecastCommon.Encoding

variable {σ : Type}

/-- A write callback with its userdata. -/
abbrev WriteCallback (σ : Type) := Bytes → σ → Int × σ

/-- `__flush_output`. -/
def flushOutput (self : HttppEncoding) (cb : Option (WriteCallback σ)) (userdata : σ) :
    HttppEncoding × σ :=
  match cb, self.bufWriteEncoded.mem with
  | some cb, some mem =>
    let (ret, userdata) := cb self.bufWriteEncoded.rest userdata
    if 0 < ret then
      let offset := self.bufWriteEncoded.offset + ret.toNat
      if offset = mem.length then ({ self with bufWriteEncoded := Buf.null }, userdata)
      else ({ self with bufWriteEncoded := ⟨some mem, offset⟩ }, userdata)
    else (self, userdata)
  | _, _ => (self, userdata)

/-- A lower case hexadecimal digit. -/
def hexChar (d : Nat) : UInt8 := UInt8.ofNat (if d < 10 then 48 + d else 87 + d)

def printDigits : Nat → Nat → Bytes → Bytes
  | 0, _, acc => acc
  | fuel + 1, n, acc =>
    if n < 16 then hexChar n :: acc else printDigits fuel (n / 16) (hexChar (n % 16) :: acc)

/-- `snprintf(s, 32, "%lx", n)`; a `long` has at most 16 digits. -/
def printLx (n : Nat) : Bytes := printDigits 16 n []

/-- A value between its quotes. -/
def escapeValue (value : Bytes) : Bytes :=
  value.flatMap fun c => if c = quote then [backslash, c] else [c]

/-- The text `__enc_chunked_write_extensions` writes for one entry. -/
def writeExtension (cur : HttppMeta) : Bytes :=
  match cur.key with
  | none => []
  | some key =>
    if cur.valueLen ≠ 0 ∧ cur.value = none then []
    else
      semicolon :: cString key ++
        if cur.valueLen ≠ 0 then
          equals :: quote :: escapeValue ((cur.value.getD []).take cur.valueLen) ++ [quote]
        else []

/-- `__enc_chunked_write_extensions`: the text, or NULL when there is none or no memory. -/
def encChunkedWriteExtensions (memExt : Bool) (self : HttppEncoding) :
    Option Bytes × HttppEncoding :=
  if self.metaWrite = [] then (none, self)
  else if memExt = false then (none, self)
  else (some (self.metaWrite.flatMap writeExtension), { self with metaWrite := [] })

/-- `__enc_chunked_write`; `buf` is NULL or the `len` bytes to write. -/
def encChunkedWrite (memExt memBuf : Bool) (self : HttppEncoding) (buf : Option Bytes) :
    Int × HttppEncoding :=
  if 0 < httppEncodingPending self then (0, self)
  else
    let data := (buf.getD []).take 1048576
    let (extensions, self) := encChunkedWriteExtensions memExt self
    if memBuf = false then (-1, self)
    else
      let header := printLx data.length ++ cString (extensions.getD []) ++ crlf
      let tail := if buf = none then crlf ++ crlf else crlf
      (data.length, { self with bufWriteEncoded := ⟨some (header ++ data ++ tail), 0⟩ })

/-- `__enc_identity_write`. -/
def encIdentityWrite (self : HttppEncoding) (buf : Option Bytes) (cb : WriteCallback σ)
    (userdata : σ) : Int × HttppEncoding × σ :=
  let (ret, userdata) := cb (buf.getD []) userdata
  (ret, self, userdata)

/-- `httpp_encoding_write` with `self` not NULL. -/
def httppEncodingWrite (memExt memBuf : Bool) (self : HttppEncoding) (buf : Option Bytes)
    (cb : Option (WriteCallback σ)) (userdata : σ) : Int × HttppEncoding × σ :=
  match cb with
  | none => (-1, self, userdata)
  | some cb =>
    let (self, userdata) := flushOutput self (some cb) userdata
    let (ret, self, userdata) :=
      match self.process with
      | .identity => encIdentityWrite self buf cb userdata
      | .chunked =>
        let (ret, self) := encChunkedWrite memExt memBuf self buf
        (ret, self, userdata)
    let (self, userdata) := flushOutput self (some cb) userdata
    (ret, self, userdata)

end IcecastCommon.Encoding
