import IcecastCommon.Httpp.Vars

/- The parsing of requests and responses in `httpp.c`. A message is copied into a buffer with
   a NUL behind it and cut up in place: NULs are written into the buffer, and what is handed
   on are offsets into it. An access outside of the buffer is a fault (`none`), and so is the
   use of a line that was not set. The last loop of `split_headers` only moves a local index;
   it is here for what it reads. -/
namespace IcecastCommon.Httpp
open Encoding (Bytes nul cr lf cString)

/-- `MAX_HEADERS` -/
def maxHeaders : Nat := 32

/-- A `size_t` assigned to an `int`. -/
def toInt (n : Nat) : Int := (n : Int).bmod (2 ^ 32)

/-- The string at an offset; a fault when no NUL follows. -/
def stringAt (data : Bytes) (p : Nat) : Option Bytes :=
  if nul ∈ data.drop p then some (cString (data.drop p)) else none

/-- `data[i] = '\0'` -/
def putNul (data : Bytes) (i : Nat) : Option Bytes :=
  if i < data.length then some (data.set i nul) else none

/-! Lines. -/

/-- The array `line`, whose cells are not set at first. -/
abbrev Lines := Nat → Option Nat

/-- `line[l] = &data[p]` -/
def Lines.set (line : Lines) (l p : Nat) : Option Lines :=
  if l < maxHeaders then some (Function.update line l (some p)) else none

/-- `while (i < len && data[i] == '\n') i++`, at most `n` times. -/
def skipNewlines (data : Bytes) (len : Nat) : Nat → Nat → Option Nat
  | 0, i => some i
  | n + 1, i =>
    if i < len then do
      let c ← data[i]?
      if c = lf then skipNewlines data len n (i + 1) else some i
    else some i

/-- `split_headers` after its loop. -/
def splitDone (len i lines : Nat) (data : Bytes) (line : Lines) : Option (Nat × Bytes × Lines) := do
  let _ ← skipNewlines data len (len - (i + 1)) (i + 1)
  some (lines, data, line)

/-- The loop of `split_headers` over `n` more bytes from `i` on. -/
def splitLoop (len : Nat) : Nat → Nat → Nat → Bytes → Lines → Option (Nat × Bytes × Lines)
  | 0, i, lines, data, line => splitDone len i lines data line
  | n + 1, i, lines, data, line =>
    if lines < maxHeaders then do
      let c ← data[i]?
      let data ← (if c = cr then putNul data i else some data)
      let c ← data[i]?
      if c = lf then do
        let data ← putNul data i
        if lines + 1 ≥ maxHeaders then some (maxHeaders, data, line)
        else if i + 1 < len then do
          let c ← data[i + 1]?
          if c = lf ∨ c = cr then splitDone len i (lines + 1) data line
          else do
            let line ← line.set (lines + 1) (i + 1)
            splitLoop len n (i + 1) (lines + 1) data line
        else splitLoop len n (i + 1) (lines + 1) data line
      else splitLoop len n (i + 1) lines data line
    else splitDone len i lines data line

/-- `split_headers` -/
def splitHeaders (data : Bytes) (len : Nat) : Option (Nat × Bytes × Lines) := do
  let line ← Lines.set (fun _ => none) 0 0
  splitLoop len len 0 0 data line

/-! Headers. -/

/-- `':'` -/
def colon : UInt8 := 58

/-- `while (i < slen && line[l][i] == ' ') i++` with `n` bytes left. -/
def skipSpaces (data : Bytes) (p : Nat) : Nat → Nat → Option Nat
  | 0, i => some i
  | n + 1, i => do
    let c ← data[p + i]?
    if c = space then skipSpaces data p n (i + 1) else some i

/-- The loop of `parse_headers` over the `n` more bytes of the line at `p`, up to the value. -/
def headerLoop (p slen : Nat) : Nat → Nat → Bool → Bytes → Option (Bytes × Option Nat)
  | 0, _, _, data => some (data, none)
  | n + 1, i, whitespace, data => do
    let c ← data[p + i]?
    if c = colon then do
      let data ← putNul data (p + i)
      headerLoop p slen n (i + 1) true data
    else if whitespace then do
      let i ← skipSpaces data p (n + 1) i
      some (data, if i < slen then some (p + i) else none)
    else headerLoop p slen n (i + 1) false data

/-- `_lowercase` -/
def lowercase (data : Bytes) (p : Nat) : Option Bytes := do
  let str ← stringAt data p
  some (data.take p ++ str.map toLower ++ data.drop (p + str.length))

/-- What `parse_headers` does with the line at `p`. -/
def parseHeader (parser : Parser) (data : Bytes) (p : Nat) : Option (Bytes × Parser) := do
  let str ← stringAt data p
  let slen := (toInt str.length).toNat
  let (data, value) ← headerLoop p slen slen 0 false data
  match value with
  | none => some (data, parser)
  | some value => do
    let data ← lowercase data p
    let name ← stringAt data p
    let value ← stringAt data value
    let parser ← httppSetvar parser (some name) (some value)
    some (data, parser)

/-- `parse_headers` for `n` more lines from the line `l` on. -/
def parseHeaders (line : Lines) : Nat → Nat → Bytes → Parser → Option Parser
  | 0, _, _, parser => some parser
  | n + 1, l, data, parser => do
    let p ← line l
    let (data, parser) ← parseHeader parser data p
    parseHeaders line n (l + 1) data parser

/-! Requests. -/

/-- `__protocol` -/
def varProtocol : Bytes := [95, 95, 112, 114, 111, 116, 111, 99, 111, 108]

/-- `__version` -/
def varVersion : Bytes := [95, 95, 118, 101, 114, 115, 105, 111, 110]

/-- `__uri` -/
def varUri : Bytes := [95, 95, 117, 114, 105]

/-- `__rawuri` -/
def varRawuri : Bytes := [95, 95, 114, 97, 119, 117, 114, 105]

/-- `__queryargs` -/
def varQueryargs : Bytes := [95, 95, 113, 117, 101, 114, 121, 97, 114, 103, 115]

/-- `__req_type` -/
def varReqType : Bytes := [95, 95, 114, 101, 113, 95, 116, 121, 112, 101]

/-- `__errormessage` -/
def varErrorMessage : Bytes := [95, 95, 101, 114, 114, 111, 114, 109, 101, 115, 115, 97, 103, 101]

/-- `__errorcode` -/
def varErrorCode : Bytes := [95, 95, 101, 114, 114, 111, 114, 99, 111, 100, 101]

/-- `'?'` -/
def questionMark : UInt8 := 63

/-- `'/'` -/
def slash : UInt8 := 47

/-- The names of the request types, in the order that `httpp_str_to_method` tries them. -/
def methodNames : List (Bytes × RequestType) :=
  [([71, 69, 84], .get), ([80, 79, 83, 84], .post), ([80, 85, 84], .put), ([72, 69, 65, 68], .head),
   ([79, 80, 84, 73, 79, 78, 83], .options), ([68, 69, 76, 69, 84, 69], .delete),
   ([84, 82, 65, 67, 69], .trace), ([67, 79, 78, 78, 69, 67, 84], .connect),
   ([83, 79, 85, 82, 67, 69], .source), ([80, 76, 65, 89], .play), ([83, 84, 65, 84, 83], .stats)]

/-- `httpp_str_to_method` -/
def httppStrToMethod (method : Bytes) : RequestType :=
  match methodNames.find? fun entry => sameIgnoringCase entry.1 method with
  | some entry => entry.2
  | none => .unknown

/-- The text that `httpp_parse` stores for a request type. -/
def reqTypeText (reqType : RequestType) : Option Bytes :=
  (methodNames.find? fun entry => entry.2 = reqType).map Prod.fst

/-- The loop of `httpp_parse` over the `n` more bytes of its first line, which is at `p`; no
result stands for an extra element. -/
def requestLoop (p : Nat) : Nat → Nat → Bool → Nat → Bytes → Option Nat → Option Nat →
    Option (Option (Bytes × Option Nat × Option Nat))
  | 0, _, _, _, data, uri, version => some (some (data, uri, version))
  | n + 1, i, whitespace, wh, data, uri, version => do
    let c ← data[p + i]?
    if c = space then do
      let data ← putNul data (p + i)
      requestLoop p n (i + 1) true wh data uri version
    else if whitespace then
      match wh with
      | 0 => requestLoop p n (i + 1) false 1 data (some (p + i)) version
      | 1 => requestLoop p n (i + 1) false 2 data uri (some (p + i))
      | 2 => some none
      | wh + 3 => requestLoop p n (i + 1) false (wh + 4) data uri version
    else requestLoop p n (i + 1) false wh data uri version

/-- The scan of the first line. -/
def scanRequest (data : Bytes) (first : Nat) : Option (Option (Bytes × Option Nat × Option Nat)) := do
  let str ← stringAt data first
  requestLoop first (toInt str.length).toNat 0 false 0 data none none

/-- The part of `httpp_parse` about the URI, with its query. -/
def takeUri (parser : Parser) (data : Bytes) (uri : Nat) : Option (Bytes × Parser) := do
  let str ← stringAt data uri
  let (data, parser) ← (match str.idxOf? questionMark with
    | none => some (data, parser)
    | some q => do
      let parser ← httppSetvar parser (some varRawuri) (some str)
      let query ← stringAt data (uri + q)
      let parser ← httppSetvar parser (some varQueryargs) (some query)
      let data ← putNul data (uri + q)
      let query ← stringAt data (uri + q + 1)
      let parser ← parseQueryArgs parser (some (data.drop (uri + q + 1))) query.length
      some (data, parser))
  let str ← stringAt data uri
  some (data, { parser with uri := some str })

/-- The part of `httpp_parse` about the version; no result stands for a version that is
not one. -/
def takeVersion (parser : Parser) (data : Bytes) (version : Nat) : Option (Option (Bytes × Parser)) := do
  let str ← stringAt data version
  match str.idxOf? slash with
  | none => some none
  | some t => do
    let data ← putNul data (version + t)
    let protocol ← stringAt data version
    let number ← stringAt data (version + t + 1)
    if protocol.length > 0 ∧ number.length > 0 then do
      let parser ← httppSetvar parser (some varProtocol) (some protocol)
      let parser ← httppSetvar parser (some varVersion) (some number)
      some (some (data, parser))
    else some none

/-- The end of `httpp_parse`. -/
def takeReqType (parser : Parser) (data : Bytes) (line : Lines) (lines : Nat) : Option (Int × Parser) :=
  if parser.reqType ≠ .none ∧ parser.reqType ≠ .unknown then do
    let parser ← httppSetvar parser (some varReqType) (reqTypeText parser.reqType)
    match parser.uri with
    | none => some (0, parser)
    | some uri => do
      let parser ← httppSetvar parser (some varUri) (some uri)
      let parser ← parseHeaders line (lines - 1) 1 data parser
      some (1, parser)
  else some (0, parser)

/-- `httpp_parse` behind its loop. -/
def takeWords (parser : Parser) (data : Bytes) (line : Lines) (lines first : Nat) (uri version : Option Nat) :
    Option (Int × Parser) := do
  let method ← stringAt data first
  let parser := { parser with reqType := httppStrToMethod method }
  match uri with
  | none => some (0, parser)
  | some uri => do
    let str ← stringAt data uri
    if str.length > 0 then do
      let (data, parser) ← takeUri parser data uri
      match version with
      | none => some (0, parser)
      | some version => do
        let taken ← takeVersion parser data version
        match taken with
        | none => some (0, parser)
        | some (data, parser) => takeReqType parser data line lines
    else some (0, parser)

/-- `httpp_parse`; `httpData` is the `len` bytes given. -/
def httppParse (parser : Parser) (httpData : Option Bytes) : Option (Int × Parser) :=
  match httpData with
  | none => some (0, parser)
  | some httpData => do
    let (lines, data, line) ← splitHeaders (httpData ++ [nul]) httpData.length
    let first ← line 0
    let words ← scanRequest data first
    match words with
    | none => some (0, parser)
    | some (data, uri, version) => takeWords parser data line lines first uri version

/-! Responses. -/

/-- `isspace` in the C locale. -/
def isSpace (c : UInt8) : Bool := c = 32 ∨ 9 ≤ c ∧ c ≤ 13

/-- `isdigit` -/
def isDigit (c : UInt8) : Bool := 48 ≤ c ∧ c ≤ 57

/-- The number that a string of digits starts with. -/
def leadingNumber (s : Bytes) : Nat := (s.takeWhile isDigit).foldl (fun n c => n * 10 + (c.toNat - 48)) 0

/-- `strtol` to the base 10, for a `long` of 64 bits. -/
def strtol (s : Bytes) : Int :=
  let value : Int := match s.dropWhile isSpace with
    | 45 :: digits => -(leadingNumber digits : Int)
    | 43 :: digits => leadingNumber digits
    | digits => leadingNumber digits
  max (-2 ^ 63) (min (2 ^ 63 - 1) value)

/-- `atoi` -/
def atoi (s : Bytes) : Int := (strtol s).bmod (2 ^ 32)

/-- `NONE` -/
def reqTypeNone : Bytes := [78, 79, 78, 69]

/-- The loop of `httpp_parse_response` over the `n` more bytes of its first line. -/
def responseLoop (p : Nat) : Nat → Nat → Bool → Nat → Bytes → Option Nat →
    Option (Bytes × Option Nat × Option Nat)
  | 0, _, _, _, data, respCode => some (data, respCode, none)
  | n + 1, i, whitespace, wh, data, respCode => do
    let c ← data[p + i]?
    if c = space then do
      let data ← putNul data (p + i)
      responseLoop p n (i + 1) true wh data respCode
    else if whitespace then
      if wh + 1 = 1 then responseLoop p n (i + 1) false (wh + 1) data (some (p + i))
      else some (data, respCode, some (p + i))
    else responseLoop p n (i + 1) false wh data respCode

/-- The scan of the first line. -/
def scanResponse (data : Bytes) (first : Nat) : Option (Bytes × Option Nat × Option Nat) := do
  let str ← stringAt data first
  responseLoop first (toInt str.length).toNat 0 false 0 data none

/-- The part of `httpp_parse_response` about the message. -/
def storeMessage (parser : Parser) (respCode message : Bytes) : Option Parser :=
  let code := atoi respCode
  if code < 200 ∨ code ≥ 300 then httppSetvar parser (some varErrorMessage) (some message) else some parser

/-- `httpp_parse_response` behind its loop. -/
def takeAnswer (parser : Parser) (data : Bytes) (line : Lines) (lines : Nat) (uri : Option Bytes)
    (respCode message : Option Nat) : Option (Int × Parser) :=
  match respCode, message with
  | some respCode, some message => do
    let respCode ← stringAt data respCode
    let message ← stringAt data message
    let parser ← httppSetvar parser (some varErrorCode) (some respCode)
    let parser ← storeMessage parser respCode message
    let parser ← httppSetvar parser (some varUri) uri
    let parser ← httppSetvar parser (some varReqType) (some reqTypeNone)
    let parser ← parseHeaders line (lines - 1) 1 data parser
    some (1, parser)
  | _, _ => some (0, parser)

/-- `httpp_parse_response` -/
def httppParseResponse (parser : Parser) (httpData : Option Bytes) (uri : Option Bytes) :
    Option (Int × Parser) :=
  match httpData with
  | none => some (0, parser)
  | some httpData => do
    let (lines, data, line) ← splitHeaders (httpData ++ [nul]) httpData.length
    let first ← line 0
    let (data, respCode, message) ← scanResponse data first
    takeAnswer parser data line lines uri respCode message

end IcecastCommon.Httpp
