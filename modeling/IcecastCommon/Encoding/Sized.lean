import IcecastCommon.Encoding.Body
import IcecastCommon.Encoding.Extensions
import IcecastCommon.Library.Cursor

/- The memory of the writing side: the two passes of `__enc_chunked_write_extensions`, the one
   that counts and the one that writes, and the chunk that `__enc_chunked_write` puts together
   in as many bytes as it has counted. What the second pass writes is one copy of the text of
   the entries, so it is enough to compare lengths. Lengths are those of objects in memory. -/
namespace IcecastCommon.Encoding
open Library

/-! The extension text. -/

/-- The loop of `__enc_chunked_write_extensions_valuelen` over `n` more bytes of the value. -/
def valuelenLoop (value : Bytes) : Nat → Nat → Nat → Option Nat
  | 0, _, ret => some ret
  | n + 1, i, ret => do
    let c ← value[i]?
    valuelenLoop value n (i + 1) (if c = quote then ret + 1 else ret)

/-- `__enc_chunked_write_extensions_valuelen` -/
def extensionsValuelen (cur : HttppMeta) : Option Nat :=
  match cur.value with
  | none => some 0
  | some value => if cur.valueLen = 0 then some 0 else valuelenLoop value cur.valueLen 0 cur.valueLen

/-- The first loop of `__enc_chunked_write_extensions`. -/
def sizeExtensions : List HttppMeta → Nat → Option Nat
  | [], buflen => some buflen
  | cur :: next, buflen =>
    match cur.key with
    | none => sizeExtensions next buflen
    | some key =>
      if cur.valueLen ≠ 0 ∧ cur.value = none then sizeExtensions next buflen
      else do
        let n ← extensionsValuelen cur
        sizeExtensions next (buflen + 4 + (cString key).length + n)

/-- The loop of `__enc_chunked_write_extensions` over `n` more bytes of a value. -/
def putValue (value : Bytes) : Nat → Nat → Cursor UInt8 → Option (Cursor UInt8)
  | 0, _, p => some p
  | n + 1, i, p => do
    let c ← value[i]?
    let p ← (if c = quote then p.put backslash else some p)
    let p ← p.put c
    putValue value n (i + 1) p

/-- What the second loop writes for an entry that it does not skip. -/
def putExtension (key : Bytes) (cur : HttppMeta) (p : Cursor UInt8) : Option (Cursor UInt8) := do
  let p ← p.put semicolon
  let p ← p.putAll (cString key)
  if cur.valueLen ≠ 0 then do
    let p ← p.put equals
    let p ← p.put quote
    let value ← cur.value
    let p ← putValue value cur.valueLen 0 p
    p.put quote
  else some p

/-- The second loop of `__enc_chunked_write_extensions`. -/
def putExtensions : List HttppMeta → Cursor UInt8 → Option (Cursor UInt8)
  | [], p => some p
  | cur :: next, p =>
    match cur.key with
    | none => putExtensions next p
    | some key =>
      if cur.valueLen ≠ 0 ∧ cur.value = none then putExtensions next p
      else do
        let p ← putExtension key cur p
        putExtensions next p

/-- `__enc_chunked_write_extensions` with the memory it returns. -/
def encChunkedWriteExtensionsInto (memExt : Bool) (self : HttppEncoding) :
    Option (Option (List (Option UInt8)) × HttppEncoding) :=
  if self.metaWrite = [] then some (none, self)
  else do
    let buflen ← sizeExtensions self.metaWrite 1
    if memExt = false then some (none, self)
    else do
      let p ← putExtensions self.metaWrite (Cursor.fresh none buflen)
      let p ← p.put nul
      some (some p.mem, { self with metaWrite := [] })

/-! The chunk. -/

/-- `snprintf` of a text into `n` bytes. -/
def snprintf (buf : List (Option UInt8)) (n : Nat) (text : Bytes) : Option (List (Option UInt8)) :=
  if n = 0 then some buf
  else do
    let p ← (Cursor.mk buf 0).putAll (text.take (n - 1))
    let p ← p.put nul
    some p.mem

/-- `memcpy (buf + offset, s, n)` -/
def copyTo (buf : List (Option UInt8)) (offset : Nat) (s : Bytes) : Option (List (Option UInt8)) := do
  let p ← (Cursor.mk buf offset).putAll s
  some p.mem

/-- The bytes that `memcpy` reads at `buf`. -/
def copyFrom (buf : Option Bytes) (len : Nat) : Option Bytes :=
  if len ≤ (buf.getD []).length then some ((buf.getD []).take len) else none

/-- The `len` bytes that `__enc_chunked_write` takes of what it is given. -/
def chunkLen (buf : Option Bytes) : Nat :=
  if (buf.getD []).length > 1048576 then 1048576 else (buf.getD []).length

/-- `total_chunk_size` -/
def totalChunkSize (headerLength : Nat) (buf : Option Bytes) : Nat :=
  headerLength + chunkLen buf + 2 + (if buf = none then 2 else 0)

/-- What `__enc_chunked_write` writes into `buf_write_encoded`. -/
def putChunk (lengthText extensionText : Bytes) (buf : Option Bytes) : Option (List (Option UInt8)) := do
  let headerLength := lengthText.length + extensionText.length + 2
  let total := totalChunkSize headerLength buf
  let out ← snprintf (List.replicate total none) total (lengthText ++ extensionText ++ crlf)
  let data ← copyFrom buf (chunkLen buf)
  let out ← copyTo out headerLength data
  copyTo out (headerLength + chunkLen buf) ((crlf ++ crlf).take (if buf = none then 4 else 2))

/-- `__enc_chunked_write` with its memory: what it returns, the object, and `buf_write_encoded`
with its length where it is set. -/
def encChunkedWriteInto (memExt memBuf : Bool) (self : HttppEncoding) (buf : Option Bytes) :
    Option (Int × HttppEncoding × Option (List (Option UInt8) × Nat)) :=
  if 0 < httppEncodingPending self then some (0, self, none)
  else do
    let encodedLength ← snprintf (List.replicate 32 none) 32 (printLx (chunkLen buf))
    let (extensions, self) ← encChunkedWriteExtensionsInto memExt self
    let lengthText ← Cursor.readTo nul encodedLength
    let extensionText ← (match extensions with
      | none => some []
      | some extensions => Cursor.readTo nul extensions)
    if memBuf = false then some (-1, self, none)
    else do
      let out ← putChunk lengthText extensionText buf
      some (chunkLen buf, self,
        some (out, totalChunkSize (lengthText.length + extensionText.length + 2) buf))

/-! The two passes. -/

/-- The value has at least `value_len` bytes. -/
def HttppMeta.Valued (cur : HttppMeta) : Prop := ∀ value, cur.value = some value → cur.valueLen ≤ value.length

theorem escapeValue_length (s : Bytes) : (escapeValue s).length = s.length + s.count quote := by
  induction s with
  | nil => rfl
  | cons c s ih =>
    by_cases hc : c = quote
    · rw [hc, escapeValue_quote, List.count_cons_self, List.length_cons, List.length_cons, List.length_cons, ih]
      omega
    · rw [escapeValue_other hc, List.count_cons_of_ne (by simpa using hc), List.length_cons, List.length_cons, ih]
      omega

/-- One more byte of a value. -/
theorem take_drop_next {value : Bytes} {n i : Nat} (h : i + (n + 1) ≤ value.length) :
    ∃ c, value[i]? = some c ∧ (value.drop i).take (n + 1) = c :: (value.drop (i + 1)).take n := by
  have hi : i < value.length := by omega
  exact ⟨value[i], List.getElem?_eq_getElem hi, by rw [List.drop_eq_getElem_cons hi, List.take_succ_cons]⟩

theorem valuelenLoop_spec {value : Bytes} {n i : Nat} (h : i + n ≤ value.length) (ret : Nat) :
    valuelenLoop value n i ret = some (ret + ((value.drop i).take n).count quote) := by
  induction n generalizing i ret with
  | zero => rfl
  | succ n ih =>
    obtain ⟨c, hc, hnext⟩ := take_drop_next h
    rw [valuelenLoop, hc, hnext, Option.bind_eq_bind, Option.bind_some, ih (by omega)]
    by_cases hquote : c = quote
    · rw [if_pos hquote, hquote, List.count_cons_self]
      congr 1
      omega
    · rw [if_neg hquote, List.count_cons_of_ne (by simpa using hquote)]

theorem putValue_spec {value : Bytes} {n i : Nat} (h : i + n ≤ value.length) (p : Cursor UInt8) :
    putValue value n i p = p.putAll (escapeValue ((value.drop i).take n)) := by
  induction n generalizing i p with
  | zero => rfl
  | succ n ih =>
    obtain ⟨c, hc, hnext⟩ := take_drop_next h
    have hrest : ∀ p, putValue value n (i + 1) p = p.putAll (escapeValue ((value.drop (i + 1)).take n)) :=
      ih (by omega)
    rw [putValue, hc, hnext, Option.bind_eq_bind, Option.bind_some]
    simp only [hrest]
    by_cases hquote : c = quote
    · rw [if_pos hquote, hquote, escapeValue_quote, Cursor.putAll_cons]
      rfl
    · rw [if_neg hquote, escapeValue_other hquote]
      rfl

section
variable {cur : HttppMeta} {key : Bytes}

theorem writeExtension_skipped (h : cur.key = none ∨ cur.valueLen ≠ 0 ∧ cur.value = none) :
    writeExtension cur = [] := by
  rw [writeExtension]
  obtain h | h := h
  · rw [h]
  · cases cur.key with
    | none => rfl
    | some key => exact if_pos h

theorem writeExtension_written (hkey : cur.key = some key) (h : ¬ (cur.valueLen ≠ 0 ∧ cur.value = none)) :
    writeExtension cur = semicolon :: cString key ++
      if cur.valueLen ≠ 0 then
        equals :: quote :: escapeValue ((cur.value.getD []).take cur.valueLen) ++ [quote]
      else [] := by
  rw [writeExtension, hkey]
  exact if_neg h

/-- What the second pass writes for an entry is its text. -/
theorem putExtension_spec (hkey : cur.key = some key) (h : ¬ (cur.valueLen ≠ 0 ∧ cur.value = none))
    (hvalued : cur.Valued) (p : Cursor UInt8) : putExtension key cur p = p.putAll (writeExtension cur) := by
  rw [writeExtension_written hkey h, List.cons_append, Cursor.putAll_cons, putExtension]
  simp only [Cursor.putAll_append, Option.bind_eq_bind]
  by_cases hlen : cur.valueLen ≠ 0
  · obtain ⟨value, hvalue⟩ := Option.ne_none_iff_exists'.mp fun hnone => h ⟨hlen, hnone⟩
    have hle := hvalued value hvalue
    have hput : ∀ p, putValue value cur.valueLen 0 p = p.putAll (escapeValue (value.take cur.valueLen)) :=
      putValue_spec (by omega)
    simp only [if_pos hlen, hvalue, hput, Option.getD_some, Option.bind_some, List.cons_append, Cursor.putAll_cons,
      Cursor.putAll_append, Cursor.putAll_nil, Option.bind_fun_some]
  · simp only [if_neg hlen]
    rfl

/-- What the first pass counts for an entry is enough for its text. -/
theorem extensionsValuelen_spec (hkey : cur.key = some key) (h : ¬ (cur.valueLen ≠ 0 ∧ cur.value = none))
    (hvalued : cur.Valued) :
    ∃ n, extensionsValuelen cur = some n ∧ (writeExtension cur).length ≤ 4 + (cString key).length + n := by
  rw [writeExtension_written hkey h, extensionsValuelen]
  by_cases hlen : cur.valueLen ≠ 0
  · obtain ⟨value, hvalue⟩ := Option.ne_none_iff_exists'.mp fun hnone => h ⟨hlen, hnone⟩
    have hle := hvalued value hvalue
    have hcount : valuelenLoop value cur.valueLen 0 cur.valueLen =
        some (cur.valueLen + (value.take cur.valueLen).count quote) := valuelenLoop_spec (by omega) _
    have htake : (value.take cur.valueLen).length = cur.valueLen := List.length_take_of_le hle
    refine ⟨cur.valueLen + (value.take cur.valueLen).count quote, ?_, ?_⟩
    · rw [hvalue]
      dsimp only
      rw [if_neg hlen, hcount]
    · rw [if_pos hlen, hvalue, Option.getD_some]
      simp only [List.length_append, List.length_cons, List.length_nil, escapeValue_length, htake]
      omega
  · have hzero : cur.valueLen = 0 := not_not.mp hlen
    refine ⟨0, ?_, ?_⟩
    · cases cur.value with
      | none => rfl
      | some value => exact if_pos hzero
    · rw [if_neg hlen, List.append_nil, List.length_cons]
      omega

end

/-- The text of a list of entries. -/
def extensionsText (metas : List HttppMeta) : Bytes := metas.flatMap writeExtension

theorem extensionsText_cons (cur : HttppMeta) (next : List HttppMeta) :
    extensionsText (cur :: next) = writeExtension cur ++ extensionsText next := List.flatMap_cons

section
variable {metas : List HttppMeta}

/-- The second pass copies the text. -/
theorem putExtensions_spec (h : ∀ cur ∈ metas, cur.Valued) (p : Cursor UInt8) :
    putExtensions metas p = p.putAll (extensionsText metas) := by
  induction metas generalizing p with
  | nil => rfl
  | cons cur next ih =>
    have hrest : ∀ p, putExtensions next p = p.putAll (extensionsText next) :=
      ih fun cur hcur => h cur (List.mem_cons_of_mem _ hcur)
    have hskip : writeExtension cur = [] →
        putExtensions next p = p.putAll (extensionsText (cur :: next)) := by
      intro hempty
      rw [hrest, extensionsText_cons, hempty, List.nil_append]
    rw [putExtensions]
    cases hkey : cur.key with
    | none => exact hskip (writeExtension_skipped (Or.inl hkey))
    | some key =>
      dsimp only
      by_cases hnone : cur.valueLen ≠ 0 ∧ cur.value = none
      · rw [if_pos hnone]
        exact hskip (writeExtension_skipped (Or.inr hnone))
      · rw [if_neg hnone, putExtension_spec hkey hnone (h cur List.mem_cons_self), extensionsText_cons,
          Cursor.putAll_append]
        simp only [hrest]
        rfl

/-- The first pass counts enough for it, with its NUL. -/
theorem sizeExtensions_spec (h : ∀ cur ∈ metas, cur.Valued) (buflen : Nat) :
    ∃ n, sizeExtensions metas buflen = some n ∧ (extensionsText metas).length + buflen ≤ n := by
  induction metas generalizing buflen with
  | nil => exact ⟨buflen, rfl, Nat.le_of_eq (Nat.zero_add buflen)⟩
  | cons cur next ih =>
    have hrest := ih fun cur hcur => h cur (List.mem_cons_of_mem _ hcur)
    have hskip : writeExtension cur = [] →
        ∃ n, sizeExtensions next buflen = some n ∧ (extensionsText (cur :: next)).length + buflen ≤ n := by
      intro hempty
      rw [extensionsText_cons, hempty, List.nil_append]
      exact hrest buflen
    rw [sizeExtensions]
    cases hkey : cur.key with
    | none => exact hskip (writeExtension_skipped (Or.inl hkey))
    | some key =>
      dsimp only
      by_cases hnone : cur.valueLen ≠ 0 ∧ cur.value = none
      · rw [if_pos hnone]
        exact hskip (writeExtension_skipped (Or.inr hnone))
      · obtain ⟨m, hm, hle⟩ := extensionsValuelen_spec hkey hnone (h cur List.mem_cons_self)
        obtain ⟨n, hn, hfits⟩ := hrest (buflen + 4 + (cString key).length + m)
        rw [if_neg hnone, hm, Option.bind_eq_bind, Option.bind_some, hn, extensionsText_cons, List.length_append]
        exact ⟨n, rfl, by omega⟩

/-- The bytes of the second pass, with its NUL, do not exceed the count of the first. -/
def ExtensionsFit (metas : List HttppMeta) : Prop :=
  ∃ buflen p q, sizeExtensions metas 1 = some buflen ∧
    putExtensions metas (Cursor.fresh none buflen) = some p ∧ p.put nul = some q ∧
    q.pos ≤ buflen ∧ q.mem.length = buflen ∧ q.mem.take q.pos = (extensionsText metas ++ [nul]).map some

theorem extensions_fit (h : ∀ cur ∈ metas, cur.Valued) : ExtensionsFit metas := by
  obtain ⟨buflen, hsize, hfits⟩ := sizeExtensions_spec h 1
  obtain ⟨p, hp, hnul⟩ := Cursor.putAll_put_fresh none hfits nul
  rw [← putExtensions_spec h] at hp
  have hlen : (extensionsText metas ++ [nul]).length = (extensionsText metas).length + 1 := List.length_append
  refine ⟨buflen, p, _, hsize, hp, hnul, hlen ▸ hfits, ?_, Cursor.behind_take _ _⟩
  rw [Cursor.behind_length, List.length_replicate]
  omega

end

/-- The extension text as a string. -/
theorem extensionsInto_spec {self : HttppEncoding} (h : ∀ cur ∈ self.metaWrite, cur.Valued) (memExt : Bool) :
    ∃ extensions, encChunkedWriteExtensionsInto memExt self =
        some (extensions, (encChunkedWriteExtensions memExt self).2) ∧
      (match extensions with
        | none => some []
        | some extensions => Cursor.readTo nul extensions) =
          some (cString ((encChunkedWriteExtensions memExt self).1.getD [])) := by
  rw [encChunkedWriteExtensionsInto, encChunkedWriteExtensions]
  by_cases hempty : self.metaWrite = []
  · rw [if_pos hempty, if_pos hempty]
    exact ⟨none, rfl, rfl⟩
  · obtain ⟨buflen, p, q, hsize, hp, hq, _, _, htake⟩ := extensions_fit h
    rw [if_neg hempty, if_neg hempty]
    simp only [hsize, hp, hq, Option.bind_eq_bind, Option.bind_some]
    cases memExt with
    | false => exact ⟨none, rfl, rfl⟩
    | true =>
      refine ⟨some q.mem, rfl, ?_⟩
      have hmem : q.mem = (extensionsText self.metaWrite).map some ++ some nul :: q.mem.drop q.pos := by
        calc q.mem
          _ = q.mem.take q.pos ++ q.mem.drop q.pos := (List.take_append_drop ..).symm
          _ = (extensionsText self.metaWrite).map some ++ some nul :: q.mem.drop q.pos := by
            rw [htake, List.map_append, List.append_assoc]
            rfl
      show Cursor.readTo nul q.mem = _
      rw [hmem]
      exact Cursor.readTo_map nul _ _

/-! Putting a chunk together. -/

theorem snprintf_spec {n : Nat} {text : Bytes} (h : text.length < n) :
    snprintf (List.replicate n none) n text =
      some (text.map some ++ some nul :: List.replicate (n - (text.length + 1)) none) := by
  have hpos : n ≠ 0 := by omega
  have htake : text.take (n - 1) = text := List.take_of_length_le (by omega)
  obtain ⟨p, hp, hnul⟩ := Cursor.putAll_put_fresh none h nul
  rw [Cursor.fresh] at hp
  rw [snprintf, if_neg hpos, htake, hp]
  simp only [Option.bind_eq_bind, Option.bind_some, hnul]
  rw [Cursor.behind, List.map_append, List.append_assoc]
  rfl

theorem copyTo_spec {rest : List (Option UInt8)} {s : Bytes} (h : s.length ≤ rest.length) (done : Bytes) :
    copyTo (done.map some ++ rest) done.length s = some ((done ++ s).map some ++ rest.drop s.length) := by
  have hbehind : Cursor.mk (done.map some ++ rest) done.length = Cursor.behind done rest := rfl
  rw [copyTo, hbehind, Cursor.putAll_behind h]
  rfl

theorem copyFrom_spec {buf : Option Bytes} {len : Nat} (h : len ≤ (buf.getD []).length) :
    copyFrom buf len = some ((buf.getD []).take len) := if_pos h

theorem printDigits_length_le (fuel n : Nat) (acc : Bytes) :
    (printDigits fuel n acc).length ≤ fuel + acc.length := by
  induction fuel generalizing n acc with
  | zero => exact Nat.le_of_eq (Nat.zero_add _).symm
  | succ fuel ih =>
    rw [printDigits]
    by_cases hn : n < 16
    · rw [if_pos hn, List.length_cons]
      omega
    · have hle := ih (n / 16) (hexChar (n % 16) :: acc)
      rw [List.length_cons] at hle
      rw [if_neg hn]
      omega

theorem printLx_length_le (n : Nat) : (printLx n).length ≤ 16 := printDigits_length_le 16 n []

theorem nul_notMem_printLx {n : Nat} (h : n < 2 ^ 64) : nul ∉ printLx n := by
  intro hm
  have hhex : IsHex nul := (printLx_spec h).2.1 nul hm
  exact absurd hhex (by decide)

/-- The header, the data and the CRLFs behind it fill a memory of their length. -/
theorem chunk_memory {header data tail : Bytes} {total : Nat}
    (htotal : header.length + data.length + tail.length = total) (hlt : header.length < total) :
    ∃ out out', snprintf (List.replicate total none) total header = some out ∧
      copyTo out header.length data = some out' ∧
      copyTo out' (header.length + data.length) tail = some ((header ++ data ++ tail).map some) := by
  have hprint := snprintf_spec hlt
  have hrest : (some nul :: List.replicate (total - (header.length + 1)) none).length = data.length + tail.length := by
    rw [List.length_cons, List.length_replicate]
    omega
  generalize some nul :: List.replicate (total - (header.length + 1)) none = rest at hprint hrest
  have hdata : copyTo (header.map some ++ rest) header.length data =
      some ((header ++ data).map some ++ rest.drop data.length) := copyTo_spec (by omega) header
  have hleft : (rest.drop data.length).length = tail.length := by
    rw [List.length_drop, hrest]
    exact Nat.add_sub_cancel_left ..
  have htail := copyTo_spec (Nat.le_of_eq hleft.symm) (header ++ data)
  rw [List.length_append, List.drop_eq_nil_of_le (Nat.le_of_eq hleft), List.append_nil] at htail
  exact ⟨_, _, hprint, hdata, htail⟩

theorem chunkLen_spec (buf : Option Bytes) :
    chunkLen buf ≤ (buf.getD []).length ∧ chunkLen buf ≤ 1048576 ∧
      (buf.getD []).take (chunkLen buf) = (buf.getD []).take 1048576 ∧
      ((buf.getD []).take 1048576).length = chunkLen buf := by
  rw [chunkLen]
  by_cases hlong : (buf.getD []).length > 1048576
  · rw [if_pos hlong]
    refine ⟨Nat.le_of_lt hlong, Nat.le_refl _, rfl, ?_⟩
    exact List.length_take_of_le (Nat.le_of_lt hlong)
  · have hall : (buf.getD []).take 1048576 = buf.getD [] := List.take_of_length_le (Nat.not_lt.mp hlong)
    rw [if_neg hlong, List.take_length, hall]
    exact ⟨Nat.le_refl _, Nat.not_lt.mp hlong, rfl, rfl⟩

/-- What the chunk ends with. -/
def chunkTail (buf : Option Bytes) : Bytes := if buf = none then crlf ++ crlf else crlf

theorem chunkTail_eq (buf : Option Bytes) : (crlf ++ crlf).take (if buf = none then 4 else 2) = chunkTail buf := by
  rw [chunkTail]
  by_cases hbuf : buf = none
  · rw [if_pos hbuf, if_pos hbuf]
    rfl
  · rw [if_neg hbuf, if_neg hbuf]
    rfl

theorem chunkTail_length (buf : Option Bytes) : (chunkTail buf).length = 2 + (if buf = none then 2 else 0) := by
  rw [chunkTail]
  by_cases hbuf : buf = none
  · rw [if_pos hbuf, if_pos hbuf]
    rfl
  · rw [if_neg hbuf, if_neg hbuf]
    rfl

/-- `buf_write_encoded` is filled. -/
theorem putChunk_spec (lengthText extensionText : Bytes) (buf : Option Bytes) :
    ∃ bytes : Bytes, putChunk lengthText extensionText buf = some (bytes.map some) ∧
      bytes.length = totalChunkSize (lengthText.length + extensionText.length + 2) buf ∧
      bytes = lengthText ++ extensionText ++ crlf ++ (buf.getD []).take 1048576 ++ chunkTail buf := by
  obtain ⟨hle, _, htake, hlen⟩ := chunkLen_spec buf
  have hheader : (lengthText ++ extensionText ++ crlf).length = lengthText.length + extensionText.length + 2 := by
    rw [List.length_append, List.length_append]
    rfl
  have htail := chunkTail_length buf
  have htotal : (lengthText ++ extensionText ++ crlf).length + ((buf.getD []).take 1048576).length +
      (chunkTail buf).length = totalChunkSize (lengthText.length + extensionText.length + 2) buf := by
    rw [hheader, hlen, htail, totalChunkSize]
    omega
  obtain ⟨out, out', hprint, hdata, hput⟩ := chunk_memory htotal (by omega)
  rw [hheader] at hdata hput
  rw [hlen] at hput
  refine ⟨_, ?_, ?_, rfl⟩
  · rw [putChunk, copyFrom_spec hle, htake, chunkTail_eq]
    simp only [hprint, hdata, hput, Option.bind_eq_bind, Option.bind_some]
  · rw [List.length_append, List.length_append, htotal]

/-- The chunk of `__enc_chunked_write` has `buf_write_encoded_len` bytes, each of them set. -/
def ChunkFills (memExt memBuf : Bool) (self : HttppEncoding) (buf : Option Bytes) : Prop :=
  ∃ ret self' chunk, encChunkedWriteInto memExt memBuf self buf = some (ret, self', chunk) ∧
    (chunk = none ↔ 0 < httppEncodingPending self ∨ memBuf = false) ∧
    (chunk = none → encChunkedWrite memExt memBuf self buf = (ret, self')) ∧
    ∀ cells len, chunk = some (cells, len) → ∃ bytes : Bytes, cells = bytes.map some ∧ bytes.length = len ∧
      encChunkedWrite memExt memBuf self buf = (ret, { self' with bufWriteEncoded := ⟨some bytes, 0⟩ })

theorem chunk_fills {self : HttppEncoding} (h : ∀ cur ∈ self.metaWrite, cur.Valued) (memExt memBuf : Bool)
    (buf : Option Bytes) : ChunkFills memExt memBuf self buf := by
  rw [ChunkFills, encChunkedWriteInto, encChunkedWrite]
  by_cases hpending : 0 < httppEncodingPending self
  · rw [if_pos hpending, if_pos hpending]
    exact ⟨0, self, none, rfl, ⟨fun _ => Or.inl hpending, fun _ => rfl⟩, fun _ => rfl, fun _ _ e => by cases e⟩
  · rw [if_neg hpending, if_neg hpending]
    obtain ⟨extensions, hinto, htext⟩ := extensionsInto_spec h memExt
    obtain ⟨_, hlimit, _, hlen⟩ := chunkLen_spec buf
    have hshort : (printLx (chunkLen buf)).length < 32 :=
      Nat.lt_of_le_of_lt (printLx_length_le (chunkLen buf)) (by decide)
    have hplain : cString (printLx (chunkLen buf)) = printLx (chunkLen buf) :=
      cString_of_plain (nul_notMem_printLx (by omega))
    have hread : Cursor.readTo nul ((printLx (chunkLen buf)).map some ++
        some nul :: List.replicate (32 - ((printLx (chunkLen buf)).length + 1)) none) =
          some (printLx (chunkLen buf)) := by
      rw [Cursor.readTo_map, ← cString, hplain]
    simp only [snprintf_spec hshort, hinto, hread, htext, Option.bind_eq_bind, Option.bind_some]
    cases memBuf with
    | false =>
      exact ⟨-1, _, none, rfl, ⟨fun _ => Or.inr rfl, fun _ => rfl⟩, fun _ => rfl, fun _ _ e => by cases e⟩
    | true =>
      obtain ⟨bytes, hput, htotal, hbytes⟩ := putChunk_spec (printLx (chunkLen buf))
        (cString ((encChunkedWriteExtensions memExt self).1.getD [])) buf
      rw [hput]
      refine ⟨_, _, _, rfl, ⟨fun e => absurd e (Option.some_ne_none _), ?_⟩,
        fun e => absurd e (Option.some_ne_none _), ?_⟩
      · rintro (e | e)
        · exact absurd e hpending
        · cases e
      · intro cells len e
        obtain ⟨rfl, rfl⟩ := Prod.mk.inj (Option.some.inj e)
        refine ⟨bytes, rfl, htotal, ?_⟩
        rw [hlen, hbytes]
        rfl

/-- Both sizes are exact: what the second pass writes, with its NUL, does not exceed what the
first one counts, and the chunk fills its memory. -/
theorem chunk_sized (memExt memBuf : Bool) (self : HttppEncoding) (buf : Option Bytes)
    (h : ∀ cur ∈ self.metaWrite, cur.Valued) :
    ExtensionsFit self.metaWrite ∧ ChunkFills memExt memBuf self buf :=
  ⟨extensions_fit h, chunk_fills h memExt memBuf buf⟩

/-- An entry whose value has a quote and a NUL, and two that are skipped. -/
def quotedMetas : List HttppMeta :=
  [⟨some [97], some [34, 0, 98], 3⟩, ⟨none, none, 0⟩, ⟨some [99], none, 2⟩]

theorem chunk_sized_quoted : ExtensionsFit quotedMetas ∧
    ChunkFills true true { httppEncodingNew .chunked with metaWrite := quotedMetas } (some [120]) := by
  have hvalued : ∀ cur ∈ quotedMetas, cur.Valued := by simp [quotedMetas, HttppMeta.Valued]
  exact chunk_sized true true { httppEncodingNew .chunked with metaWrite := quotedMetas } (some [120]) hvalued

end IcecastCommon.Encoding
