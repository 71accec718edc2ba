import Mathlib.Data.List.Basic
import Mathlib.Data.List.TakeWhile
import Mathlib.Tactic

/- The data of `encoding.c`: byte buffers with a read offset, metadata entries and
   `struct httpp_encoding_tag`. A string is a list of bytes; NULL is `none`. The length
   field of a buffer is the length of its memory, and `size_t` values are natural
   numbers, reduced modulo 2^64 where the code can leave the range. -/
namespace IcecastCommon.Encoding

abbrev Bytes := List UInt8

/-! The bytes the code compares with. -/

def nul : UInt8 := 0
def cr : UInt8 := 13
def lf : UInt8 := 10
def quote : UInt8 := 34
def semicolon : UInt8 := 59
def equals : UInt8 := 61
def backslash : UInt8 := 92

def crlf : Bytes := [cr, lf]

/-- The conversion of a `size_t` to `ssize_t`. -/
def toSsize (n : Nat) : Int := (BitVec.ofNat 64 n).toInt

theorem toSsize_of_lt {n : Nat} (h : n < 2 ^ 63) : toSsize n = n := by
  unfold toSsize
  have e : (BitVec.ofNat 64 n).toNat = n := by rw [BitVec.toNat_ofNat]; omega
  rw [BitVec.toInt_eq_toNat_of_lt (by omega), e]

/-! Metadata. -/

/-- `struct httpp_meta_tag`; the `next` pointers are the list the entry is in. -/
structure HttppMeta where
  key : Option Bytes
  value : Option Bytes
  valueLen : Nat
deriving DecidableEq, Repr

/-- The C string in a sequence of bytes. -/
def cString (s : Bytes) : Bytes := s.takeWhile (· ≠ nul)

theorem cString_of_plain {s : Bytes} (h : nul ∉ s) : cString s = s := by
  rw [cString, List.takeWhile_eq_self_iff]
  intro c hc
  exact decide_eq_true fun e => h (e ▸ hc)

/-- Bytes behind a NUL do not count. -/
theorem cString_append_nul (s t : Bytes) : cString (s ++ nul :: t) = cString s := by
  induction s with
  | nil => rfl
  | cons c s ih =>
    by_cases hc : c = nul
    · rw [hc]
      rfl
    · rw [List.cons_append, cString, cString, List.takeWhile_cons_of_pos (by simpa using hc),
        List.takeWhile_cons_of_pos (by simpa using hc)]
      exact congrArg (c :: ·) ih

theorem nul_notMem_cString (s : Bytes) : nul ∉ cString s := by
  intro hm
  have := List.mem_takeWhile_imp hm
  simp at this

theorem cString_length_le (s : Bytes) : (cString s).length ≤ s.length :=
  (List.takeWhile_sublist _).length_le

/-- `httpp_encoding_meta_new` when its allocations succeed. -/
def httppEncodingMetaNew (key value : Option Bytes) : HttppMeta :=
  { key := key.map cString, value := value.map cString,
    valueLen := (cString (value.getD [])).length }

/-! Buffers. -/

/-- A heap buffer and its offset; the triple `buf`, `buf_offset`, `buf_len`. -/
structure Buf where
  mem : Option Bytes
  offset : Nat
deriving DecidableEq, Repr

namespace Buf

/-- A freed buffer. -/
def null : Buf := ⟨none, 0⟩

def len (b : Buf) : Nat := (b.mem.getD []).length

/-- The part of the buffer behind the offset. -/
def rest (b : Buf) : Bytes := (b.mem.getD []).drop b.offset

/-- `len - offset`. -/
def left (b : Buf) : Nat := b.len - b.offset

@[simp] theorem null_rest : null.rest = [] := rfl
@[simp] theorem null_len : null.len = 0 := rfl
@[simp] theorem null_left : null.left = 0 := rfl

@[simp] theorem some_rest (m : Bytes) (o : Nat) : (Buf.mk (some m) o).rest = m.drop o := rfl
@[simp] theorem some_len (m : Bytes) (o : Nat) : (Buf.mk (some m) o).len = m.length := rfl

/-- The offset stays within the buffer. -/
def Ok (b : Buf) : Prop := b.offset ≤ b.len

theorem null_ok : null.Ok := Nat.le_refl 0

theorem rest_length (b : Buf) : b.rest.length = b.left := by
  simp only [rest, left, len, List.length_drop]

end Buf

/-- What a read or a callback hands back: `none` for -1, otherwise the bytes stored, their
number being the return value. -/
abbrev Reply := Option Bytes

/-- The number the C function returns. -/
def Reply.value (r : Reply) : Int :=
  match r with
  | none => -1
  | some bs => bs.length

/-- The bytes that have been stored. -/
def Reply.bytes (r : Reply) : Bytes := r.getD []

@[simp] theorem Reply.bytes_some (bs : Bytes) : Reply.bytes (some bs) = bs := rfl
@[simp] theorem Reply.bytes_none : Reply.bytes none = [] := rfl

/-- -1 stands for no bytes. -/
@[simp] theorem Reply.bytes_ite (bs : Bytes) : Reply.bytes (if bs = [] then none else some bs) = bs := by
  split_ifs with h
  · exact h.symm
  · rfl

/-- `__copy_buffer` with a destination that is not NULL. -/
def copyBuffer (src : Buf) (len : Nat) : Reply × Buf :=
  if len = 0 then (some [], src)
  else
    match src.mem with
    | none => (none, src)
    | some mem =>
      let haveLen := mem.length - src.offset
      let todo := min len haveLen
      let dst := (mem.drop src.offset).take todo
      if src.offset + todo = mem.length then (some dst, Buf.null)
      else (some dst, { src with offset := src.offset + todo })

/-- A copy takes what it can get from the front of the buffer. -/
theorem copyBuffer_spec {src : Buf} (h : src.Ok) (len : Nat) :
    (copyBuffer src len).1.bytes = src.rest.take len ∧
      (copyBuffer src len).2.rest = src.rest.drop len ∧ (copyBuffer src len).2.Ok ∧
      ((copyBuffer src len).1 = none → src.rest = []) := by
  obtain ⟨mem, offset⟩ := src
  unfold copyBuffer
  by_cases h0 : len = 0
  · rw [if_pos h0, h0]
    exact ⟨rfl, rfl, h, fun e => by cases e⟩
  · rw [if_neg h0]
    cases mem with
    | none =>
      have e : (Buf.mk none offset).rest = [] := List.drop_nil
      refine ⟨?_, ?_, h, fun _ => e⟩
      · rw [e, List.take_nil]
        rfl
      · rw [e, List.drop_nil]
    | some mem =>
      replace h : offset ≤ mem.length := h
      have htake : (mem.drop offset).take (min len (mem.length - offset)) =
          (mem.drop offset).take len := by
        rw [← List.length_drop, ← List.take_eq_take_min]
      simp only [Buf.some_rest, htake]
      by_cases he : offset + min len (mem.length - offset) = mem.length
      · rw [if_pos he]
        refine ⟨rfl, ?_, Buf.null_ok, fun e => by cases e⟩
        have e : (mem.drop offset).drop len = [] :=
          List.drop_of_length_le (by rw [List.length_drop]; omega)
        rw [e]
        rfl
      · rw [if_neg he]
        have hmin : min len (mem.length - offset) = len := by omega
        refine ⟨rfl, ?_, ?_, fun e => by cases e⟩
        · simp only [Buf.some_rest, hmin, List.drop_drop]
        · show offset + min len (mem.length - offset) ≤ mem.length
          omega

/-! The object. -/

/-- The handlers `process_read` and `process_write` point to. -/
inductive Process where
  | identity
  | chunked
deriving DecidableEq, Repr

/-- `struct httpp_encoding_tag` without its reference count and the unused
`buf_write_raw`. -/
structure HttppEncoding where
  process : Process
  metaRead : List HttppMeta
  metaWrite : List HttppMeta
  bufReadRaw : Buf
  bufReadDecoded : Buf
  bufWriteEncoded : Buf
  bytesTillEof : Int
  readBytesTillHeader : Nat
deriving DecidableEq, Repr

/-- `httpp_encoding_new` for one of the two known encodings. -/
def httppEncodingNew (process : Process) : HttppEncoding :=
  { process := process, metaRead := [], metaWrite := [], bufReadRaw := Buf.null,
    bufReadDecoded := Buf.null, bufWriteEncoded := Buf.null, bytesTillEof := -1,
    readBytesTillHeader := 0 }

/-- `httpp_encoding_append_meta`; appending NULL changes nothing. -/
def httppEncodingAppendMeta (self : HttppEncoding) (new : List HttppMeta) : HttppEncoding :=
  { self with metaWrite := self.metaWrite ++ new }

/-- `httpp_encoding_get_meta`. -/
def httppEncodingGetMeta (self : HttppEncoding) : List HttppMeta × HttppEncoding :=
  (self.metaRead, { self with metaRead := [] })

/-- `httpp_encoding_eof`; `cb` is the answer of the callback, if there is one. -/
def httppEncodingEof (self : HttppEncoding) (cb : Option Int) : Int :=
  if self.bufReadDecoded.left ≠ 0 then 0
  else if self.bytesTillEof = 0 then 1
  else cb.getD 0

theorem httppEncodingEof_iff (self : HttppEncoding) :
    httppEncodingEof self none = 1 ↔ self.bufReadDecoded.left = 0 ∧ self.bytesTillEof = 0 := by
  unfold httppEncodingEof
  split_ifs with hleft heof
  · exact ⟨fun h => absurd h (by decide), fun h => absurd h.1 hleft⟩
  · exact ⟨fun _ => ⟨not_not.mp hleft, heof⟩, fun _ => rfl⟩
  · exact ⟨fun h => absurd h (by decide), fun h => absurd h.2 heof⟩

/-- `httpp_encoding_pending`. -/
def httppEncodingPending (self : HttppEncoding) : Nat :=
  if self.bufWriteEncoded.mem = none then 0 else self.bufWriteEncoded.left

end IcecastCommon.Encoding
