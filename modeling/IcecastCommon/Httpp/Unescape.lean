import IcecastCommon.Httpp.FormRoundTrip
import IcecastCommon.Library.Cursor

/- `url_unescape` with the memory that it decodes into, `len + 1` zeroed bytes and a pointer.
   It has the result of the model without that memory, so it goes through on the `len` bytes
   it is given and writes within what it allocated. What it returns is said in terms of the
   pieces that a text is read as: bytes that stand for themselves, pluses and escapes. -/
namespace IcecastCommon.Httpp
open Library
open Encoding (Bytes nul)

/-! The memory. -/

/-- The loop of `url_unescape` with what it writes. -/
def unescapeInto (src : Bytes) (len : Nat) : Nat → Nat → Cursor UInt8 → Option (Option (Cursor UInt8))
  | 0, i, dst => if i < len then none else some (some dst)
  | fuel + 1, i, dst =>
    if i < len then do
      let c ← src[i]?
      if c = percent then
        if i + 2 ≥ len then some none
        else do
          let a ← src[i + 1]?
          let b ← src[i + 2]?
          if hex a = -1 ∨ hex b = -1 then some none
          else do
            let dst ← dst.put (UInt8.ofNat (hex a * 16 + hex b).toNat)
            unescapeInto src len fuel (i + 3) dst
      else if c = plus then do
        let dst ← dst.put space
        unescapeInto src len fuel (i + 1) dst
      else if c = hash then some (some dst)
      else if c = nul then some none
      else do
        let dst ← dst.put c
        unescapeInto src len fuel (i + 1) dst
    else some (some dst)

/-- `url_unescape`: NULL or the memory it returns. -/
def urlUnescapeInto (src : Bytes) (len : Nat) : Option (Option (List (Option UInt8))) := do
  let result ← unescapeInto src len len 0 (Cursor.fresh (some nul) (len + 1))
  match result with
  | none => some none
  | some dst => do
    let dst ← dst.put nul
    some (some dst.mem)

/-- The memory when `out` has been written. -/
def writtenTo (len : Nat) (out : Bytes) : Cursor UInt8 :=
  Cursor.behind out (List.replicate (len + 1 - out.length) (some nul))

theorem put_writtenTo {len : Nat} {out : Bytes} (h : out.length ≤ len) (c : UInt8) :
    (writtenTo len out).put c = some (writtenTo len (out ++ [c])) := by
  have hleft : 0 < (List.replicate (len + 1 - out.length) (some nul)).length := by
    rw [List.length_replicate]
    omega
  have hlen : (out ++ [c]).length = out.length + 1 := List.length_append
  rw [writtenTo, Cursor.put_behind hleft, List.tail_replicate, writtenTo, hlen, Nat.sub_sub]

/-- The memory holds what the model without it has decoded. -/
theorem unescapeInto_eq {src : Bytes} {len fuel i : Nat} {out : Bytes} (hout : out.length ≤ i) :
    unescapeInto src len fuel i (writtenTo len out) =
      (unescapeLoop src len fuel i out).map (Option.map (writtenTo len)) := by
  -- on the fuel; no more is written than was read
  induction fuel generalizing i out with
  | zero =>
    rw [unescapeInto, unescapeLoop]
    by_cases hi : i < len
    · rw [if_pos hi, if_pos hi]
      rfl
    · rw [if_neg hi, if_neg hi]
      rfl
  | succ fuel ih =>
    rw [unescapeInto, unescapeLoop]
    by_cases hi : i < len
    · have hput : ∀ c, (writtenTo len out).put c = some (writtenTo len (out ++ [c])) := put_writtenTo (by omega)
      have hstep : ∀ (c : UInt8) {k : Nat}, 0 < k →
          unescapeInto src len fuel (i + k) (writtenTo len (out ++ [c])) =
            (unescapeLoop src len fuel (i + k) (out ++ [c])).map (Option.map (writtenTo len)) := by
        intro c k hk
        apply ih
        rw [List.length_append, List.length_singleton]
        omega
      rw [if_pos hi, if_pos hi]
      cases hc : src[i]? with
      | none => rfl
      | some c =>
        simp only [Option.bind_eq_bind, Option.bind_some]
        by_cases hpercent : c = percent
        · rw [if_pos hpercent, if_pos hpercent]
          by_cases hshort : i + 2 ≥ len
          · rw [if_pos hshort, if_pos hshort]
            rfl
          · rw [if_neg hshort, if_neg hshort]
            cases ha : src[i + 1]? with
            | none => rfl
            | some a =>
              cases hb : src[i + 2]? with
              | none => rfl
              | some b =>
                simp only [Option.bind_some]
                by_cases hhex : hex a = -1 ∨ hex b = -1
                · rw [if_pos hhex, if_pos hhex]
                  rfl
                · rw [if_neg hhex, if_neg hhex, hput, Option.bind_some, hstep _ (Nat.succ_pos 2)]
        · rw [if_neg hpercent, if_neg hpercent]
          by_cases hplus : c = plus
          · rw [if_pos hplus, if_pos hplus, hput, Option.bind_some, hstep _ Nat.one_pos]
          · rw [if_neg hplus, if_neg hplus]
            by_cases hhash : c = hash
            · rw [if_pos hhash, if_pos hhash]
              rfl
            · rw [if_neg hhash, if_neg hhash]
              by_cases hnul : c = nul
              · rw [if_pos hnul, if_pos hnul]
                rfl
              · rw [if_neg hnul, if_neg hnul, hput, Option.bind_some, hstep _ Nat.one_pos]
    · rw [if_neg hi, if_neg hi]
      rfl

/-! The pieces of a text. -/

/-- A piece and the byte that it stands for. -/
inductive Piece : Bytes → UInt8 → Prop where
  | plain {c : UInt8} (hpercent : c ≠ percent) (hplus : c ≠ plus) (hhash : c ≠ hash) (hnul : c ≠ nul) :
      Piece [c] c
  | plus : Piece [plus] space
  | escape {n m : Nat} {hi lo : UInt8} (hhi : HexDigit n hi) (hlo : HexDigit m lo) :
      Piece [percent, hi, lo] (UInt8.ofNat (n * 16 + m))

/-- A text and the bytes that it is read as. -/
inductive Reads : Bytes → Bytes → Prop where
  | nil : Reads [] []
  | cons {e t s : Bytes} {c : UInt8} (hc : Piece e c) (hs : Reads t s) : Reads (e ++ t) (c :: s)

/-- The text is over, or a `#` follows. -/
def Stops (rest : Bytes) : Prop := rest = [] ∨ ∃ r, rest = hash :: r

/-- Two hexadecimal digits follow. -/
def StartsWithDigits (r : Bytes) : Prop := ∃ n m hi lo t, HexDigit n hi ∧ HexDigit m lo ∧ r = hi :: lo :: t

/-- A NUL follows, or a `%` without two hexadecimal digits behind it. -/
def Rejected (rest : Bytes) : Prop :=
  (∃ r, rest = nul :: r) ∨ ∃ r, rest = percent :: r ∧ ¬ StartsWithDigits r

theorem hexDigit_of_hex {d : UInt8} (h : hex d ≠ -1) : ∃ n, HexDigit n d := by
  unfold hex at h
  unfold HexDigit
  simp only [UInt8.le_iff_toNat_le, UInt8.reduceToNat] at h
  by_cases hdigit : 48 ≤ d.toNat ∧ d.toNat ≤ 57
  · exact ⟨d.toNat - 48, by omega⟩
  · rw [if_neg hdigit] at h
    by_cases hupper : 65 ≤ d.toNat ∧ d.toNat ≤ 70
    · exact ⟨d.toNat - 55, by omega⟩
    · rw [if_neg hupper] at h
      by_cases hlower : 97 ≤ d.toNat ∧ d.toNat ≤ 102
      · exact ⟨d.toNat - 87, by omega⟩
      · exact absurd (if_neg hlower) h

theorem decode_piece {e : Bytes} {c : UInt8} (h : Piece e c) (rest : Bytes) :
    decode (e ++ rest) = (decode rest).map (c :: ·) := by
  cases h with
  | plain hpercent hplus hhash hnul => exact decode_plain hpercent hplus hhash hnul rest
  | plus => exact decode_plus rest
  | escape hhi hlo => exact decode_digits hhi hlo rest

theorem decode_reads {text bytes : Bytes} (h : Reads text bytes) (rest : Bytes) :
    decode (text ++ rest) = (decode rest).map (bytes ++ ·) := by
  induction h with
  | nil => exact (Option.map_id' : _).symm
  | @cons e t s c hc _ ih =>
    calc decode (e ++ t ++ rest)
      _ = decode (e ++ (t ++ rest)) := by rw [List.append_assoc]
      _ = ((decode rest).map (s ++ ·)).map (c :: ·) := by rw [decode_piece hc, ih]
      _ = (decode rest).map (c :: s ++ ·) := Option.map_map ..

theorem decode_stops {rest : Bytes} (h : Stops rest) : decode rest = some [] := by
  obtain rfl | ⟨r, rfl⟩ := h
  · rfl
  · have hpercent : hash ≠ percent := by decide
    have hplus : hash ≠ plus := by decide
    rw [decode_other hpercent, if_neg hplus, if_pos rfl]

theorem decode_rejected {rest : Bytes} (h : Rejected rest) : decode rest = none := by
  obtain ⟨r, rfl⟩ | ⟨r, rfl, hr⟩ := h
  · have hpercent : nul ≠ percent := by decide
    have hplus : nul ≠ plus := by decide
    have hhash : nul ≠ hash := by decide
    rw [decode_other hpercent, if_neg hplus, if_neg hhash, if_pos rfl]
  · match r, hr with
    | [], _ => rfl
    | [_], _ => rfl
    | a :: b :: r, hr =>
      rw [decode_escape, if_pos]
      apply by_contra
      intro hhex
      obtain ⟨ha, hb⟩ := not_or.mp hhex
      obtain ⟨n, hn⟩ := hexDigit_of_hex ha
      obtain ⟨m, hm⟩ := hexDigit_of_hex hb
      exact hr ⟨n, m, a, b, r, hn, hm, rfl⟩

theorem Reads.length_le {text bytes : Bytes} (h : Reads text bytes) : bytes.length ≤ text.length := by
  induction h with
  | nil => exact Nat.le_refl 0
  | cons hc _ ih =>
    cases hc <;> simp only [List.length_append, List.length_cons, List.length_nil] <;> omega

/-- A text is read up to where it stops or is rejected. -/
def ReadUpTo (P : Bytes → Prop) (s bytes : Bytes) : Prop :=
  ∃ text rest, s = text ++ rest ∧ Reads text bytes ∧ P rest

section
variable {P : Bytes → Prop} {s bytes : Bytes}

theorem ReadUpTo.here (h : P s) : ReadUpTo P s [] := ⟨[], s, rfl, Reads.nil, h⟩

theorem ReadUpTo.piece {e : Bytes} {c : UInt8} (hc : Piece e c) (h : ReadUpTo P s bytes) :
    ReadUpTo P (e ++ s) (c :: bytes) := by
  obtain ⟨text, rest, rfl, hreads, hrest⟩ := h
  exact ⟨e ++ text, rest, (List.append_assoc ..).symm, hreads.cons hc, hrest⟩

theorem ReadUpTo.decode (h : ReadUpTo P s bytes) :
    ∃ rest, P rest ∧ decode s = (decode rest).map (bytes ++ ·) := by
  obtain ⟨text, rest, rfl, hreads, hrest⟩ := h
  exact ⟨rest, hrest, decode_reads hreads rest⟩

end

theorem readUpTo_exists (s : Bytes) : ∃ bytes, ReadUpTo (fun rest => Stops rest ∨ Rejected rest) s bytes := by
  -- on the length, since an escape is three bytes long
  induction hn : s.length using Nat.strong_induction_on generalizing s with
  | _ n ih =>
    subst hn
    cases s with
    | nil => exact ⟨[], ReadUpTo.here (Or.inl (Or.inl rfl))⟩
    | cons c rest =>
      have hone : ∀ {d}, Piece [c] d →
          ∃ bytes, ReadUpTo (fun rest => Stops rest ∨ Rejected rest) (c :: rest) bytes := by
        intro d hd
        obtain ⟨bytes, h⟩ := ih rest.length (Nat.lt_succ_self _) rest rfl
        exact ⟨d :: bytes, h.piece hd⟩
      by_cases hpercent : c = percent
      · rw [hpercent] at ih ⊢
        by_cases hdigits : StartsWithDigits rest
        · obtain ⟨n, m, hi, lo, t, hhi, hlo, rfl⟩ := hdigits
          obtain ⟨bytes, h⟩ := ih t.length (by simp only [List.length_cons]; omega) t rfl
          exact ⟨_, h.piece (Piece.escape hhi hlo)⟩
        · exact ⟨[], ReadUpTo.here (Or.inr (Or.inr ⟨rest, rfl, hdigits⟩))⟩
      · by_cases hplus : c = plus
        · exact hone (hplus ▸ Piece.plus)
        · by_cases hhash : c = hash
          · exact ⟨[], ReadUpTo.here (Or.inl (Or.inr ⟨rest, hhash ▸ rfl⟩))⟩
          · by_cases hnul : c = nul
            · exact ⟨[], ReadUpTo.here (Or.inr (Or.inl ⟨rest, hnul ▸ rfl⟩))⟩
            · exact hone (Piece.plain hpercent hplus hhash hnul)

theorem decode_some_iff (s bytes : Bytes) : decode s = some bytes ↔ ReadUpTo Stops s bytes := by
  constructor
  · intro h
    obtain ⟨bytes', text, rest, hs, hreads, hstops | hrejected⟩ := readUpTo_exists s
    · have hdecode := decode_reads hreads rest
      rw [← hs, h, decode_stops hstops, Option.map_some, List.append_nil] at hdecode
      rw [Option.some.inj hdecode]
      exact ⟨text, rest, hs, hreads, hstops⟩
    · have hdecode := decode_reads hreads rest
      rw [← hs, h, decode_rejected hrejected] at hdecode
      cases hdecode
  · intro h
    obtain ⟨rest, hstops, hdecode⟩ := h.decode
    rw [hdecode, decode_stops hstops, Option.map_some, List.append_nil]

theorem decode_none_iff (s : Bytes) : decode s = none ↔ ∃ bytes, ReadUpTo Rejected s bytes := by
  constructor
  · intro h
    obtain ⟨bytes, text, rest, hs, hreads, hstops | hrejected⟩ := readUpTo_exists s
    · have hdecode := decode_reads hreads rest
      rw [← hs, h, decode_stops hstops] at hdecode
      cases hdecode
    · exact ⟨bytes, text, rest, hs, hreads, hrejected⟩
  · rintro ⟨bytes, h⟩
    obtain ⟨rest, hrejected, hdecode⟩ := h.decode
    rw [hdecode, decode_rejected hrejected]
    rfl

/-- The memory returned for the bytes `out`. -/
def returned (len : Nat) (out : Bytes) : List (Option UInt8) :=
  (out ++ nul :: List.replicate (len - out.length) nul).map some

theorem written_returned (len : Nat) (out : Bytes) : (writtenTo len (out ++ [nul])).mem = returned len out := by
  have hfill : len + 1 - (out ++ [nul]).length = len - out.length := by
    rw [List.length_append, List.length_singleton]
    omega
  rw [writtenTo, hfill, Cursor.behind, returned]
  simp

/-- What is decoded fits into the memory, with its NUL. -/
theorem urlUnescapeInto_spec {src : Bytes} {len : Nat} (hlen : len ≤ src.length) :
    urlUnescapeInto src len = some ((decode (src.take len)).map (returned len)) := by
  have hfresh : Cursor.fresh (some nul) (len + 1) = writtenTo len [] := rfl
  have hinto : unescapeInto src len len 0 (Cursor.fresh (some nul) (len + 1)) =
      (urlUnescape src len).map (Option.map (writtenTo len)) := by
    rw [hfresh]
    exact unescapeInto_eq (Nat.le_refl 0)
  rw [urlUnescapeInto, hinto, urlUnescape_spec hlen, Option.map_some, Option.bind_eq_bind, Option.bind_some]
  cases hdecode : decode (src.take len) with
  | none => rfl
  | some out =>
    obtain ⟨text, rest, htext, hreads, _⟩ := (decode_some_iff _ _).mp hdecode
    have hout : out.length ≤ len := by
      have hle := congrArg List.length htext
      have hread := hreads.length_le
      rw [List.length_append, List.length_take] at hle
      omega
    simp only [Option.map_some, put_writtenTo hout, ← written_returned]
    rfl

/-- `url_unescape` on the `len` bytes of `src`: it reads nothing behind them, writes within its
`len + 1` bytes, and returns NULL exactly on what is rejected. -/
theorem unescape_exact (src : Bytes) :
    ∃ result, urlUnescapeInto src src.length = some result ∧
      (result = none ↔ ∃ text bytes rest, src = text ++ rest ∧ Reads text bytes ∧ Rejected rest) ∧
      (∀ decoded, result = some decoded ↔
        ∃ text bytes rest, src = text ++ rest ∧ Reads text bytes ∧ Stops rest ∧
          bytes.length + 1 ≤ src.length + 1 ∧
          decoded = (bytes ++ nul :: List.replicate (src.length - bytes.length) nul).map some) ∧
      ∀ behind, urlUnescapeInto (src ++ behind) src.length = some result := by
  have hspec := urlUnescapeInto_spec (Nat.le_refl src.length)
  rw [List.take_length] at hspec
  refine ⟨_, hspec, ?_, ?_, ?_⟩
  · rw [Option.map_eq_none_iff, decode_none_iff]
    constructor
    · rintro ⟨bytes, text, rest, h⟩
      exact ⟨text, bytes, rest, h⟩
    · rintro ⟨text, bytes, rest, h⟩
      exact ⟨bytes, text, rest, h⟩
  · intro decoded
    rw [Option.map_eq_some_iff]
    constructor
    · rintro ⟨bytes, hdecode, rfl⟩
      obtain ⟨text, rest, hs, hreads, hstops⟩ := (decode_some_iff src bytes).mp hdecode
      have hle := congrArg List.length hs
      have hread := hreads.length_le
      rw [List.length_append] at hle
      exact ⟨text, bytes, rest, hs, hreads, hstops, by omega, rfl⟩
    · rintro ⟨text, bytes, rest, hs, hreads, hstops, _, rfl⟩
      exact ⟨bytes, (decode_some_iff src bytes).mpr ⟨text, rest, hs, hreads, hstops⟩, rfl⟩
  · intro behind
    have hle : src.length ≤ (src ++ behind).length := by
      rw [List.length_append]
      exact Nat.le_add_right _ _
    rw [urlUnescapeInto_spec hle, List.take_left]

end IcecastCommon.Httpp
