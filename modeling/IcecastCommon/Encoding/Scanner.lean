import IcecastCommon.Encoding.Reach

/- Where the header loop ends: the offsets it notes for any input, and its quotes against
   the grammar of chunk headers. -/
namespace IcecastCommon.Encoding

/-! The offsets. -/

/-- The offsets are in the buffer, and so are the byte that becomes a NUL and the bytes that
go to the extension parser. -/
structure Offsets (start : HttppEncoding) (s : Scan) : Prop where
  fromStart : (start.bufReadRaw.offset : Int) ≤ s.offsetCR
  behindCR : s.offsetLF = s.offsetCR + 1
  inside : s.offsetLF < start.bufReadRaw.len
  extentions : s.offsetExtentions ≠ -1 →
    (start.bufReadRaw.offset : Int) ≤ s.offsetExtentions ∧ s.offsetExtentions < s.offsetCR
  stop : (start.bufReadRaw.offset : Int) ≤ s.stop ∧ s.stop < start.bufReadRaw.len

/-- When the loop finds an end, its offsets are in the buffer. -/
def InBuffer (start : HttppEncoding) : Prop :=
  (headerScan start).offsetLF ≠ -1 → Offsets start (headerScan start)

/-- The raw buffer begins with an LF, and the loop with this byte: the offset of the byte
in front of it is the -1 that stands for no CR. -/
def BeginsWithLF (start : HttppEncoding) : Prop :=
  start.bufReadRaw.offset = 0 ∧ start.bufReadRaw.rest.head? = some lf

/-- In every state that calls lead to, whatever the callback hands over then, the offsets
are in the buffer unless it begins with an LF. -/
theorem header_in_buffer {self start : HttppEncoding} (h : Reachable self) (bs : Bytes)
    (hloop : loopStart (received self bs) = some start) : InBuffer start ↔ ¬ BeginsWithLF start := by
  have hok := loopStart_ok (received_sound h.sound bs).rawOk hloop
  have hlen : start.bufReadRaw.offset + start.bufReadRaw.left = start.bufReadRaw.len := Nat.add_sub_cancel' hok
  constructor
  · intro H ⟨hzero, hlf⟩
    -- at offset 0 the test for the CR in front compares with the -1 of no CR
    have hscan : headerScan start = { Scan.start with offsetLF := 0 } := by
      unfold headerScan
      cases hrest : start.bufReadRaw.rest with
      | nil =>
        rw [hrest] at hlf
        cases hlf
      | cons c cs =>
        rw [hrest, List.head?_cons] at hlf
        rw [hzero, Option.some.inj hlf]
        rfl
    have hfrom := (H (by rw [hscan]; decide)).fromStart
    rw [hscan, hzero] at hfrom
    exact absurd hfrom (by decide)
  · intro hno hLF
    obtain ⟨k, hk, hget, hend, hCR, hinCR, hinExt⟩ : ∃ k, k < start.bufReadRaw.rest.length ∧
        start.bufReadRaw.rest[k]? = some lf ∧
        (headerScan start).offsetLF = (start.bufReadRaw.offset : Int) + k ∧
        (headerScan start).offsetCR = (start.bufReadRaw.offset : Int) + k - 1 ∧
        (headerScan start).Within start.bufReadRaw.offset (start.bufReadRaw.offset + k) :=
      scanHeader_end (Scan.start_within _) (Nat.le_refl _) rfl hLF
    -- an LF at offset 0 would be the first byte
    have hpos : start.bufReadRaw.offset + k ≠ 0 := by
      intro hz
      have hk0 : k = 0 := by omega
      rw [hk0, ← List.head?_eq_getElem?] at hget
      exact hno ⟨by omega, hget⟩
    rw [Buf.rest_length] at hk
    refine ⟨by omega, by omega, by omega, fun _ => by omega, ?_⟩
    unfold Scan.stop
    split_ifs
    all_goals omega

/-- `1 CRLF`. -/
theorem header_in_buffer_one : ∃ start, loopStart (received (httppEncodingNew .chunked) [49, 13, 10]) = some start ∧
    InBuffer start := by
  refine ⟨_, rfl, ?_⟩
  exact (header_in_buffer .new [49, 13, 10] rfl).mpr fun h => absurd h.2 (by decide)

/-- The first byte of a stream is an LF: it is taken for the end of a header, the CR is
noted in front of the buffer, and the NUL would be written there. -/
theorem header_out_of_buffer : ∃ start, loopStart (received (httppEncodingNew .chunked) [lf]) = some start ∧
    (headerScan start).offsetLF = 0 ∧ (headerScan start).stop = -1 ∧ ¬ InBuffer start ∧
    httppEncodingRead true true (httppEncodingNew .chunked) 8 (some (feed [lf])) () = none := by
  refine ⟨_, rfl, rfl, rfl, ?_, rfl⟩
  intro H
  exact absurd (H (by decide)).fromStart (by decide)

end IcecastCommon.Encoding
