import IcecastCommon.Httpp.Variables

/- Requests as they are written: a first line, the lines of the headers, an empty line and a
   body. Cutting such a text into lines gives back the lines, and nothing of the body; the
   first line is cut into its words and a header line into its name and value, as far as the
   `int` length of the line goes. -/
namespace IcecastCommon.Httpp
open Avl Library
open Encoding (Bytes nul cr lf cString cString_of_plain cString_append_nul nul_notMem_cString)

/-! What is written. -/

/-- Fit for a line. -/
def Clean (s : Bytes) : Prop := ∀ c ∈ s, c ≠ cr ∧ c ≠ lf ∧ c ≠ nul

instance (s : Bytes) : Decidable (Clean s) := List.decidableBAll (fun c => c ≠ cr ∧ c ≠ lf ∧ c ≠ nul) s

/-- Fit for a first line. -/
structure Word (s : Bytes) : Prop where
  nonempty : s ≠ []
  clean : Clean s
  noSpace : space ∉ s

/-- `toupper` in the C locale. -/
def toUpper (c : UInt8) : UInt8 := if 97 ≤ c ∧ c ≤ 122 then c - 32 else c

structure Header where
  name : Bytes
  value : Bytes
  nameNonempty : name ≠ []
  nameClean : Clean name
  noColon : colon ∉ name
  external : ¬ Internal name
  valueNonempty : value ≠ []
  valueClean : Clean value
  noLeadingSpace : value.head? ≠ some space

structure Request where
  method : Bytes
  uri : Bytes
  protocol : Bytes
  version : Bytes
  headers : List Header
  known : ∃ reqType, (method.map toUpper, reqType) ∈ methodNames
  uriWord : Word uri
  protocolWord : Word protocol
  noSlash : slash ∉ protocol
  versionWord : Word version
  few : headers.length < maxHeaders

def Header.line (h : Header) : Bytes := h.name ++ colon :: space :: h.value

/-- The header as it is stored. -/
def Header.stored (h : Header) : Bytes × Bytes := (h.name.map toLower, h.value)

namespace Request

/-- The protocol with its version. -/
def versionText (r : Request) : Bytes := r.protocol ++ slash :: r.version

/-- The first line up to its version. -/
def front (r : Request) : Bytes := r.method ++ space :: (r.uri ++ [space])

def line (r : Request) : Bytes := r.front ++ r.versionText

/-- The header lines, the empty line and the body. -/
def rest (headers : List Header) (body : Bytes) : Bytes :=
  (headers.flatMap fun h => h.line ++ [cr, lf]) ++ cr :: lf :: body

def text (r : Request) (body : Bytes) : Bytes := r.line ++ cr :: lf :: rest r.headers body

end Request

/-! Lines. -/

theorem Clean.append {a b : Bytes} (ha : Clean a) (hb : Clean b) : Clean (a ++ b) := by
  intro c hc
  exact (List.mem_append.mp hc).elim (ha c) (hb c)

theorem Clean.cons {c : UInt8} {s : Bytes} (hc : c ≠ cr ∧ c ≠ lf ∧ c ≠ nul) (hs : Clean s) : Clean (c :: s) := by
  intro d hd
  rcases List.mem_cons.mp hd with rfl | hd
  · exact hc
  · exact hs d hd

theorem Clean.plain {s : Bytes} (h : Clean s) : nul ∉ s := fun hm => (h nul hm).2.2 rfl

theorem Clean.no_lf {s : Bytes} (h : Clean s) : lf ∉ s := fun hm => (h lf hm).2.1 rfl

/-- A clean line is what comes before its line break. -/
theorem Clean.takeWhile {s : Bytes} (h : Clean s) (t : Bytes) :
    (s ++ cr :: t).takeWhile (fun c => c ≠ cr ∧ c ≠ lf ∧ c ≠ nul) = s := by
  have hall : ∀ c ∈ s, (decide (c ≠ cr ∧ c ≠ lf ∧ c ≠ nul)) = true := fun c hc => decide_eq_true (h c hc)
  rw [List.takeWhile_append_of_pos hall, List.takeWhile_cons, if_neg (by simp), List.append_nil]

theorem Clean.segment {s : Bytes} (h : Clean s) : lf ∉ s ++ [cr] := by
  rw [List.mem_append, List.mem_singleton, not_or]
  exact ⟨h.no_lf, by decide⟩

theorem Clean.lineText {s : Bytes} (h : Clean s) : lineText (s ++ [cr]) = s := by
  rw [lineText_eq h.segment, h.takeWhile]

/-- A line and its newline are split off. -/
theorem splitLines_append {seg : Bytes} (h : lf ∉ seg) (limit : Nat) (t : Bytes) :
    splitLines limit (seg ++ lf :: t) = seg :: (if LastLine limit t then [] else splitLines (limit - 1) t) := by
  induction seg with
  | nil => exact splitLines_lf limit t
  | cons c seg ih =>
    have hc : c ≠ lf := fun e => h (e ▸ List.mem_cons_self)
    rw [List.cons_append, splitLines_other hc, ih fun hm => h (List.mem_cons_of_mem c hm), longerFirst]

/-- Lines that are not empty are split off one after the other, up to an empty line. -/
theorem splitLines_segments {α : Type} {limit : Nat} {l : List α} {segment : α → Bytes} {tail : Bytes}
    (h : l.length < limit) (hlf : ∀ a, lf ∉ segment a) (hhead : ∀ a, ∃ c t, segment a = c :: t ∧ c ≠ cr)
    (ended : tail = [] ∨ tail.head? = some lf ∨ tail.head? = some cr) :
    (if LastLine limit (l.flatMap (fun a => segment a ++ [lf]) ++ tail) then []
      else splitLines (limit - 1) (l.flatMap (fun a => segment a ++ [lf]) ++ tail)) = l.map segment := by
  -- on the lines; each one takes one from the limit
  induction l generalizing limit with
  | nil =>
    rw [List.flatMap_nil, List.nil_append, List.map_nil]
    rcases ended with rfl | ended
    · exact ite_self []
    · exact if_pos (Or.inr ended)
  | cons a l ih =>
    rw [List.length_cons] at h
    obtain ⟨c, t, hsegment, hcr⟩ := hhead a
    have hc : c ≠ lf := fun e => hlf a (by rw [hsegment, e]; exact List.mem_cons_self)
    have htext : (a :: l).flatMap (fun a => segment a ++ [lf]) ++ tail =
        segment a ++ lf :: (l.flatMap (fun a => segment a ++ [lf]) ++ tail) := by
      rw [List.flatMap_cons]
      simp
    have hmore : ¬ LastLine limit (segment a ++ lf :: (l.flatMap (fun a => segment a ++ [lf]) ++ tail)) := by
      rw [hsegment, List.cons_append, lastLine_cons (by omega), not_or]
      exact ⟨hc, hcr⟩
    rw [htext, if_neg hmore, splitLines_append (hlf a), ih (by omega), List.map_cons]

theorem Header.clean (h : Header) : Clean h.line := by
  have hvalue : Clean (space :: h.value) := Clean.cons (by decide) h.valueClean
  exact h.nameClean.append (Clean.cons (by decide) hvalue)

theorem Header.segment_head (h : Header) : ∃ c t, h.line ++ [cr] = c :: t ∧ c ≠ cr := by
  obtain ⟨c, t, hname⟩ := List.exists_cons_of_ne_nil h.nameNonempty
  have hc := h.nameClean c (by rw [hname]; exact List.mem_cons_self)
  exact ⟨c, t ++ colon :: space :: h.value ++ [cr], by rw [Header.line, hname]; rfl, hc.1⟩

/-! Words. -/

theorem toUpper_plain {c : UInt8} (h : 65 ≤ toUpper c ∧ toUpper c ≤ 90) :
    c ≠ space ∧ c ≠ cr ∧ c ≠ lf ∧ c ≠ nul := by
  refine ⟨?_, ?_, ?_, ?_⟩ <;> rintro rfl <;> exact absurd h (by decide)

theorem toNat_toUpper (c : UInt8) :
    (toUpper c).toNat = if 97 ≤ c.toNat ∧ c.toNat ≤ 122 then c.toNat - 32 else c.toNat := by
  have hc : (97 ≤ c ∧ c ≤ 122) ↔ (97 ≤ c.toNat ∧ c.toNat ≤ 122) :=
    and_congr UInt8.le_iff_toNat_le UInt8.le_iff_toNat_le
  rw [toUpper, apply_ite UInt8.toNat]
  simp only [hc]
  split_ifs with h
  · apply UInt8.toNat_sub_of_le
    rw [UInt8.le_iff_toNat_le]
    exact Nat.le_trans (by decide) h.1
  · rfl

theorem toLower_toUpper (c : UInt8) : toLower (toUpper c) = toLower c := by
  apply UInt8.toNat_inj.mp
  rw [toNat_toLower, toNat_toLower, toNat_toUpper]
  split_ifs <;> omega

theorem methodNames_upper : ∀ entry ∈ methodNames,
    entry.1 ≠ [] ∧ (entry.1.all fun c => 65 ≤ c ∧ c ≤ 90) = true := by decide

theorem methodNames_letters {entry : Bytes × RequestType} (h : entry ∈ methodNames) :
    entry.1 ≠ [] ∧ ∀ c ∈ entry.1, 65 ≤ c ∧ c ≤ 90 := by
  obtain ⟨hne, hupper⟩ := methodNames_upper entry h
  refine ⟨hne, ?_⟩
  intro c hc
  exact of_decide_eq_true (List.all_eq_true.mp hupper c hc)

/-- A method is read back, and its name is the one stored. -/
theorem methodNames_found : ∀ entry ∈ methodNames,
    httppStrToMethod entry.1 = entry.2 ∧ reqTypeText entry.2 = some entry.1 := by decide

section
variable (r : Request)

theorem Request.method_word : Word r.method := by
  obtain ⟨reqType, hmem⟩ := r.known
  obtain ⟨hne, hletters⟩ := methodNames_letters hmem
  have hplain : ∀ c ∈ r.method, c ≠ space ∧ c ≠ cr ∧ c ≠ lf ∧ c ≠ nul := by
    intro c hc
    exact toUpper_plain (hletters _ (List.mem_map_of_mem hc))
  refine ⟨?_, fun c hc => (hplain c hc).2, fun hm => (hplain space hm).1 rfl⟩
  intro hnil
  rw [hnil] at hne
  exact hne rfl

/-- The letter case of a method does not matter. -/
theorem httppStrToMethod_upper {method : Bytes} (h : nul ∉ method) (hupper : nul ∉ method.map toUpper) :
    httppStrToMethod (method.map toUpper) = httppStrToMethod method := by
  have hlower : (method.map toUpper).map toLower = method.map toLower := by
    rw [List.map_map]
    exact List.map_congr_left fun c _ => toLower_toUpper c
  have hsame : ∀ name, sameIgnoringCase name (method.map toUpper) = sameIgnoringCase name method := by
    intro name
    rw [sameIgnoringCase, sameIgnoringCase, cString_of_plain h, cString_of_plain hupper, hlower]
  simp only [httppStrToMethod, hsame]

theorem Request.method_found : ∃ reqType, httppStrToMethod r.method = reqType ∧
    reqTypeText reqType = some (r.method.map toUpper) := by
  obtain ⟨reqType, hmem⟩ := r.known
  obtain ⟨hfound, htext⟩ := methodNames_found _ hmem
  have hletters := (methodNames_letters hmem).2
  have hupper : nul ∉ r.method.map toUpper := fun hm => absurd (hletters nul hm) (by decide)
  refine ⟨reqType, ?_, htext⟩
  rw [← httppStrToMethod_upper r.method_word.clean.plain hupper]
  exact hfound

theorem Request.versionText_clean : Clean r.versionText :=
  r.protocolWord.clean.append (Clean.cons (by decide) r.versionWord.clean)

theorem Request.versionText_noSpace : space ∉ r.versionText := by
  rw [Request.versionText, List.mem_append, List.mem_cons, not_or, not_or]
  exact ⟨r.protocolWord.noSpace, by decide, r.versionWord.noSpace⟩

theorem Request.line_clean : Clean r.line := by
  have hspace : Clean [space] := Clean.cons (by decide) fun c hc => absurd hc List.not_mem_nil
  have huri : Clean (space :: (r.uri ++ [space])) := Clean.cons (by decide) (r.uriWord.clean.append hspace)
  exact (r.method_word.clean.append huri).append r.versionText_clean

theorem Request.firstLine_text (body : Bytes) : firstLine (r.text body) = r.line :=
  r.line_clean.takeWhile (lf :: Request.rest r.headers body)

theorem Request.headerSegments_text (body : Bytes) :
    headerSegments (r.text body) = r.headers.map fun h => h.line ++ [cr] := by
  have hrest : Request.rest r.headers body =
      r.headers.flatMap (fun h => (h.line ++ [cr]) ++ [lf]) ++ cr :: lf :: body := by
    rw [Request.rest]
    simp
  have htext : r.text body = (r.line ++ [cr]) ++ lf :: Request.rest r.headers body := by
    rw [Request.text]
    simp
  rw [headerSegments, htext, splitLines_append r.line_clean.segment, List.tail_cons, hrest]
  exact splitLines_segments r.few (fun h => h.clean.segment) Header.segment_head (Or.inr (Or.inr rfl))

end

end IcecastCommon.Httpp
