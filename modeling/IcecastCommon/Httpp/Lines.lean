import IcecastCommon.Httpp.Message
import IcecastCommon.Httpp.Maps

/- Lines and headers as lists. The buffer behind `split_headers` is the message with the
   carriage returns and newlines of its lines blanked out; `Laid` says that lines lie one
   after the other in it. A line is then read, and cut into a header, wherever it lies. -/
namespace IcecastCommon.Httpp
open Avl Library
open Encoding (Bytes nul cr lf cString cString_of_plain cString_append_nul nul_notMem_cString cString_length_le)

/-! Strings in a buffer. -/

section
variable (pre x rest : Bytes)

theorem getElem?_base (j : Nat) : (pre ++ x)[pre.length + j]? = x[j]? := by
  rw [List.getElem?_append_right (Nat.le_add_right _ _), Nat.add_sub_cancel_left]

theorem stringAt_base {j : Nat} (h : j ≤ x.length) :
    stringAt (pre ++ (x ++ nul :: rest)) (pre.length + j) = some (cString (x.drop j)) := by
  have hdrop : (pre ++ (x ++ nul :: rest)).drop (pre.length + j) = x.drop j ++ nul :: rest := by
    rw [← List.drop_drop, List.drop_left, List.drop_append_of_le_length h]
  have hnul : nul ∈ x.drop j ++ nul :: rest := List.mem_append_right _ List.mem_cons_self
  rw [stringAt, hdrop, if_pos hnul, cString_append_nul]

theorem stringAt_zero : stringAt (x ++ nul :: rest) 0 = some (cString x) :=
  stringAt_base [] x rest (Nat.zero_le x.length)

theorem stringAt_offset {j : Nat} (h : j ≤ x.length) :
    stringAt (x ++ nul :: rest) j = some (cString (x.drop j)) := by
  have hbase := stringAt_base [] x rest h
  rw [List.nil_append, List.length_nil, Nat.zero_add] at hbase
  exact hbase

theorem stringAt_start : stringAt (pre ++ (x ++ nul :: rest)) pre.length = some (cString x) :=
  stringAt_base pre x rest (Nat.zero_le x.length)

theorem putNul_base {j : Nat} (h : j < x.length) :
    putNul (pre ++ x) (pre.length + j) = some (pre ++ x.set j nul) := by
  have hlen : pre.length + j < (pre ++ x).length := by
    rw [List.length_append]
    omega
  rw [putNul, if_pos hlen, List.set_append_right _ _ (Nat.le_add_right _ _), Nat.add_sub_cancel_left]

end

/-- The byte behind what was done is overwritten. -/
theorem putNul_next (pre done : Bytes) (c : UInt8) (t : Bytes) :
    putNul (pre ++ (done ++ c :: t)) (pre.length + done.length) = some (pre ++ (done ++ nul :: t)) := by
  have h : done.length < (done ++ c :: t).length := by
    rw [List.length_append, List.length_cons]
    omega
  rw [putNul_base pre _ h, List.set_append_right _ _ (Nat.le_refl _), Nat.sub_self, List.set_cons_zero]

theorem getElem?_next (pre done : Bytes) (c : UInt8) (t : Bytes) :
    (pre ++ (done ++ c :: t))[pre.length + done.length]? = some c := by
  rw [getElem?_base, List.getElem?_append_right (Nat.le_refl _), Nat.sub_self, List.getElem?_cons_zero]

/-- A string is followed by a NUL, its own or the one behind the buffer. -/
theorem cString_split (x r : Bytes) : ∃ w z, x = cString x ++ w ∧ w ++ nul :: r = nul :: z := by
  cases h : x.dropWhile (· ≠ nul) with
  | nil =>
    refine ⟨[], r, ?_, rfl⟩
    rw [← h]
    exact (List.takeWhile_append_dropWhile ..).symm
  | cons c w =>
    have hc : c = nul := by
      have h0 := List.head?_dropWhile_not (· ≠ nul) x
      rw [h] at h0
      simpa using h0
    refine ⟨nul :: w, w ++ nul :: r, ?_, rfl⟩
    rw [← hc, ← h]
    exact (List.takeWhile_append_dropWhile ..).symm

/-- The same for the string at an offset. -/
theorem stringAt_split (x r : Bytes) (j : Nat) :
    ∃ w z, x = x.take j ++ (cString (x.drop j) ++ w) ∧ w ++ nul :: r = nul :: z := by
  obtain ⟨w, z, hw, hz⟩ := cString_split (x.drop j) r
  refine ⟨w, z, ?_, hz⟩
  rw [← hw, List.take_append_drop]

/-! Splitting. -/

/-- A carriage return or a newline becomes a NUL. -/
def blank (c : UInt8) : UInt8 := if c = cr ∨ c = lf then nul else c

/-- No line follows this newline: the limit is reached, or an empty line follows. -/
def LastLine (limit : Nat) (t : Bytes) : Prop := limit ≤ 1 ∨ t.head? = some lf ∨ t.head? = some cr

instance (limit : Nat) (t : Bytes) : Decidable (LastLine limit t) := by
  unfold LastLine
  infer_instance

theorem not_lastLine_nil {limit : Nat} (h : 1 < limit) : ¬ LastLine limit [] := by
  rintro (hlast | hlast | hlast)
  · omega
  · cases hlast
  · cases hlast

theorem lastLine_cons {limit : Nat} (h : 1 < limit) (d : UInt8) (t : Bytes) :
    LastLine limit (d :: t) ↔ d = lf ∨ d = cr := by
  rw [LastLine, List.head?_cons, Option.some.injEq, Option.some.injEq]
  exact or_iff_right (Nat.not_le.mpr h)

/-- The first line is one byte longer. -/
def longerFirst (c : UInt8) : List Bytes → List Bytes
  | [] => []
  | seg :: segs => (c :: seg) :: segs

/-- The lines that `split_headers` counts, each up to its newline. -/
def splitLines : Nat → Bytes → List Bytes
  | _, [] => []
  | limit, c :: t =>
    if c = lf then [] :: (if LastLine limit t then [] else splitLines (limit - 1) t)
    else longerFirst c (splitLines limit t)

/-- The buffer behind `split_headers`. -/
def splitData : Nat → Bytes → Bytes
  | _, [] => [nul]
  | limit, c :: t =>
    if c = lf then nul :: (if LastLine limit t then t ++ [nul] else splitData (limit - 1) t)
    else blank c :: splitData limit t

/-- Where lines start that lie one after the other. -/
def starts : Nat → List Bytes → List Nat
  | _, [] => []
  | p, seg :: segs => p :: starts (p + seg.length + 1) segs

/-- The lines lie one after the other, each with a NUL behind it. -/
def Laid : List Bytes → Bytes → Prop
  | [], _ => True
  | seg :: segs, x => ∃ y, x = seg.map blank ++ nul :: y ∧ Laid segs y

theorem skipNewlines_isSome (data : Bytes) (len n i : Nat) (h : len ≤ data.length) :
    ∃ j, skipNewlines data len n i = some j := by
  induction n generalizing i with
  | zero => exact ⟨i, rfl⟩
  | succ n ih =>
    rw [skipNewlines]
    by_cases hi : i < len
    · obtain ⟨c, hc⟩ := getElem?_of_lt (Nat.lt_of_lt_of_le hi h)
      rw [if_pos hi, hc, Option.bind_eq_bind, Option.bind_some]
      by_cases hlf : c = lf
      · rw [if_pos hlf]
        exact ih (i + 1)
      · rw [if_neg hlf]
        exact ⟨i, rfl⟩
    · rw [if_neg hi]
      exact ⟨i, rfl⟩

theorem splitDone_spec {data : Bytes} {len : Nat} (h : len ≤ data.length) (i lines : Nat) (line : Lines) :
    splitDone len i lines data line = some (lines, data, line) := by
  obtain ⟨j, hj⟩ := skipNewlines_isSome data len (len - (i + 1)) (i + 1) h
  rw [splitDone, hj]
  rfl

theorem splitLines_lf (limit : Nat) (t : Bytes) : splitLines limit (lf :: t) =
    [] :: (if LastLine limit t then [] else splitLines (limit - 1) t) := if_pos rfl

theorem splitData_lf (limit : Nat) (t : Bytes) : splitData limit (lf :: t) =
    nul :: (if LastLine limit t then t ++ [nul] else splitData (limit - 1) t) := if_pos rfl

theorem splitLines_other {c : UInt8} (h : c ≠ lf) (limit : Nat) (t : Bytes) :
    splitLines limit (c :: t) = longerFirst c (splitLines limit t) := if_neg h

theorem splitData_other {c : UInt8} (h : c ≠ lf) (limit : Nat) (t : Bytes) :
    splitData limit (c :: t) = blank c :: splitData limit t := if_neg h

theorem blank_ne_lf {c : UInt8} (h : c ≠ lf) : blank c ≠ lf := by
  rw [blank]
  by_cases hc : c = cr ∨ c = lf
  · rw [if_pos hc]
    decide
  · rw [if_neg hc]
    exact h

/-- What the loop of `split_headers` sets: the lines that begin after this one. -/
def SetsLines (i lines : Nat) (segs : List Bytes) (line line' : Lines) : Prop :=
  (∀ l ≤ lines, line' l = line l) ∧
    ∀ l, lines < l → l < lines + segs.length → line' l = (starts i segs)[l - lines]?

theorem setsLines_nil (i lines : Nat) (line : Lines) : SetsLines i lines [] line line := by
  refine ⟨fun _ _ => rfl, ?_⟩
  intro l hl hlt
  rw [List.length_nil] at hlt
  omega

theorem setsLines_last (i lines : Nat) (seg : Bytes) (line : Lines) : SetsLines i lines [seg] line line := by
  refine ⟨fun _ _ => rfl, ?_⟩
  intro l hl hlt
  rw [List.length_singleton] at hlt
  omega

/-- One more byte of a line. -/
theorem SetsLines.longer {i lines : Nat} {c : UInt8} {segs : List Bytes} {line line' : Lines}
    (h : SetsLines (i + 1) lines segs line line') :
    SetsLines i lines (longerFirst c segs) line line' := by
  cases segs with
  | nil => exact h
  | cons seg segs =>
    refine ⟨h.1, ?_⟩
    intro l hl hlt
    have hline := h.2 l hl hlt
    obtain ⟨k, hk⟩ : ∃ k, l - lines = k + 1 := ⟨l - lines - 1, by omega⟩
    have hstart : i + 1 + seg.length + 1 = i + (c :: seg).length + 1 := by
      rw [List.length_cons]
      omega
    rw [longerFirst, hline, hk, starts, starts, List.getElem?_cons_succ, List.getElem?_cons_succ, hstart]

/-- A line is over, and the next one begins. -/
theorem SetsLines.next {i lines : Nat} {segs : List Bytes} {line line₁ line' : Lines}
    (h : SetsLines (i + 1) (lines + 1) segs line₁ line') (h₁ : line.set (lines + 1) (i + 1) = some line₁) :
    SetsLines i lines ([] :: segs) line line' := by
  have hset : line₁ = Function.update line (lines + 1) (some (i + 1)) := by
    rw [Lines.set] at h₁
    by_cases hlt : lines + 1 < maxHeaders
    · rw [if_pos hlt] at h₁
      exact (Option.some.inj h₁).symm
    · rw [if_neg hlt] at h₁
      cases h₁
  refine ⟨?_, ?_⟩
  · intro l hl
    have hne : l ≠ lines + 1 := by omega
    rw [h.1 l (by omega), hset, Function.update_of_ne hne]
  · intro l hl hlt
    rw [List.length_cons] at hlt
    obtain ⟨k, rfl⟩ : ∃ k, l = lines + 1 + k := ⟨l - lines - 1, by omega⟩
    have hk : lines + 1 + k - lines = k + 1 := by omega
    rw [hk, starts, List.getElem?_cons_succ, List.length_nil, Nat.add_zero]
    cases k with
    | zero =>
      cases segs with
      | nil =>
        rw [List.length_nil] at hlt
        omega
      | cons seg segs =>
        rw [Nat.add_zero, h.1 (lines + 1) (Nat.le_refl _), hset, Function.update_self, starts,
          List.getElem?_cons_zero]
    | succ k =>
      have hsub : lines + 1 + (k + 1) - (lines + 1) = k + 1 := by omega
      have hline := h.2 (lines + 1 + (k + 1)) (by omega) (by omega)
      rw [hline, hsub]

/-- The loop of `split_headers`, from within a line. -/
theorem splitLoop_spec {len i lines : Nat} {pre t : Bytes} (hpre : pre.length = i) (hlen : i + t.length = len)
    (hlines : lines < maxHeaders) (line : Lines) :
    ∃ line', splitLoop len t.length i lines (pre ++ (t ++ [nul])) line =
        some (lines + (splitLines (maxHeaders - lines) t).length,
          pre ++ splitData (maxHeaders - lines) t, line') ∧
      SetsLines i lines (splitLines (maxHeaders - lines) t) line line' := by
  -- on the bytes left; the buffer in front of `i` has its line ends replaced already
  induction t generalizing i lines pre line with
  | nil =>
    have hfits : len ≤ (pre ++ ([] ++ [nul])).length := by
      rw [List.length_nil] at hlen
      simp only [List.length_append]
      omega
    exact ⟨line, splitDone_spec hfits i lines line, setsLines_nil i lines line⟩
  | cons c t ih =>
    rw [List.length_cons] at hlen
    have hget : ∀ d u, (pre ++ (d :: u))[i]? = some d := by
      intro d u
      rw [← hpre]
      exact getElem?_next pre [] d u
    have hput : ∀ d u, putNul (pre ++ (d :: u)) i = some (pre ++ (nul :: u)) := by
      intro d u
      rw [← hpre]
      exact putNul_next pre [] d u
    have hpush : ∀ d u, pre ++ (d :: u) = (pre ++ [d]) ++ u := fun d u => by simp
    have hpre' : ∀ d, (pre ++ [d]).length = i + 1 := by
      intro d
      rw [List.length_append, hpre]
      rfl
    rw [List.length_cons, splitLoop, if_pos hlines]
    simp only [List.cons_append, hget, Option.bind_eq_bind, Option.bind_some]
    by_cases hc : c = lf
    · -- a line is over
      subst hc
      have hcr : lf ≠ cr := by decide
      rw [if_neg hcr, Option.bind_some, hget, Option.bind_some, if_pos rfl, hput, Option.bind_some,
        splitLines_lf, splitData_lf]
      by_cases hlimit : lines + 1 ≥ maxHeaders
      · have hlast : LastLine (maxHeaders - lines) t := Or.inl (by omega)
        have hcount : maxHeaders = lines + 1 := by omega
        rw [if_pos hlimit, if_pos hlast, if_pos hlast]
        refine ⟨line, ?_, setsLines_last i lines [] line⟩
        rw [List.length_singleton, ← hcount]
      · have hcount : 1 < maxHeaders - lines := by omega
        rw [if_neg hlimit]
        cases t with
        | nil =>
          have hend : ¬ i + 1 < len := by
            rw [List.length_nil] at hlen
            omega
          have hfits : len ≤ (pre ++ nul :: ([] ++ [nul])).length := by
            rw [List.length_nil] at hlen
            simp only [List.length_append, List.length_cons]
            omega
          have hlast := not_lastLine_nil hcount
          rw [if_neg hend, if_neg hlast, if_neg hlast]
          exact ⟨line, splitDone_spec hfits (i + 1) (lines + 1) line, setsLines_last i lines [] line⟩
        | cons d t =>
          have hmore : i + 1 < len := by
            rw [List.length_cons] at hlen
            omega
          have hget' : (pre ++ nul :: (d :: t ++ [nul]))[i + 1]? = some d := by
            rw [hpush, ← hpre' nul]
            exact getElem?_next (pre ++ [nul]) [] d (t ++ [nul])
          rw [if_pos hmore, hget', Option.bind_some]
          by_cases hd : d = lf ∨ d = cr
          · have hlast := (lastLine_cons hcount d t).mpr hd
            have hfits : len ≤ (pre ++ nul :: (d :: t ++ [nul])).length := by
              simp only [List.length_append, List.length_cons] at hlen ⊢
              omega
            rw [if_pos hd, if_pos hlast, if_pos hlast, splitDone_spec hfits]
            exact ⟨line, rfl, setsLines_last i lines [] line⟩
          · have hlast := mt (lastLine_cons hcount d t).mp hd
            have hlt : lines + 1 < maxHeaders := by omega
            have hset : line.set (lines + 1) (i + 1) = some (Function.update line (lines + 1) (some (i + 1))) :=
              if_pos hlt
            obtain ⟨line', e, L⟩ := ih (hpre' nul) (by omega) hlt (Function.update line (lines + 1) (some (i + 1)))
            have hsub : maxHeaders - lines - 1 = maxHeaders - (lines + 1) := by omega
            rw [if_neg hd, if_neg hlast, if_neg hlast, hset, Option.bind_some, hpush, e, hsub]
            refine ⟨line', ?_, L.next hset⟩
            rw [List.append_assoc, List.length_cons, Nat.add_assoc lines 1, Nat.add_comm 1]
            rfl
    · -- the line goes on
      have hblank : (if c = cr then putNul (pre ++ (c :: (t ++ [nul]))) i else some (pre ++ (c :: (t ++ [nul])))) =
          some (pre ++ (blank c :: (t ++ [nul]))) := by
        by_cases hcr : c = cr
        · rw [if_pos hcr, hput, blank, if_pos (Or.inl hcr)]
        · rw [if_neg hcr, blank, if_neg (fun h => h.elim hcr hc)]
      obtain ⟨line', e, L⟩ := ih (hpre' (blank c)) (by omega) hlines line
      rw [hblank, Option.bind_some, hget, Option.bind_some, if_neg (blank_ne_lf hc), hpush, e,
        splitLines_other hc, splitData_other hc]
      refine ⟨line', ?_, L.longer⟩
      rw [List.append_assoc]
      cases splitLines (maxHeaders - lines) t <;> rfl

/-! The lines of a message. -/

/-- What comes before the first newline. -/
def firstSegment (text : Bytes) : Bytes := text.takeWhile (· ≠ lf)

/-- The lines behind the first one. -/
def headerSegments (text : Bytes) : List Bytes := (splitLines maxHeaders text).tail

/-- The string of a line. -/
def lineText (seg : Bytes) : Bytes := cString (seg.map blank)

/-- The first line of a message. -/
def firstLine (text : Bytes) : Bytes := text.takeWhile fun c => c ≠ cr ∧ c ≠ lf ∧ c ≠ nul

theorem lineText_eq {seg : Bytes} (h : lf ∉ seg) :
    lineText seg = seg.takeWhile fun c => c ≠ cr ∧ c ≠ lf ∧ c ≠ nul := by
  induction seg with
  | nil => rfl
  | cons c seg ih =>
    have hc : c ≠ lf := fun e => h (e ▸ List.mem_cons_self)
    have hseg : lf ∉ seg := fun hm => h (List.mem_cons_of_mem c hm)
    have hrest : cString (seg.map blank) = seg.takeWhile fun c => c ≠ cr ∧ c ≠ lf ∧ c ≠ nul := ih hseg
    rw [lineText, List.map_cons, cString, List.takeWhile_cons, ← cString, hrest, List.takeWhile_cons, blank]
    by_cases hcr : c = cr
    · simp [hcr, nul]
    · simp [hcr, hc]

theorem firstLine_eq (text : Bytes) : firstLine text = lineText (firstSegment text) := by
  have hlf : lf ∉ firstSegment text := by
    intro h
    have := List.mem_takeWhile_imp h
    simp at this
  rw [lineText_eq hlf, firstLine, firstSegment, List.takeWhile_takeWhile]
  congr 1
  funext c
  rw [decide_eq_decide, decide_eq_true_eq, decide_eq_true_eq]
  tauto

/-- The buffer is the first line and behind it the others. -/
theorem splitData_laid (limit : Nat) (t : Bytes) :
    ∃ y, splitData limit t = (t.takeWhile (· ≠ lf)).map blank ++ nul :: y ∧
      Laid (splitLines limit t).tail y ∧
      (splitLines limit t = [] ∨ (splitLines limit t).head? = some (t.takeWhile (· ≠ lf))) := by
  induction t generalizing limit with
  | nil => exact ⟨[], rfl, trivial, Or.inl rfl⟩
  | cons c t ih =>
    by_cases hc : c = lf
    · subst hc
      have hnone : (lf :: t).takeWhile (· ≠ lf) = [] := by
        rw [List.takeWhile_cons, if_neg (by simp)]
      rw [splitData_lf, splitLines_lf, hnone]
      by_cases hlast : LastLine limit t
      · rw [if_pos hlast, if_pos hlast]
        exact ⟨t ++ [nul], rfl, trivial, Or.inr rfl⟩
      · rw [if_neg hlast, if_neg hlast]
        refine ⟨splitData (limit - 1) t, rfl, ?_, Or.inr rfl⟩
        obtain ⟨y, hy, hlaid, hhead⟩ := ih (limit - 1)
        rw [List.tail_cons]
        cases hs : splitLines (limit - 1) t with
        | nil => trivial
        | cons seg segs =>
          rw [hs] at hhead hlaid
          have hseg : seg = t.takeWhile (· ≠ lf) :=
            hhead.elim (fun h => absurd h (List.cons_ne_nil _ _)) Option.some.inj
          exact ⟨y, hseg ▸ hy, hlaid⟩
    · obtain ⟨y, hy, hlaid, hhead⟩ := ih limit
      have htake : (c :: t).takeWhile (· ≠ lf) = c :: t.takeWhile (· ≠ lf) := by
        rw [List.takeWhile_cons, if_pos (by simpa using hc)]
      rw [splitData_other hc, splitLines_other hc, htake, hy]
      refine ⟨y, rfl, ?_, ?_⟩
      · cases hs : splitLines limit t with
        | nil => trivial
        | cons seg segs =>
          rw [hs] at hlaid
          exact hlaid
      · cases hs : splitLines limit t with
        | nil => exact Or.inl rfl
        | cons seg segs =>
          rw [hs] at hhead
          have hseg : seg = t.takeWhile (· ≠ lf) :=
            hhead.elim (fun h => absurd h (List.cons_ne_nil _ _)) Option.some.inj
          right
          rw [longerFirst, List.head?_cons, hseg]

/-- `split_headers` on a message: the first line is at 0, and the other lines lie behind it. -/
theorem splitHeaders_spec (text : Bytes) :
    ∃ line y, splitHeaders (text ++ [nul]) text.length =
        some ((splitLines maxHeaders text).length, (firstSegment text).map blank ++ nul :: y, line) ∧
      line 0 = some 0 ∧ Laid (headerSegments text) y ∧
      ∀ k < (headerSegments text).length,
        line (1 + k) = (starts ((firstSegment text).length + 1) (headerSegments text))[k]? := by
  have hset : Lines.set (fun _ => none) 0 0 = some (Function.update (fun _ => none) 0 (some 0)) := rfl
  have hlen : 0 + text.length = text.length := Nat.zero_add _
  have hlines : 0 < maxHeaders := by decide
  have hpre : ([] : Bytes).length = 0 := rfl
  obtain ⟨line, e, hbefore, hafter⟩ := splitLoop_spec hpre hlen hlines
    (Function.update (fun _ => none) 0 (some 0))
  obtain ⟨y, hy, hlaid, hhead⟩ := splitData_laid maxHeaders text
  rw [Nat.sub_zero, Nat.zero_add, List.nil_append, List.nil_append] at e
  refine ⟨line, y, ?_, ?_, hlaid, ?_⟩
  · rw [splitHeaders, hset, Option.bind_eq_bind, Option.bind_some, e, hy]
    rfl
  · rw [hbefore 0 (Nat.le_refl 0), Function.update_self]
  · intro k hk
    rw [Nat.sub_zero] at hafter
    rw [headerSegments] at hk ⊢
    cases hs : splitLines maxHeaders text with
    | nil =>
      rw [hs] at hk
      cases hk
    | cons seg segs =>
      rw [hs] at hk hhead hafter
      have hseg : seg = firstSegment text :=
        hhead.elim (fun h => absurd h (List.cons_ne_nil _ _)) Option.some.inj
      have hline := hafter (1 + k) (by omega) (by rw [List.length_cons]; rw [List.tail_cons] at hk; omega)
      have hk' : 1 + k - 0 = k + 1 := by omega
      rw [hline, hk', starts, List.getElem?_cons_succ, List.tail_cons, Nat.zero_add, hseg]

end IcecastCommon.Httpp
