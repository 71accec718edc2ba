import IcecastCommon.Httpp.Reachable

/- The memory that cutting up a message touches. The buffer of a message of `len` bytes has
   `len + 1` cells and a NUL in the last one; nothing that is done to it changes that
   (`Closed`), so a string that starts in the message ends in it. A line is set in time when
   it is used: `split_headers` leaves its last cell unset only where it stops counting. -/
namespace IcecastCommon.Httpp
open Avl Library
open Encoding (Bytes nul cr lf cString cString_length_le)

/-! The buffer. -/

/-- The buffer of a message of `len` bytes, with the NUL behind it. -/
structure Closed (len : Nat) (data : Bytes) : Prop where
  length : data.length = len + 1
  last : data[len]? = some nul

/-- A string starts at `p`, and its NUL is in the buffer. -/
def StringIn (len : Nat) (data : Bytes) (p : Nat) : Prop :=
  p ≤ len ∧ ∃ q, p ≤ q ∧ q ≤ len ∧ data[q]? = some nul

theorem closed_message (text : Bytes) : Closed text.length (text ++ [nul]) := by
  refine ⟨List.length_append, ?_⟩
  rw [List.getElem?_append_right (Nat.le_refl _), Nat.sub_self]
  rfl

section
variable {len : Nat} {data : Bytes}

theorem Closed.stringIn (h : Closed len data) {p : Nat} (hp : p ≤ len) : StringIn len data p :=
  ⟨hp, len, hp, Nat.le_refl _, h.last⟩

theorem Closed.get (h : Closed len data) {i : Nat} (hi : i ≤ len) : ∃ c, data[i]? = some c := by
  apply getElem?_of_lt
  rw [h.length]
  exact Nat.lt_succ_of_le hi

theorem Closed.putNul (h : Closed len data) {i : Nat} (hi : i ≤ len) :
    ∃ data', putNul data i = some data' ∧ Closed len data' := by
  have hlt : i < data.length := by
    rw [h.length]
    exact Nat.lt_succ_of_le hi
  refine ⟨data.set i nul, if_pos hlt, ?_, ?_⟩
  · rw [List.length_set, h.length]
  · by_cases hlast : i = len
    · rw [← hlast]
      exact List.getElem?_set_self hlt
    · rw [List.getElem?_set_ne hlast, h.last]

/-- The buffer, up to its NUL. -/
theorem Closed.split (h : Closed len data) : ∃ x, x.length = len ∧ data = x ++ [nul] := by
  have hlt : len < data.length := by
    rw [h.length]
    exact Nat.lt_succ_self len
  have hlast : data[len] = nul := by
    apply Option.some.inj
    rw [← List.getElem?_eq_getElem hlt, h.last]
  refine ⟨data.take len, ?_, ?_⟩
  · rw [List.length_take, Nat.min_eq_left (Nat.le_of_lt hlt)]
  · calc data = data.take len ++ data.drop len := (List.take_append_drop len data).symm
      _ = data.take len ++ data[len] :: data.drop (len + 1) := by rw [List.drop_eq_getElem_cons hlt]
      _ = data.take len ++ [nul] := by rw [hlast, List.drop_eq_nil_of_le (Nat.le_of_eq h.length)]

/-- A string that starts in the message is read up to a NUL of the buffer. -/
theorem Closed.stringAt (h : Closed len data) {p : Nat} (hp : p ≤ len) :
    ∃ s, stringAt data p = some s ∧ p + s.length ≤ len := by
  obtain ⟨x, hx, rfl⟩ := h.split
  rw [← hx] at hp
  refine ⟨cString (x.drop p), stringAt_offset x [] hp, ?_⟩
  have hle := cString_length_le (x.drop p)
  rw [List.length_drop] at hle
  omega

/-- `_lowercase` writes within its string. -/
theorem Closed.lowercase (h : Closed len data) {p : Nat} (hp : p ≤ len) :
    ∃ data', lowercase data p = some data' ∧ Closed len data' := by
  obtain ⟨s, hs, hle⟩ := h.stringAt hp
  refine ⟨data.take p ++ s.map toLower ++ data.drop (p + s.length), ?_, ?_⟩
  · rw [Httpp.lowercase, hs]
    rfl
  · have hfront : (data.take p ++ s.map toLower).length = p + s.length := by
      rw [List.length_append, List.length_take, List.length_map, h.length]
      omega
    constructor
    · rw [List.length_append, hfront, List.length_drop, h.length]
      omega
    · rw [List.getElem?_append_right (by omega), hfront, List.getElem?_drop, ← h.last]
      congr 1
      omega

end

/-! The lines. -/

/-- The lines counted so far start in the message, and so does the next one unless the
message is at its end. -/
def Filled (len lines n : Nat) (line : Lines) : Prop :=
  ∀ l, l = 0 ∨ l < lines ∨ l = lines ∧ 0 < n → ∃ p, line l = some p ∧ p ≤ len

/-- What `split_headers` leaves: at most `MAX_HEADERS` lines, each of them set. -/
def SplitWithin (len : Nat) (result : Option (Nat × Bytes × Lines)) : Prop :=
  ∃ lines data line, result = some (lines, data, line) ∧ lines ≤ maxHeaders ∧ Closed len data ∧
    ∀ l, l = 0 ∨ l < lines → ∃ p, line l = some p ∧ p ≤ len

section
variable {len lines n i : Nat} {data : Bytes} {line : Lines}

theorem Filled.counted (h : Filled len lines n line) : ∀ l, l = 0 ∨ l < lines → ∃ p, line l = some p ∧ p ≤ len :=
  fun l hl => h l (hl.imp_right Or.inl)

/-- A line is over, and none begins. -/
theorem Filled.over (h : Filled len lines (n + 1) line) : Filled len (lines + 1) 0 line := by
  intro l hl
  apply h
  omega

/-- One more byte of the line. -/
theorem Filled.longer (h : Filled len lines (n + 1) line) : Filled len lines n line := by
  intro l hl
  apply h
  omega

/-- A line is over, and the next one begins. -/
theorem Filled.next (h : Filled len lines (n + 1) line) {p : Nat} (hp : p ≤ len) :
    Filled len (lines + 1) n (Function.update line (lines + 1) (some p)) := by
  intro l hl
  by_cases hnew : l = lines + 1
  · rw [hnew, Function.update_self]
    exact ⟨p, rfl, hp⟩
  · rw [Function.update_of_ne hnew]
    apply h
    omega

theorem Closed.splitDone (h : Closed len data) (hlines : lines ≤ maxHeaders)
    (hset : ∀ l, l = 0 ∨ l < lines → ∃ p, line l = some p ∧ p ≤ len) (i : Nat) :
    SplitWithin len (splitDone len i lines data line) := by
  have hlen : len ≤ data.length := by
    rw [h.length]
    exact Nat.le_succ len
  exact ⟨lines, data, line, splitDone_spec hlen i lines line, hlines, h, hset⟩

/-- The loop of `split_headers` stays in the buffer, whatever is in it. -/
theorem Closed.splitLoop (h : Closed len data) (hn : i + n = len) (hlines : lines ≤ maxHeaders)
    (hfilled : Filled len lines n line) : SplitWithin len (splitLoop len n i lines data line) := by
  -- on the bytes left; the invariant is that the lines up to this one are set
  induction n generalizing i lines data line with
  | zero => exact h.splitDone hlines hfilled.counted i
  | succ n ih =>
    rw [Httpp.splitLoop]
    by_cases hlimit : lines < maxHeaders
    · obtain ⟨c, hc⟩ := h.get (i := i) (by omega)
      have hcr : ∃ data₁, (if c = cr then Httpp.putNul data i else some data) = some data₁ ∧ Closed len data₁ := by
        by_cases hcr : c = cr
        · rw [if_pos hcr]
          exact h.putNul (by omega)
        · rw [if_neg hcr]
          exact ⟨data, rfl, h⟩
      obtain ⟨data₁, e₁, h₁⟩ := hcr
      obtain ⟨c₁, hc₁⟩ := h₁.get (i := i) (by omega)
      simp only [if_pos hlimit, hc, e₁, hc₁, Option.bind_eq_bind, Option.bind_some]
      by_cases hlf : c₁ = lf
      · obtain ⟨data₂, e₂, h₂⟩ := h₁.putNul (i := i) (by omega)
        simp only [if_pos hlf, e₂, Option.bind_some]
        by_cases hfull : lines + 1 ≥ maxHeaders
        · -- the last line that there is room for
          have hcount : maxHeaders = lines + 1 := Nat.le_antisymm hfull hlimit
          rw [if_pos hfull]
          exact ⟨maxHeaders, data₂, line, rfl, Nat.le_refl _, h₂, hcount ▸ hfilled.over.counted⟩
        · rw [if_neg hfull]
          by_cases hmore : i + 1 < len
          · obtain ⟨d, hd⟩ := h₂.get (Nat.le_of_lt hmore)
            simp only [if_pos hmore, hd, Option.bind_some]
            by_cases hempty : d = lf ∨ d = cr
            · -- an empty line: it is counted as the end of this one, and not set
              rw [if_pos hempty]
              exact h₂.splitDone hlimit hfilled.over.counted i
            · have hset : line.set (lines + 1) (i + 1) = some (Function.update line (lines + 1) (some (i + 1))) :=
                if_pos (Nat.lt_of_not_le hfull)
              rw [if_neg hempty, hset, Option.bind_some]
              exact ih h₂ (by omega) hlimit (hfilled.next (Nat.le_of_lt hmore))
          · -- the message is at its end: the next line is not set, and no byte is left
            have hzero : n = 0 := by omega
            rw [if_neg hmore]
            subst hzero
            exact ih h₂ (by omega) hlimit hfilled.over
      · rw [if_neg hlf]
        exact ih h₁ (by omega) hlines hfilled.longer
    · rw [if_neg hlimit]
      exact h.splitDone hlines hfilled.counted i

end

/-- `split_headers` stays in the buffer of its message. -/
theorem splitHeaders_within (text : Bytes) :
    SplitWithin text.length (splitHeaders (text ++ [nul]) text.length) := by
  have hset : Lines.set (fun _ => none) 0 0 = some (Function.update (fun _ => none) 0 (some 0)) := rfl
  rw [splitHeaders, hset, Option.bind_eq_bind, Option.bind_some]
  apply (closed_message text).splitLoop (Nat.zero_add _) (Nat.zero_le _)
  intro l hl
  have hzero : l = 0 := by omega
  rw [hzero, Function.update_self]
  exact ⟨0, rfl, Nat.zero_le _⟩

/-! The first line. -/

section
variable {len p n i wh : Nat} {data : Bytes}

/-- The loop of `httpp_parse` stays in its line. -/
theorem Closed.requestLoop (h : Closed len data) (hp : p + (i + n) ≤ len) (whitespace : Bool)
    (uri version : Option Nat) :
    ∃ words, requestLoop p n i whitespace wh data uri version = some words ∧ ∀ w ∈ words, Closed len w.1 := by
  induction n generalizing i whitespace wh data uri version with
  | zero =>
    refine ⟨_, rfl, ?_⟩
    intro w hw
    cases hw
    exact h
  | succ n ih =>
    obtain ⟨c, hc⟩ := h.get (i := p + i) (by omega)
    unfold Httpp.requestLoop
    rw [hc, Option.bind_eq_bind, Option.bind_some]
    by_cases hspace : c = space
    · obtain ⟨data', e, h'⟩ := h.putNul (i := p + i) (by omega)
      rw [if_pos hspace, e, Option.bind_eq_bind, Option.bind_some]
      exact ih h' (by omega) true uri version
    · rw [if_neg hspace]
      cases whitespace with
      | false => exact ih h (by omega) false uri version
      | true =>
        -- the first word, the second, the end of the loop
        obtain _ | _ | _ | wh := wh
        · exact ih h (by omega) false _ version
        · exact ih h (by omega) false uri _
        · refine ⟨none, rfl, ?_⟩
          intro w hw
          cases hw
        · exact ih h (by omega) false uri version

theorem Closed.scanRequest (h : Closed len data) (hp : p ≤ len) :
    ∃ words, scanRequest data p = some words ∧ ∀ w ∈ words, Closed len w.1 := by
  obtain ⟨s, hs, hle⟩ := h.stringAt hp
  have hscan := scanned_le s
  rw [Httpp.scanRequest, hs, Option.bind_eq_bind, Option.bind_some]
  apply h.requestLoop
  rw [← scanned]
  omega

/-- The loop of `httpp_parse_response` stays in its line. -/
theorem Closed.responseLoop (h : Closed len data) (hp : p + (i + n) ≤ len) (whitespace : Bool)
    (respCode : Option Nat) :
    ∃ words, responseLoop p n i whitespace wh data respCode = some words ∧ Closed len words.1 := by
  induction n generalizing i whitespace wh data respCode with
  | zero => exact ⟨_, rfl, h⟩
  | succ n ih =>
    obtain ⟨c, hc⟩ := h.get (i := p + i) (by omega)
    rw [Httpp.responseLoop, hc, Option.bind_eq_bind, Option.bind_some]
    by_cases hspace : c = space
    · obtain ⟨data', e, h'⟩ := h.putNul (i := p + i) (by omega)
      rw [if_pos hspace, e, Option.bind_eq_bind, Option.bind_some]
      exact ih h' (by omega) true respCode
    · rw [if_neg hspace]
      cases whitespace with
      | false => exact ih h (by omega) false respCode
      | true =>
        by_cases hfirst : wh + 1 = 1
        · rw [if_pos rfl, if_pos hfirst]
          exact ih h (by omega) false _
        · rw [if_pos rfl, if_neg hfirst]
          exact ⟨_, rfl, h⟩

theorem Closed.scanResponse (h : Closed len data) (hp : p ≤ len) :
    ∃ words, scanResponse data p = some words ∧ Closed len words.1 := by
  obtain ⟨s, hs, hle⟩ := h.stringAt hp
  have hscan := scanned_le s
  rw [Httpp.scanResponse, hs, Option.bind_eq_bind, Option.bind_some]
  apply h.responseLoop
  rw [← scanned]
  omega

/-! The headers. -/

theorem Closed.skipSpaces (h : Closed len data) (hp : p + (i + n) ≤ len) :
    ∃ j, skipSpaces data p n i = some j ∧ j ≤ i + n := by
  induction n generalizing i with
  | zero => exact ⟨i, rfl, Nat.le_refl i⟩
  | succ n ih =>
    obtain ⟨c, hc⟩ := h.get (i := p + i) (by omega)
    rw [Httpp.skipSpaces, hc, Option.bind_eq_bind, Option.bind_some]
    by_cases hspace : c = space
    · obtain ⟨j, e, hj⟩ := ih (i := i + 1) (by omega)
      rw [if_pos hspace, e]
      exact ⟨j, rfl, by omega⟩
    · rw [if_neg hspace]
      exact ⟨i, rfl, Nat.le_add_right i _⟩

/-- The loop of `parse_headers` stays in its line. -/
theorem Closed.headerLoop (h : Closed len data) {slen : Nat} (hn : i + n = slen) (hp : p + slen ≤ len)
    (whitespace : Bool) :
    ∃ data' value, headerLoop p slen n i whitespace data = some (data', value) ∧ Closed len data' ∧
      ∀ v ∈ value, v ≤ len := by
  induction n generalizing i whitespace data with
  | zero =>
    refine ⟨data, none, rfl, h, ?_⟩
    intro v hv
    cases hv
  | succ n ih =>
    obtain ⟨c, hc⟩ := h.get (i := p + i) (by omega)
    rw [Httpp.headerLoop, hc, Option.bind_eq_bind, Option.bind_some]
    by_cases hcolon : c = colon
    · obtain ⟨data', e, h'⟩ := h.putNul (i := p + i) (by omega)
      rw [if_pos hcolon, e, Option.bind_eq_bind, Option.bind_some]
      exact ih h' (by omega) true
    · rw [if_neg hcolon]
      cases whitespace with
      | false => exact ih h (by omega) false
      | true =>
        obtain ⟨j, e, hj⟩ := h.skipSpaces (p := p) (n := n + 1) (i := i) (by omega)
        rw [if_pos rfl, e, Option.bind_eq_bind, Option.bind_some]
        refine ⟨data, _, rfl, h, ?_⟩
        intro v hv
        by_cases hlt : j < slen
        · rw [if_pos hlt] at hv
          cases hv
          omega
        · rw [if_neg hlt] at hv
          cases hv

end

section
variable {len p : Nat} {data : Bytes} {parser : Parser}

/-- A variable is set on trees that hold maps of strings. -/
theorem Sound.setvar (S : Sound parser) (name value : Bytes) :
    ∃ parser', httppSetvar parser (some name) (some value) = some parser' ∧ Sound parser' := by
  obtain ⟨m, R, h⟩ := S
  obtain ⟨parser', e, R', _⟩ := R.setvar_any name (some value)
  exact ⟨parser', e, _, R', h.apply _⟩

/-- One line of `parse_headers`. -/
theorem Closed.parseHeader (h : Closed len data) (S : Sound parser) (hp : p ≤ len) :
    ∃ data' parser', parseHeader parser data p = some (data', parser') ∧ Closed len data' ∧ Sound parser' := by
  obtain ⟨s, hs, hle⟩ := h.stringAt hp
  have hscan := scanned_le s
  have hslen : 0 + scanned s = scanned s := Nat.zero_add _
  obtain ⟨data₁, value, e₁, h₁, hvalue⟩ := h.headerLoop (p := p) hslen (by omega) false
  rw [Httpp.parseHeader, Option.bind_eq_bind, bind_of_eq hs, ← scanned, Option.bind_eq_bind, bind_of_eq e₁]
  cases value with
  | none => exact ⟨data₁, parser, rfl, h₁, S⟩
  | some v =>
    obtain ⟨data₂, e₂, h₂⟩ := h₁.lowercase hp
    obtain ⟨name, hname, _⟩ := h₂.stringAt hp
    obtain ⟨text, htext, _⟩ := h₂.stringAt (hvalue v rfl)
    obtain ⟨parser', e', S'⟩ := S.setvar name text
    refine ⟨data₂, parser', ?_, h₂, S'⟩
    simp only [e₂, hname, htext, e', Option.bind_eq_bind, Option.bind_some]

/-- `parse_headers` on lines that start in the message. -/
theorem Closed.parseHeaders (h : Closed len data) (S : Sound parser) {line : Lines} {n l : Nat}
    (hset : ∀ k, l ≤ k → k < l + n → ∃ p, line k = some p ∧ p ≤ len) :
    ∃ parser', parseHeaders line n l data parser = some parser' ∧ Sound parser' := by
  induction n generalizing l data parser with
  | zero => exact ⟨parser, rfl, S⟩
  | succ n ih =>
    obtain ⟨p, hline, hp⟩ := hset l (Nat.le_refl l) (by omega)
    obtain ⟨data₁, parser₁, e₁, h₁, S₁⟩ := h.parseHeader S hp
    have hrest : ∀ k, l + 1 ≤ k → k < l + 1 + n → ∃ p, line k = some p ∧ p ≤ len :=
      fun k hk hlt => hset k (by omega) (by omega)
    simp only [Httpp.parseHeaders, hline, e₁, Option.bind_eq_bind, Option.bind_some]
    exact ih h₁ S₁ hrest

end

/-- Splitting a message and everything that is done to its lines afterwards stays in its
buffer, and uses no line that is not set. -/
theorem split_within (text : Bytes) (calls : List ParserCall) :
    ∃ new outs parser, httppCreateParser = some new ∧ runCalls parserStep calls new = some (outs, parser) ∧
      ∃ lines data line, splitHeaders (text ++ [nul]) text.length = some (lines, data, line) ∧
        lines ≤ maxHeaders ∧ Closed text.length data ∧
        (∀ l, l = 0 ∨ l < lines → ∃ p, line l = some p ∧ StringIn text.length data p) ∧
        (∃ words, (line 0).bind (scanRequest data) = some words ∧ ∀ w ∈ words, Closed text.length w.1) ∧
        (∃ words, (line 0).bind (scanResponse data) = some words ∧ Closed text.length words.1) ∧
        (∀ data', Closed text.length data' →
          ∃ parser', parseHeaders line (lines - 1) 1 data' parser = some parser') ∧
        (∃ r parser', httppParse parser (some text) = some (r, parser')) ∧
        ∀ uri, ∃ r parser', httppParseResponse parser (some text) uri = some (r, parser') := by
  obtain ⟨new, outs, parser, hnew, hrun, S⟩ := run_sound calls
  obtain ⟨lines, data, line, hsplit, hlines, h, hset⟩ := splitHeaders_within text
  obtain ⟨first, hfirst, hin⟩ := hset 0 (Or.inl rfl)
  refine ⟨new, outs, parser, hnew, hrun, lines, data, line, hsplit, hlines, h, ?_, ?_, ?_, ?_, ?_, ?_⟩
  · intro l hl
    obtain ⟨p, hline, hp⟩ := hset l hl
    exact ⟨p, hline, h.stringIn hp⟩
  · rw [hfirst]
    exact h.scanRequest hin
  · rw [hfirst]
    exact h.scanResponse hin
  · intro data' h'
    have hbehind : ∀ k, 1 ≤ k → k < 1 + (lines - 1) → ∃ p, line k = some p ∧ p ≤ text.length :=
      fun k hk hlt => hset k (Or.inr (by omega))
    obtain ⟨parser', e, _⟩ := h'.parseHeaders S hbehind
    exact ⟨parser', e⟩
  · obtain ⟨r, parser', e, _⟩ := S.step (.parse (some text))
    exact ⟨r, parser', e⟩
  · intro uri
    obtain ⟨r, parser', e, _⟩ := S.step (.parseResponse (some text) uri)
    exact ⟨r, parser', e⟩

end IcecastCommon.Httpp
