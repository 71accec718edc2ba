import IcecastCommon.Httpp.RequestLine

/- Responses as they are written: a status line of three parts, header lines that end with a
   newline, with or without a carriage return, and an empty line. `httpp_parse_response` reads
   them back as far as the `int` lengths of the lines go: the third part and the value of the
   last header of a name must begin within them. -/
namespace IcecastCommon.Httpp
open Avl Library
open Encoding (Bytes nul cr lf cString cString_of_plain)

/-! Status lines. -/

/-- The number at the start of a string. -/
def decimal (s : Bytes) : Int :=
  match s.dropWhile isSpace with
  | 45 :: digits => -(leadingNumber digits : Int)
  | 43 :: digits => leadingNumber digits
  | digits => leadingNumber digits

def FitsInt (n : Int) : Prop := -2 ^ 31 ≤ n ∧ n < 2 ^ 31

theorem atoi_decimal {s : Bytes} (h : FitsInt (decimal s)) : atoi s = decimal s := by
  have hstrtol : strtol s = decimal s := by
    have hclamp : strtol s = max (-2 ^ 63) (min (2 ^ 63 - 1) (decimal s)) := rfl
    have hlow := h.1
    have hhigh := h.2
    rw [hclamp]
    omega
  have hmod := h
  rw [FitsInt] at hmod
  rw [atoi, hstrtol, Int.bmod_def]
  norm_num
  split <;> omega

/-- A version, a code and a message; only the message may have spaces in it. -/
structure StatusLine where
  version : Bytes
  /-- How many spaces there are between the parts beyond the one that there must be. -/
  between : Nat
  code : Bytes
  behind : Nat
  message : Bytes
  version_noSpace : space ∉ version
  code_ne : code ≠ []
  code_noSpace : space ∉ code
  message_ne : message ≠ []
  message_head : message.head? ≠ some space

namespace StatusLine
variable (l : StatusLine)

/-- The line up to its code, and up to its message. -/
def toCode : Bytes := l.version ++ space :: spaces l.between

def toMessage : Bytes := l.toCode ++ (l.code ++ space :: spaces l.behind)

def text : Bytes := l.toMessage ++ l.message

end StatusLine

/-- The line has a second and a third part. -/
def ThreeParts (s : Bytes) : Prop := ∃ l : StatusLine, l.text = s

namespace StatusLine
variable (l : StatusLine)

theorem toMessage_length : l.toMessage.length = l.toCode.length + (l.code.length + 1 + l.behind) := by
  simp only [toMessage, spaces, List.length_append, List.length_cons, List.length_replicate]
  omega

theorem wordStarts_text :
    ∃ rest, wordStarts 0 false l.text = l.toCode.length :: l.toMessage.length :: rest ∧
      ∀ w ∈ rest, l.toMessage.length < w := by
  obtain ⟨d, message, hmessage⟩ := List.exists_cons_of_ne_nil l.message_ne
  have hd : d ≠ space := by
    have h := l.message_head
    rw [hmessage] at h
    exact fun e => h (congrArg some e)
  have htext : l.text = l.version ++ space :: (spaces l.between ++ (l.code ++ space ::
      (spaces l.behind ++ d :: message))) := by
    rw [text, toMessage, toCode, hmessage]
    simp
  have hfirst : 0 + l.version.length + 1 + l.between = l.toCode.length := by
    simp [toCode, spaces]
    omega
  have hsecond : l.toCode.length + l.code.length + 1 + l.behind = l.toMessage.length := by
    rw [l.toMessage_length]
    omega
  refine ⟨wordStarts (l.toMessage.length + 1) false message, ?_, fun w hw => le_of_mem_wordStarts hw⟩
  rw [htext, wordStarts_inside l.version_noSpace, wordStarts_gap _ _ _ l.code_ne l.code_noSpace,
    wordStarts_space, wordStarts_spaces, wordStarts, if_neg hd, if_pos rfl, hfirst, hsecond]

/-- The second and the third part are found when the scan looks at the start of the third. -/
theorem lineWords_text (h : l.toMessage.length < scanned l.text) :
    (lineWords l.text)[0]? = some l.toCode.length ∧ (lineWords l.text)[1]? = some l.toMessage.length := by
  obtain ⟨rest, hstarts, _⟩ := l.wordStarts_text
  have hcode : l.toCode.length < scanned l.text := by
    have := l.toMessage_length
    omega
  rw [lineWords, wordStarts_take, hstarts, Nat.zero_add, List.filter_cons, if_pos (decide_eq_true hcode),
    List.filter_cons, if_pos (decide_eq_true h)]
  exact ⟨rfl, rfl⟩

theorem lineWords_short (h : ¬ l.toMessage.length < scanned l.text) : (lineWords l.text)[1]? = none := by
  obtain ⟨rest, hstarts, hrest⟩ := l.wordStarts_text
  have hnone : (l.toMessage.length :: rest).filter (· < scanned l.text) = [] := by
    rw [List.filter_eq_nil_iff]
    intro w hw
    rw [decide_eq_true_eq]
    rcases List.mem_cons.mp hw with rfl | hw
    · exact h
    · have := hrest w hw
      omega
  rw [lineWords, wordStarts_take, hstarts, Nat.zero_add, List.filter_cons, hnone]
  split <;> rfl

end StatusLine

/-- Two words behind the first one are the code and the start of a message. -/
theorem exists_statusLine {t : Bytes} {u v : Nat} {rest : List Nat} (h : wordStarts 0 false t = u :: v :: rest) :
    ∃ l : StatusLine, l.text = t := by
  obtain ⟨version, between, c, b, rfl, hversion, hc, _, hrest⟩ := word_of_starts h
  obtain ⟨code, behind, d, message, rfl, hcode, hd, _, _⟩ := word_of_starts hrest.symm
  have hnot : space ∉ c :: code := noSpace_cons.mpr ⟨hc, hcode⟩
  have hhead : (d :: message).head? ≠ some space := fun e => hd (Option.some.inj e)
  refine ⟨⟨version, between, c :: code, behind, d :: message, hversion, List.cons_ne_nil _ _, hnot,
    List.cons_ne_nil _ _, hhead⟩, ?_⟩
  simp [StatusLine.text, StatusLine.toMessage, StatusLine.toCode]

theorem answerEffect_none (uri : Option Bytes) (s : Bytes) (respCode : Option Nat) :
    answerEffect uri s respCode none = ⟨false, none, none, []⟩ := by
  cases respCode <;> rfl

/-- An accepted line has three parts. -/
theorem threeParts_of_accepted {uri : Option Bytes} {s : Bytes} (h : (responseEffect uri s).accepted = true) :
    ThreeParts s := by
  have hprefix : ∀ w, (lineWords s)[1]? = some w → 2 ≤ (wordStarts 0 false s).length := by
    intro w hw
    obtain ⟨hlt, _⟩ := List.getElem?_eq_some_iff.mp hw
    rw [lineWords, wordStarts_take] at hlt
    exact Nat.le_trans hlt (List.length_filter_le ..)
  cases hw : (lineWords s)[1]? with
  | none =>
    rw [responseEffect, hw, answerEffect_none] at h
    cases h
  | some w =>
    have hmany := hprefix w hw
    rcases hstarts : wordStarts 0 false s with _ | ⟨u, _ | ⟨v, rest⟩⟩
    · rw [hstarts] at hmany
      cases hmany
    · rw [hstarts, List.length_singleton] at hmany
      omega
    · exact exists_statusLine hstarts

theorem StatusLine.accepted_iff (l : StatusLine) (uri : Option Bytes) :
    (responseEffect uri l.text).accepted = true ↔ l.toMessage.length < scanned l.text := by
  constructor
  · intro h
    by_contra hshort
    rw [responseEffect, l.lineWords_short hshort, answerEffect_none] at h
    cases h
  · intro h
    obtain ⟨hcode, hmessage⟩ := l.lineWords_text h
    rw [responseEffect, hcode, hmessage]
    rfl

/-- What an accepted status line sets. -/
theorem StatusLine.calls (l : StatusLine) (uri : Option Bytes) (h : l.toMessage.length < scanned l.text) :
    (responseEffect uri l.text).calls = [.setvar (some varErrorCode) (some l.code)] ++
      messageCalls l.code l.message ++
      [.setvar (some varUri) uri, .setvar (some varReqType) (some reqTypeNone)] := by
  obtain ⟨hcode, hmessage⟩ := l.lineWords_text h
  have hrest : l.text.drop l.toCode.length = l.code ++ space :: (spaces l.behind ++ l.message) := by
    have htext : l.text = l.toCode ++ (l.code ++ space :: (spaces l.behind ++ l.message)) := by
      simp [StatusLine.text, StatusLine.toMessage]
    rw [htext, List.drop_left]
  have hword : (l.text.drop l.toCode.length).takeWhile (· ≠ space) = l.code := by
    rw [hrest, takeWhile_ne_append l.code_noSpace]
  have hlast : l.text.drop l.toMessage.length = l.message := by rw [StatusLine.text, List.drop_left]
  rw [responseEffect, hcode, hmessage, answerEffect, hword, hlast]

/-! Header lines. -/

/-- A header with its line end. -/
structure HeaderLine where
  name : Bytes
  value : Bytes
  /-- There is a carriage return before the newline. -/
  carriage : Bool
  nameClean : Clean name
  noColon : colon ∉ name
  external : ¬ Internal name
  valueNonempty : value ≠ []
  valueClean : Clean value
  noLeadingSpace : value.head? ≠ some space

namespace HeaderLine
variable (h : HeaderLine)

def line : Bytes := h.name ++ colon :: space :: h.value

/-- The line up to its newline. -/
def segment : Bytes := h.line ++ if h.carriage then [cr] else []

def text : Bytes := h.segment ++ [lf]

/-- The header as it is stored. -/
def stored : Bytes × Bytes := (h.name.map toLower, h.value)

end HeaderLine

/-- The header lines of a message: behind its first newline, up to an empty line or the end. -/
inductive HasHeaders : Bytes → List HeaderLine → Prop
  | alone {front : Bytes} (h : lf ∉ front) : HasHeaders front []
  | lines {front tail : Bytes} {headers : List HeaderLine} (h : lf ∉ front) (few : headers.length < maxHeaders)
      (ended : tail = [] ∨ tail.head? = some lf ∨ tail.head? = some cr) :
      HasHeaders (front ++ lf :: (headers.flatMap HeaderLine.text ++ tail)) headers

namespace HeaderLine
variable (h : HeaderLine)

theorem clean : Clean h.line := by
  have hvalue : Clean (space :: h.value) := Clean.cons (by decide) h.valueClean
  exact h.nameClean.append (Clean.cons (by decide) hvalue)

theorem segment_lf : lf ∉ h.segment := by
  rw [segment]
  cases h.carriage with
  | true => exact h.clean.segment
  | false =>
    rw [if_neg Bool.false_ne_true, List.append_nil]
    exact h.clean.no_lf

theorem lineText_segment : lineText h.segment = h.line := by
  rw [segment]
  cases h.carriage with
  | true => exact h.clean.lineText
  | false =>
    rw [if_neg Bool.false_ne_true, List.append_nil, lineText_eq h.clean.no_lf]
    exact List.takeWhile_eq_self_iff.mpr fun c hc => decide_eq_true (h.clean c hc)

theorem segment_head : ∃ c t, h.segment = c :: t ∧ c ≠ cr := by
  cases hname : h.name with
  | nil => exact ⟨colon, _, by rw [segment, line, hname]; rfl, by decide⟩
  | cons c name =>
    have hc := h.nameClean c (by rw [hname]; exact List.mem_cons_self)
    exact ⟨c, _, by rw [segment, line, hname]; rfl, hc.1⟩

end HeaderLine

theorem HasHeaders.headerSegments {text : Bytes} {headers : List HeaderLine} (H : HasHeaders text headers) :
    headerSegments text = headers.map HeaderLine.segment := by
  rw [Httpp.headerSegments]
  cases H with
  | alone hfront => rw [splitLines_plain hfront, List.tail_nil, List.map_nil]
  | lines hfront few ended =>
    rw [splitLines_append hfront, List.tail_cons]
    exact splitLines_segments few HeaderLine.segment_lf HeaderLine.segment_head ended

/-- The headers that are read. -/
theorem HasHeaders.headersOf {text : Bytes} {headers : List HeaderLine} (H : HasHeaders text headers) :
    headersOf text = (headers.map HeaderLine.stored).filter fun header => Seen header :=
  headersOf_lines H.headerSegments HeaderLine.lineText_segment HeaderLine.noColon HeaderLine.valueNonempty
    HeaderLine.noLeadingSpace

/-- The last header of each name is looked at behind the start of its value. -/
def LastSeen (headers : List HeaderLine) : Prop :=
  ∀ h ∈ headers, lastHeader h.stored.1 (headers.map HeaderLine.stored) = some h.value → Seen h.stored

/-! Responses. -/

/-- The variables of an accepted status line, besides the URI and the request type. -/
theorem StatusLine.lineVar_text {l : StatusLine} (uri : Option Bytes) (hplain : nul ∉ l.text)
    (h : l.toMessage.length < scanned l.text) (name : Bytes) (hreqType : varReqType ≠ name)
    (huri : varUri ≠ name) : lineVar (.response uri) [] l.text name =
      if (atoi l.code < 200 ∨ atoi l.code ≥ 300) ∧ varErrorMessage = name then some l.message
      else if varErrorCode = name then some l.code
      else none := by
  have hmessage : nul ∉ l.message := fun hm => hplain (List.mem_append_right _ hm)
  have hcode : nul ∉ l.code := by
    intro hm
    apply hplain
    rw [StatusLine.text, StatusLine.toMessage, List.append_assoc, List.append_assoc]
    exact List.mem_append_right _ (List.mem_append_left _ hm)
  have hcalls : (defaultCalls [] ++ (lineEffect (.response uri) l.text).calls).reverse =
      .setvar (some varReqType) (some reqTypeNone) :: .setvar (some varUri) uri ::
        ((messageCalls l.code l.message).reverse ++ [.setvar (some varErrorCode) (some l.code)]) := by
    rw [lineEffect, l.calls uri h]
    simp [defaultCalls]
  have hskip : ∀ before, lastVar name (.setvar (some varUri) uri :: before) = lastVar name before := by
    intro before
    cases uri with
    | none => rfl
    | some uri => rw [lastVar, cString_of_plain (by decide), if_neg huri]
  have hlast : lastVar name [.setvar (some varErrorCode) (some l.code)] =
      if varErrorCode = name then some l.code else none := lastVar_setvar (by decide) hcode name []
  rw [lineVar, hcalls, lastVar_setvar (by decide) (by decide), if_neg hreqType, hskip, messageCalls]
  by_cases hbad : atoi l.code < 200 ∨ atoi l.code ≥ 300
  · rw [if_pos hbad, List.reverse_singleton, List.singleton_append, lastVar_setvar (by decide) hmessage, hlast]
    simp only [hbad, true_and]
  · have hno : ¬ ((atoi l.code < 200 ∨ atoi l.code ≥ 300) ∧ varErrorMessage = name) := fun hand => hbad hand.1
    rw [if_neg hbad, List.reverse_nil, List.nil_append, hlast, if_neg hno]

/-- The parser has read the response. -/
structure StatusLine.ReadBy (l : StatusLine) (headers : List HeaderLine) (p : Parser) : Prop where
  errorCode : httppGetvar p (some varErrorCode) = some (some l.code)
  errorMessage : httppGetvar p (some varErrorMessage) =
    some (if 200 ≤ decimal l.code ∧ decimal l.code < 300 then none else some l.message)
  headers : ∀ name, ¬ Internal (cString name) →
    httppGetvar p (some name) = some (lastHeader (cString name) (headers.map HeaderLine.stored))

/-- `httpp_parse_response` on a new parser returns 1 or 0, 1 exactly when the first line has
three parts, and it reads the response then. -/
def Answers (uri : Option Bytes) (text : Bytes) : Prop :=
  ∃ result p, parseNew (.response uri) [] text = some (result, p) ∧ (result = 1 ∨ result = 0) ∧
    (result = 1 ↔ ThreeParts (firstLine text)) ∧
    ∀ l : StatusLine, l.text = firstLine text → FitsInt (decimal l.code) →
      ∀ headers, HasHeaders text headers → l.ReadBy headers p

/-- The third part begins within the `int` length of the first line, and the value of the last
header of each name within that of its line. -/
def AnswerFits (text : Bytes) : Prop :=
  ∀ l : StatusLine, l.text = firstLine text → l.toMessage.length < scanned l.text ∧
    (FitsInt (decimal l.code) → ∀ headers, HasHeaders text headers → LastSeen headers)

theorem HasHeaders.noInternalHeaders {text : Bytes} {headers : List HeaderLine} (H : HasHeaders text headers) :
    NoInternalHeaders text := by
  intro header hm
  rw [H.headersOf] at hm
  obtain ⟨h, _, rfl⟩ := List.mem_map.mp (List.mem_filter.mp hm).1
  exact fun hi => h.external (internal_lower.mp hi)

section
variable {uri : Option Bytes} {text : Bytes} {l : StatusLine} {headers : List HeaderLine} {p : Parser}

/-- A response is read when its last headers are. -/
theorem StatusLine.readBy_iff (hl : l.text = firstLine text) (h : l.toMessage.length < scanned l.text)
    (hint : FitsInt (decimal l.code)) (H : HasHeaders text headers)
    (hvars : ∀ name, httppGetvar p (some name) = some ((lastHeader (cString name) (Httpp.headersOf text)).or
      (lineVar (.response uri) [] (firstLine text) (cString name)))) :
    l.ReadBy headers p ↔ LastSeen headers := by
  have hplain : nul ∉ l.text := by
    rw [hl]
    exact firstLine_plain text
  have hvar := fun name => StatusLine.lineVar_text uri hplain h name
  rw [hl] at hvar
  have hinternal : ∀ name, Internal name → lastHeader name (Httpp.headersOf text) = none :=
    fun name hname => H.noInternalHeaders.lastHeader hname
  have hexternal : ∀ name, ¬ Internal name → lineVar (.response uri) [] (firstLine text) name = none := by
    intro name hname
    have hne : ∀ n, Internal n → n ≠ name := fun n hn e => hname (e ▸ hn)
    have hmessage : ¬ ((atoi l.code < 200 ∨ atoi l.code ≥ 300) ∧ varErrorMessage = name) :=
      fun hand => hne varErrorMessage (by decide) hand.2
    rw [hvar name (hne varReqType (by decide)) (hne varUri (by decide)), if_neg hmessage,
      if_neg (hne varErrorCode (by decide))]
  constructor
  · intro hread h hmem hvalue
    have hexternal' : ¬ Internal h.stored.1 := fun hi => h.external (internal_lower.mp hi)
    have hname : cString h.stored.1 = h.stored.1 := cString_of_plain (nul_notMem_lower h.nameClean.plain)
    have hgot := hread.headers h.stored.1 (by rwa [hname])
    rw [hvars, hname, hexternal _ hexternal', Option.or_none, hvalue] at hgot
    have hin := lastHeader_mem (Option.some.inj hgot)
    rw [H.headersOf] at hin
    exact of_decide_eq_true (List.mem_filter.mp hin).2
  · intro hseen
    have hall : ∀ name, lastHeader name (Httpp.headersOf text) =
        lastHeader name (headers.map HeaderLine.stored) := by
      rw [H.headersOf]
      apply (lastHeader_filter _ _).mpr
      intro header hmem hvalue
      obtain ⟨h, hh, rfl⟩ := List.mem_map.mp hmem
      exact decide_eq_true (hseen h hh hvalue)
    refine ⟨?_, ?_, ?_⟩
    · have hno : ¬ ((atoi l.code < 200 ∨ atoi l.code ≥ 300) ∧ varErrorMessage = varErrorCode) :=
        fun hand => absurd hand.2 (by decide)
      have hname : cString varErrorCode = varErrorCode := rfl
      rw [hvars, hname, hinternal varErrorCode (by decide), hvar varErrorCode (by decide) (by decide),
        if_neg hno, if_pos rfl, Option.none_or]
    · have hname : cString varErrorMessage = varErrorMessage := rfl
      have hcode : varErrorCode ≠ varErrorMessage := by decide
      rw [hvars, hname, hinternal varErrorMessage (by decide), hvar varErrorMessage (by decide) (by decide),
        Option.none_or, atoi_decimal hint, if_neg hcode]
      by_cases hgood : 200 ≤ decimal l.code ∧ decimal l.code < 300
      · have hno : ¬ ((decimal l.code < 200 ∨ decimal l.code ≥ 300) ∧ varErrorMessage = varErrorMessage) := by
          omega
        rw [if_pos hgood, if_neg hno]
      · have hyes : (decimal l.code < 200 ∨ decimal l.code ≥ 300) ∧ varErrorMessage = varErrorMessage :=
          ⟨by omega, rfl⟩
        rw [if_neg hgood, if_pos hyes]
    · intro name hname
      rw [hvars, hexternal _ hname, Option.or_none, hall]

/-- Responses are read back exactly when no line is too long for an `int`. -/
theorem response_read (uri : Option Bytes) (text : Bytes) : Answers uri text ↔ AnswerFits text := by
  obtain ⟨p, e, _, hvars⟩ := message_variables (.response uri) [] text
  have hkind : lineEffect (.response uri) = responseEffect uri := rfl
  rw [hkind] at e hvars
  have hone := returned_iff (responseEffect uri (firstLine text)).accepted
  constructor
  · rintro ⟨result, q, e', _, hresult, hread⟩ l hl
    obtain ⟨rfl, rfl⟩ := Prod.mk.inj (Option.some.inj (e.symm.trans e'))
    have haccepted := hone.mp (hresult.mpr ⟨l, hl⟩)
    have hlong : l.toMessage.length < scanned l.text := by
      rw [← l.accepted_iff uri, hl]
      exact haccepted
    refine ⟨hlong, ?_⟩
    intro hint headers H
    exact (StatusLine.readBy_iff hl hlong hint H (hvars haccepted)).mp (hread l hl hint headers H)
  · intro hfits
    have haccepted : ∀ l : StatusLine, l.text = firstLine text →
        (responseEffect uri (firstLine text)).accepted = true := by
      intro l hl
      rw [← hl, l.accepted_iff uri]
      exact (hfits l hl).1
    refine ⟨_, p, e, returned_cases _, ?_, ?_⟩
    · rw [hone]
      exact ⟨threeParts_of_accepted, fun ⟨l, hl⟩ => haccepted l hl⟩
    · intro l hl hint headers H
      obtain ⟨hlong, hseen⟩ := hfits l hl
      exact (StatusLine.readBy_iff hl hlong hint H (hvars (haccepted l hl))).mpr (hseen hint headers H)

end

theorem HasHeaders.line_length {text : Bytes} {headers : List HeaderLine} (H : HasHeaders text headers)
    {h : HeaderLine} (hmem : h ∈ headers) : h.line.length < text.length := by
  cases H with
  | alone _ => cases hmem
  | lines hfront few ended =>
    obtain ⟨as, bs, rfl⟩ := List.append_of_mem hmem
    simp only [List.flatMap_append, List.flatMap_cons, HeaderLine.text, HeaderLine.segment, List.length_append,
      List.length_cons]
    omega

/-- Below 2 GiB no line is too long. -/
theorem AnswerFits.of_short {text : Bytes} (h : text.length < 2 ^ 31) : AnswerFits text := by
  intro l hl
  have hmessage := List.length_pos_iff.mpr l.message_ne
  have hline : l.text.length < 2 ^ 31 := by
    rw [hl]
    exact Nat.lt_of_le_of_lt (List.takeWhile_sublist _).length_le h
  refine ⟨?_, ?_⟩
  · rw [scanned_short hline, StatusLine.text, List.length_append]
    omega
  · intro _ headers H g hg _
    have hvalue := List.length_pos_iff.mpr g.valueNonempty
    have hlength : g.stored.1.length + 2 + g.stored.2.length = g.line.length := by
      rw [HeaderLine.stored, HeaderLine.line]
      simp only [List.length_map, List.length_append, List.length_cons]
      omega
    have hpositive : 0 < g.stored.2.length := hvalue
    have hshort : g.line.length < 2 ^ 31 := Nat.lt_trans (H.line_length hg) h
    rw [Seen, hlength, ← scanned, scanned_short hshort]
    omega

/-- `HTTP/1.0 200 aaa…`, with `n + 1` times the `a`. -/
def longAnswer (n : Nat) : StatusLine where
  version := [72, 84, 84, 80, 47, 49, 46, 48]
  between := 0
  code := [50, 48, 48]
  behind := 0
  message := List.replicate (n + 1) 97
  version_noSpace := by decide
  code_ne := by decide
  code_noSpace := by decide
  message_ne := by simp
  message_head := by
    rw [List.replicate_succ, List.head?_cons]
    exact fun h => absurd (Option.some.inj h) (by decide)

theorem longAnswer_firstLine (n : Nat) : firstLine (longAnswer n).text = (longAnswer n).text := by
  apply List.takeWhile_eq_self_iff.mpr
  intro c hc
  have hmessage : (longAnswer n).toMessage = [72, 84, 84, 80, 47, 49, 46, 48, 32, 50, 48, 48, 32] := rfl
  have hfront : ([72, 84, 84, 80, 47, 49, 46, 48, 32, 50, 48, 48, 32] : Bytes).all
      (fun c => c ≠ cr ∧ c ≠ lf ∧ c ≠ nul) = true := by decide
  rw [StatusLine.text, List.mem_append, hmessage] at hc
  apply decide_eq_true
  rcases hc with hc | hc
  · exact of_decide_eq_true (List.all_eq_true.mp hfront c hc)
  · rw [List.eq_of_mem_replicate hc]
    decide

theorem longAnswer_length (n : Nat) :
    (longAnswer n).toMessage.length = 13 ∧ (longAnswer n).text.length = n + 14 := by
  have hfront : (longAnswer n).toMessage.length = 13 := rfl
  have hmessage : (longAnswer n).message.length = n + 1 := List.length_replicate ..
  refine ⟨hfront, ?_⟩
  rw [StatusLine.text, List.length_append, hfront, hmessage]
  omega

/-- The length of the status line is negative as an `int`, and nothing of it is looked at. -/
theorem response_read_fails : ThreeParts (firstLine (longAnswer (2 ^ 31)).text) ∧
    (∃ p, parseNew (.response none) [] (longAnswer (2 ^ 31)).text = some (0, p)) ∧
    ¬ Answers none (longAnswer (2 ^ 31)).text := by
  obtain ⟨hfront, hline⟩ := longAnswer_length (2 ^ 31)
  have hfirst := longAnswer_firstLine (2 ^ 31)
  generalize longAnswer (2 ^ 31) = l at *
  have hscan : ¬ l.toMessage.length < scanned l.text := by
    rw [scanned, toInt_eq, hline, hfront]
    omega
  obtain ⟨p, e, _⟩ := message_variables (.response none) [] l.text
  have hrejected : (lineEffect (.response none) l.text).accepted = false := by
    rw [← Bool.not_eq_true, lineEffect, l.accepted_iff]
    exact hscan
  have hthree : ThreeParts (firstLine l.text) := ⟨l, hfirst.symm⟩
  rw [hfirst, hrejected] at e
  refine ⟨hthree, ⟨p, e⟩, ?_⟩
  rintro ⟨result, q, e', _, hresult, _⟩
  obtain ⟨rfl, _⟩ := Prod.mk.inj (Option.some.inj (e.symm.trans e'))
  cases hresult.mpr hthree

end IcecastCommon.Httpp
