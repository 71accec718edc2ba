import IcecastCommon.Httpp.Internal
import IcecastCommon.Httpp.Words

/- What `httpp_parse` reads back of a request that was written. Lengths of lines go through an
   `int`: a first line must be looked at behind the start of its version, and a header line
   behind the start of its value. Every line below 2 GiB is. -/
namespace IcecastCommon.Httpp
open Avl Library
open Encoding (Bytes nul cr lf cString cString_of_plain cString_append_nul nul_notMem_cString)

/-! The first line. -/

/-- A request as it is written. -/
def Request.words (r : Request) : ThreeWords where
  method := r.method
  between := 0
  uri := r.uri
  behind := 0
  version := r.versionText
  trailing := 0
  method_noSpace := r.method_word.noSpace
  uri_ne := r.uriWord.nonempty
  uri_noSpace := r.uriWord.noSpace
  version_ne := by simp [Request.versionText]
  version_noSpace := r.versionText_noSpace

theorem Request.words_text (r : Request) : r.words.text = r.line ∧ r.words.front = r.front := by
  constructor
  · simp [Request.words, ThreeWords.text, ThreeWords.front, spaces, Request.line, Request.front]
  · simp [Request.words, ThreeWords.front, spaces, Request.front]

section
variable (r : Request)

theorem Request.front_length : r.front.length = r.method.length + 1 + r.uri.length + 1 := by
  simp only [Request.front, List.length_append, List.length_cons, List.length_nil]
  omega

/-- What a request sets by its first line. -/
def Request.calls : List StoreCall :=
  uriCalls r.uri ++ [.setvar (some varProtocol) (some r.protocol), .setvar (some varVersion) (some r.version)] ++
    [.setvar (some varReqType) (some (r.method.map toUpper)), .setvar (some varUri) (some (uriPath r.uri))]

theorem Request.versionOf_text : versionOf r.versionText = some (r.protocol, r.version) := by
  rw [versionOf, Request.versionText, cutAt_append r.noSlash]
  exact if_pos ⟨r.protocolWord.nonempty, r.versionWord.nonempty⟩

theorem Request.effect (h : r.front.length < scanned r.line) :
    (requestEffect r.line).accepted = true ∧ (requestEffect r.line).calls = r.calls := by
  obtain ⟨hline, hfront⟩ := r.words_text
  obtain ⟨l, htaken, hmethod, huri, hread⟩ := ThreeWords.exists_taken hline (by rwa [hfront])
  have hversion : l.read (r.line.drop (scanned r.line)) = r.versionText := by
    rcases hread with hread | hread
    · rw [hread]
      exact List.append_nil r.versionText
    · exact hread
  obtain ⟨reqType, hfound, htext⟩ := r.method_found
  have heffect : requestEffect r.line =
      versionEffect reqType (uriPath r.uri) r.versionText (uriCalls r.uri) := by
    calc requestEffect r.line
        = versionEffect (httppStrToMethod l.method) (uriPath l.uri) (l.read (r.line.drop (scanned r.line)))
            (uriCalls l.uri) := ThreeWords.effect htaken r.line_clean.plain
      _ = versionEffect (httppStrToMethod r.method) (uriPath r.uri) r.versionText (uriCalls r.uri) := by
          rw [hmethod, huri, hversion]
          rfl
      _ = versionEffect reqType (uriPath r.uri) r.versionText (uriCalls r.uri) := by rw [hfound]
  rw [heffect, versionEffect, r.versionOf_text]
  dsimp only
  rw [htext]
  exact ⟨rfl, rfl⟩

/-- An accepted first line was looked at behind the start of its version. -/
theorem Request.accepted_iff : (requestEffect r.line).accepted = true ↔ r.front.length < scanned r.line := by
  obtain ⟨hline, hfront⟩ := r.words_text
  constructor
  · intro haccepted
    by_contra h
    have hrejected := ThreeWords.rejected_short hline (by rw [hfront]; omega)
    rw [hrejected] at haccepted
    cases haccepted
  · intro h
    exact (r.effect h).1

end

/-! The variables of a first line. -/

theorem lastVar_setvar {n value : Bytes} (hn : nul ∉ n) (hvalue : nul ∉ value) (name : Bytes)
    (before : List StoreCall) :
    lastVar name (.setvar (some n) (some value) :: before) = if n = name then some value else lastVar name before := by
  rw [lastVar, cString_of_plain hn, cString_of_plain hvalue]

section
variable (r : Request)

/-- The variables that a request sets by its first line. -/
theorem Request.lineVar_line (h : r.front.length < scanned r.line) (name : Bytes) :
    lineVar .request [] r.line name =
      if varUri = name then some (uriPath r.uri)
      else if varReqType = name then some (r.method.map toUpper)
      else if varVersion = name then some r.version
      else if varProtocol = name then some r.protocol
      else lastVar name (uriCalls r.uri).reverse := by
  have hpath : nul ∉ uriPath r.uri := fun hm => r.uriWord.clean.plain ((List.takeWhile_sublist _).subset hm)
  have hmethod : nul ∉ r.method.map toUpper := by
    obtain ⟨reqType, hmem⟩ := r.known
    exact fun hm => absurd ((methodNames_letters hmem).2 nul hm) (by decide)
  have hcalls : (defaultCalls [] ++ (lineEffect .request r.line).calls).reverse =
      .setvar (some varUri) (some (uriPath r.uri)) :: .setvar (some varReqType) (some (r.method.map toUpper)) ::
        .setvar (some varVersion) (some r.version) :: .setvar (some varProtocol) (some r.protocol) ::
          (uriCalls r.uri).reverse := by
    rw [lineEffect, (r.effect h).2, Request.calls]
    simp [defaultCalls]
  rw [lineVar, hcalls, lastVar_setvar (by decide) hpath, lastVar_setvar (by decide) hmethod,
    lastVar_setvar (by decide) r.versionWord.clean.plain, lastVar_setvar (by decide) r.protocolWord.clean.plain]

/-- The variables about a query. -/
theorem lastVar_uriCalls {uri : Bytes} (huri : nul ∉ uri) (name : Bytes) :
    lastVar name (uriCalls uri).reverse =
      if questionMark ∉ uri then none
      else if varQueryargs = name then some (uri.dropWhile (· ≠ questionMark))
      else if varRawuri = name then some uri
      else none := by
  rw [uriCalls]
  cases hcut : cutAt questionMark uri with
  | none =>
    rw [if_pos (cutAt_none.mp hcut)]
    rfl
  | some parts =>
    obtain ⟨path, query⟩ := parts
    obtain ⟨hparts, hpath⟩ := cutAt_some hcut
    have hmark : questionMark ∈ uri := by
      rw [hparts]
      exact List.mem_append_right _ List.mem_cons_self
    have hquery : uri.dropWhile (· ≠ questionMark) = questionMark :: query := by
      have hall : ∀ c ∈ path, decide (c ≠ questionMark) = true := fun c hc => decide_eq_true fun e => hpath (e ▸ hc)
      rw [hparts, List.dropWhile_append_of_pos hall, List.dropWhile_cons, if_neg (by simp)]
    have hplain : nul ∉ questionMark :: query := by
      intro hm
      apply huri
      rw [hparts]
      exact List.mem_append_right _ hm
    rw [if_neg (not_not.mpr hmark), hquery]
    show lastVar name (.setvar (some varQueryargs) (some (questionMark :: query)) ::
      [.setvar (some varRawuri) (some uri)]) = _
    rw [lastVar_setvar (by decide) hplain, lastVar_setvar (by decide) huri]
    rfl

end

/-! Headers. -/

theorem valueAfter_space {value : Bytes} (hne : value ≠ []) (hspace : value.head? ≠ some space) (n : Nat) :
    valueAfter n (space :: value) = if 1 < n then some value else none := by
  obtain ⟨c, value, rfl⟩ := List.exists_cons_of_ne_nil hne
  have hc : c ≠ space := fun e => hspace (by rw [e]; rfl)
  have hcolon : space ≠ colon := by decide
  match n with
  | 0 => rfl
  | 1 => rfl
  | n + 2 =>
    have hskip : (((space :: c :: value).take (n + 2)).dropWhile (· = colon)).dropWhile (· = space) =
        c :: value.take n := by
      rw [List.take_succ_cons, List.take_succ_cons, List.dropWhile_cons, if_neg (by simpa using hcolon),
        List.dropWhile_cons, if_pos (by simp), List.dropWhile_cons, if_neg (by simpa using hc)]
    have hlong : 1 < n + 2 := by omega
    rw [if_pos hlong, valueAfter, hskip, if_neg (List.cons_ne_nil _ _), List.drop_succ_cons, List.drop_succ_cons, List.cons_append,
      List.take_append_drop]

/-- A header line gives back its name and its value when it is looked at behind the start of
the value. -/
theorem headerOf_line {name value : Bytes} (hname : colon ∉ name) (hne : value ≠ [])
    (hspace : value.head? ≠ some space) (n : Nat) :
    headerOf n (name ++ colon :: space :: value) = if name.length + 2 < n then some (name, value) else none := by
  induction name generalizing n with
  | nil =>
    cases n with
    | zero => rfl
    | succ n =>
      rw [List.nil_append, headerOf, if_pos rfl, valueAfter_space hne hspace]
      have hlt : ([] : Bytes).length + 2 < n + 1 ↔ 1 < n := by
        rw [List.length_nil]
        omega
      by_cases hn : 1 < n
      · rw [if_pos hn, if_pos (hlt.mpr hn)]
        rfl
      · rw [if_neg hn, if_neg fun h => hn (hlt.mp h)]
        rfl
  | cons c name ih =>
    have hc : c ≠ colon := fun e => hname (e ▸ List.mem_cons_self)
    have hrest := ih fun hm => hname (List.mem_cons_of_mem c hm)
    cases n with
    | zero => rfl
    | succ n =>
      rw [List.cons_append, headerOf, if_neg hc, hrest, List.length_cons]
      by_cases hn : name.length + 2 < n
      · rw [if_pos hn, if_pos (by omega)]
        rfl
      · rw [if_neg hn, if_neg (by omega)]
        rfl

/-- The line of a header is looked at behind the start of its value. -/
def Header.Fits (h : Header) : Prop := h.name.length + 2 < scanned h.line

instance (h : Header) : Decidable h.Fits := by
  unfold Header.Fits
  infer_instance

/-- The line of a stored header is looked at behind the start of its value. -/
def Seen (header : Bytes × Bytes) : Prop :=
  header.1.length + 2 < (toInt (header.1.length + 2 + header.2.length)).toNat

instance (header : Bytes × Bytes) : Decidable (Seen header) := by
  unfold Seen
  infer_instance

theorem seen_iff (name value : Bytes) :
    Seen (name.map toLower, value) ↔ name.length + 2 < scanned (name ++ colon :: space :: value) := by
  have hname : (name.map toLower).length = name.length := List.length_map _
  have hline : (name ++ colon :: space :: value).length = name.length + 2 + value.length := by
    simp only [List.length_append, List.length_cons]
    omega
  rw [Seen, scanned, hname, hline]

/-- A header line is stored when it is seen. -/
theorem headerOf_seen {name value : Bytes} (hname : colon ∉ name) (hne : value ≠ [])
    (hspace : value.head? ≠ some space) :
    (headerOf (scanned (name ++ colon :: space :: value)) (name ++ colon :: space :: value)).map
      (fun header => (header.1.map toLower, header.2)) =
    if Seen (name.map toLower, value) then some (name.map toLower, value) else none := by
  rw [headerOf_line hname hne hspace]
  by_cases hseen : Seen (name.map toLower, value)
  · rw [if_pos hseen, if_pos ((seen_iff name value).mp hseen)]
    rfl
  · rw [if_neg hseen, if_neg fun hlt => hseen ((seen_iff name value).mpr hlt)]
    rfl

theorem filterMap_if {α β : Type} (p : α → Prop) [DecidablePred p] (f : α → β) (l : List α) :
    (l.filterMap fun a => if p a then some (f a) else none) = (l.filter fun a => p a).map f := by
  induction l with
  | nil => rfl
  | cons a l ih =>
    rw [List.filterMap_cons, ih, List.filter_cons]
    by_cases h : p a
    · rw [if_pos h, if_pos (decide_eq_true h)]
      rfl
    · rw [if_neg h, if_neg (by simpa using h)]

/-- The headers of a text with header lines are those that are seen. -/
theorem headersOf_lines {α : Type} {text : Bytes} {headers : List α} {segment name value : α → Bytes}
    (hsegments : headerSegments text = headers.map segment)
    (hline : ∀ h, lineText (segment h) = name h ++ colon :: space :: value h) (hname : ∀ h, colon ∉ name h)
    (hne : ∀ h, value h ≠ []) (hspace : ∀ h, (value h).head? ≠ some space) :
    headersOf text = (headers.map fun h => ((name h).map toLower, value h)).filter fun header => Seen header := by
  have hread : ((fun seg => (headerOf (scanned (lineText seg)) (lineText seg)).map fun header =>
      (header.1.map toLower, header.2)) ∘ segment) =
      fun h => if Seen ((name h).map toLower, value h) then some ((name h).map toLower, value h) else none := by
    funext h
    rw [Function.comp_apply, hline, headerOf_seen (hname h) (hne h) (hspace h)]
  calc headersOf text
      = (headers.map segment).filterMap (fun seg =>
          (headerOf (scanned (lineText seg)) (lineText seg)).map fun header =>
            (header.1.map toLower, header.2)) := by
        rw [headersOf, hsegments, List.map_filterMap]
    _ = headers.filterMap fun h =>
          if Seen ((name h).map toLower, value h) then some ((name h).map toLower, value h) else none := by
        rw [List.filterMap_map, hread]
    _ = (headers.filter fun h => Seen ((name h).map toLower, value h)).map fun h =>
          ((name h).map toLower, value h) :=
        filterMap_if (fun h => Seen ((name h).map toLower, value h)) (fun h => ((name h).map toLower, value h)) headers
    _ = (headers.map fun h => ((name h).map toLower, value h)).filter fun header => Seen header := by
        rw [List.filter_map, Function.comp_def]

theorem Header.fits_iff (h : Header) : h.Fits ↔ Seen h.stored := (seen_iff h.name h.value).symm

/-- The headers that are read back, whatever the body. -/
theorem Request.headersOf_text (r : Request) (body : Bytes) :
    headersOf (r.text body) = (r.headers.map Header.stored).filter fun header => Seen header :=
  headersOf_lines (r.headerSegments_text body) (fun h => h.clean.lineText) Header.noColon Header.valueNonempty
    Header.noLeadingSpace

/-- A search passes over nothing that it could have found. -/
theorem find?_filter_of {α : Type} {p q : α → Bool} {l : List α} (h : ∀ a, l.find? q = some a → p a = true) :
    (l.filter p).find? q = l.find? q := by
  induction l with
  | nil => rfl
  | cons a l ih =>
    rw [List.find?_cons] at h
    rw [List.find?_cons, List.filter_cons]
    cases hq : q a with
    | true =>
      rw [hq] at h
      rw [if_pos (h a rfl), List.find?_cons, hq]
    | false =>
      rw [hq] at h
      by_cases hp : p a = true
      · rw [if_pos hp, List.find?_cons, hq]
        exact ih h
      · rw [if_neg hp]
        exact ih h

/-- Leaving headers out changes no last value when it leaves no last header out. -/
theorem lastHeader_filter (p : Bytes × Bytes → Bool) (headers : List (Bytes × Bytes)) :
    (∀ name, lastHeader name (headers.filter p) = lastHeader name headers) ↔
      ∀ header ∈ headers, lastHeader header.1 headers = some header.2 → p header = true := by
  constructor
  · intro h header hmem hvalue
    rw [← h] at hvalue
    exact (List.mem_filter.mp (lastHeader_mem hvalue)).2
  · intro h name
    rw [lastHeader, lastHeader, ← List.filter_reverse]
    congr 1
    apply find?_filter_of
    intro header hfound
    have hname : header.1 = name := by simpa using List.find?_some hfound
    apply h header (List.mem_reverse.mp (List.mem_of_find?_eq_some hfound))
    rw [lastHeader, hname, hfound]
    rfl

/-- The last header of each name is looked at behind the start of its value. -/
def LastFit (headers : List Header) : Prop :=
  ∀ h ∈ headers, lastHeader h.stored.1 (headers.map Header.stored) = some h.value → h.Fits

/-- Then leaving out the headers that are not seen changes no last value. -/
theorem LastFit.lastHeader {headers : List Header} (hlast : LastFit headers) (name : Bytes) :
    lastHeader name ((headers.map Header.stored).filter fun header => Seen header) =
      lastHeader name (headers.map Header.stored) := by
  apply (lastHeader_filter _ _).mpr
  intro header hmem hvalue
  obtain ⟨h, hh, rfl⟩ := List.mem_map.mp hmem
  apply decide_eq_true
  exact h.fits_iff.mp (hlast h hh hvalue)

theorem toLower_underscore {c : UInt8} : toLower c = underscore ↔ c = underscore := by
  have h95 : underscore.toNat = 95 := rfl
  rw [← UInt8.toNat_inj, ← UInt8.toNat_inj, toNat_toLower, h95]
  split_ifs <;> omega

theorem internal_lower {name : Bytes} : Internal (name.map toLower) ↔ Internal name := by
  match name with
  | [] => exact Iff.rfl
  | [c] => simp [Internal]
  | c :: d :: name =>
    rw [Internal, Internal]
    simp [toLower_underscore]

theorem Header.stored_external (h : Header) : ¬ Internal h.stored.1 :=
  fun hi => h.external (internal_lower.mp hi)

theorem Header.stored_plain (h : Header) : nul ∉ h.stored.1 := nul_notMem_lower h.nameClean.plain

/-! The round trip. -/

def IsSet (p : Parser) (name : Bytes) : Prop := ∃ value, httppGetvar p (some name) = some (some value)

theorem isSet_iff {p : Parser} {name uri value : Bytes}
    (h : httppGetvar p (some name) = some (if questionMark ∉ uri then none else some value)) :
    IsSet p name ↔ questionMark ∈ uri := by
  by_cases hmark : questionMark ∈ uri
  · rw [if_neg (not_not.mpr hmark)] at h
    exact ⟨fun _ => hmark, fun _ => ⟨value, h⟩⟩
  · rw [if_pos hmark] at h
    constructor
    · intro hset
      obtain ⟨v, hv⟩ := hset
      rw [hv] at h
      cases h
    · intro hm
      exact absurd hm hmark

/-- The parser has read the request. -/
structure Request.ReadBy (r : Request) (p : Parser) : Prop where
  headers : ∀ name, ¬ Internal (cString name) →
    httppGetvar p (some name) = some (lastHeader (cString name) (r.headers.map Header.stored))
  protocol : httppGetvar p (some varProtocol) = some (some r.protocol)
  version : httppGetvar p (some varVersion) = some (some r.version)
  reqType : httppGetvar p (some varReqType) = some (some (r.method.map toUpper))
  uri : httppGetvar p (some varUri) = some (some (r.uri.takeWhile (· ≠ questionMark)))
  rawuri : IsSet p varRawuri ↔ questionMark ∈ r.uri
  queryargs : IsSet p varQueryargs ↔ questionMark ∈ r.uri

/-- `httpp_parse` accepts the request on a new parser and reads it. -/
def RoundTrips (r : Request) (body : Bytes) : Prop :=
  ∃ p, parseNew .request [] (r.text body) = some (1, p) ∧ r.ReadBy p

/-- The first line is looked at behind the start of its version, and the last header of each
name behind the start of its value. -/
def Request.Fits (r : Request) : Prop := r.front.length < scanned r.line ∧ LastFit r.headers

theorem Request.noInternalHeaders (r : Request) (body : Bytes) : NoInternalHeaders (r.text body) := by
  intro header hm
  rw [r.headersOf_text] at hm
  obtain ⟨h, _, rfl⟩ := List.mem_map.mp (List.mem_filter.mp hm).1
  exact h.stored_external

theorem Request.lineVar_external {r : Request} (h : r.front.length < scanned r.line) {name : Bytes}
    (hname : ¬ Internal name) : lineVar .request [] r.line name = none := by
  have hne : ∀ n, Internal n → n ≠ name := fun n hn e => hname (e ▸ hn)
  rw [r.lineVar_line h, if_neg (hne varUri (by decide)), if_neg (hne varReqType (by decide)),
    if_neg (hne varVersion (by decide)), if_neg (hne varProtocol (by decide)),
    lastVar_uriCalls r.uriWord.clean.plain, if_neg (hne varQueryargs (by decide)),
    if_neg (hne varRawuri (by decide)), ite_self]

theorem lastVar_rawuri {uri : Bytes} (h : nul ∉ uri) :
    lastVar varRawuri (uriCalls uri).reverse = if questionMark ∉ uri then none else some uri := by
  rw [lastVar_uriCalls h]
  rfl

theorem lastVar_queryargs {uri : Bytes} (h : nul ∉ uri) : lastVar varQueryargs (uriCalls uri).reverse =
    if questionMark ∉ uri then none else some (uri.dropWhile (· ≠ questionMark)) := by
  rw [lastVar_uriCalls h]
  rfl

section
variable {r : Request} {body : Bytes}

theorem RoundTrips.fits (h : RoundTrips r body) : r.Fits := by
  obtain ⟨p, e, _, hvars⟩ := message_variables .request [] (r.text body)
  obtain ⟨p', e', hread⟩ := h
  have hkind : lineEffect .request = requestEffect := rfl
  rw [r.firstLine_text, hkind] at e hvars
  obtain ⟨hone, rfl⟩ := Prod.mk.inj (Option.some.inj (e'.symm.trans e))
  have haccepted := accepted_of_one hone.symm
  have hfront := r.accepted_iff.mp haccepted
  refine ⟨hfront, ?_⟩
  intro h hmem hvalue
  have hname := h.stored_external
  have hplain := cString_of_plain h.stored_plain
  have hgot := hread.headers h.stored.1 (by rwa [hplain])
  rw [hvars haccepted, hplain, hvalue, Request.lineVar_external hfront hname, r.headersOf_text, Option.or_none] at hgot
  have hseen := (List.mem_filter.mp (lastHeader_mem (Option.some.inj hgot))).2
  exact h.fits_iff.mpr (of_decide_eq_true hseen)

theorem Request.Fits.roundTrips (h : r.Fits) (body : Bytes) : RoundTrips r body := by
  obtain ⟨p, e, _, hvars⟩ := message_variables .request [] (r.text body)
  obtain ⟨hfront, hlast⟩ := h
  have hkind : lineEffect .request = requestEffect := rfl
  have haccepted := r.accepted_iff.mpr hfront
  rw [r.firstLine_text, hkind, haccepted] at e hvars
  have hget := hvars rfl
  have hinternal : ∀ name, cString name = name → Internal name →
      httppGetvar p (some name) = some (lineVar .request [] r.line name) := by
    intro name hplain hname
    rw [hget, hplain, (r.noInternalHeaders body).lastHeader hname, Option.none_or]
  have huri := r.uriWord.clean.plain
  refine ⟨p, e, ?_, ?_, ?_, ?_, ?_, ?_, ?_⟩
  · intro name hname
    rw [hget, Request.lineVar_external hfront hname, r.headersOf_text, Option.or_none, hlast.lastHeader]
  · rw [hinternal varProtocol (by decide) (by decide), r.lineVar_line hfront]
    rfl
  · rw [hinternal varVersion (by decide) (by decide), r.lineVar_line hfront]
    rfl
  · rw [hinternal varReqType (by decide) (by decide), r.lineVar_line hfront]
    rfl
  · rw [hinternal varUri (by decide) (by decide), r.lineVar_line hfront]
    rfl
  · apply isSet_iff
    rw [hinternal varRawuri (by decide) (by decide), r.lineVar_line hfront, ← lastVar_rawuri huri]
    rfl
  · apply isSet_iff
    rw [hinternal varQueryargs (by decide) (by decide), r.lineVar_line hfront, ← lastVar_queryargs huri]
    rfl

end

/-- A request is read back exactly when its lines are not too long for an `int`. -/
theorem request_round_trip (r : Request) (body : Bytes) : RoundTrips r body ↔ r.Fits :=
  ⟨RoundTrips.fits, fun h => h.roundTrips body⟩

/-- Lines below 2 GiB are not too long. -/
theorem Request.fits_short {r : Request} (hline : r.line.length < 2 ^ 31)
    (hheaders : ∀ h ∈ r.headers, h.line.length < 2 ^ 31) : r.Fits := by
  constructor
  · rw [scanned_short hline, Request.line, List.length_append, Request.versionText, List.length_append,
      List.length_cons]
    omega
  · intro h hmem _
    have hvalue := List.length_pos_iff.mpr h.valueNonempty
    rw [Header.Fits, scanned_short (hheaders h hmem), Header.line, List.length_append, List.length_cons,
      List.length_cons]
    omega

/-- `GET /aaa… HTTP/1.0`, with `n` times the `a`. -/
def longRequest (n : Nat) : Request where
  method := [71, 69, 84]
  uri := slash :: List.replicate n 97
  protocol := [72, 84, 84, 80]
  version := [49, 46, 48]
  headers := []
  known := ⟨.get, by decide⟩
  uriWord := by
    refine ⟨List.cons_ne_nil _ _, ?_, ?_⟩
    · apply Clean.cons (by decide)
      intro c hc
      rw [List.eq_of_mem_replicate hc]
      decide
    · intro hm
      rcases List.mem_cons.mp hm with hm | hm
      · exact absurd hm (by decide)
      · exact absurd (List.eq_of_mem_replicate hm) (by decide)
  protocolWord := ⟨by decide, by decide, by decide⟩
  noSlash := by decide
  versionWord := ⟨by decide, by decide, by decide⟩
  few := by decide

theorem longRequest_length (n : Nat) :
    (longRequest n).front.length = n + 6 ∧ (longRequest n).line.length = n + 14 := by
  have hfront : (longRequest n).front.length = n + 6 := by
    rw [Request.front_length]
    simp only [longRequest, List.length_cons, List.length_nil, List.length_replicate]
    omega
  refine ⟨hfront, ?_⟩
  rw [Request.line, List.length_append, hfront]
  rfl

/-- The length of the first line is negative as an `int`. -/
theorem long_uri_not_read : ¬ RoundTrips (longRequest (2 ^ 31)) [] := by
  obtain ⟨hfront, hline⟩ := longRequest_length (2 ^ 31)
  intro h
  have hfits := h.fits.1
  rw [scanned, toInt_eq, hfront, hline] at hfits
  omega

end IcecastCommon.Httpp
